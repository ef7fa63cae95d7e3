import Squeeze.Proofs.Provenance
import Squeeze.Text.Columns

/-!
# What an output records

An output is given one character after another, from wherever they come. What it holds afterwards is the
run of these characters without the blanks in front (`Output.Records`): their text, and for each of them
that was read a mapping whose place is the one to which the code before the character leads. The code
grows by a character exactly when the place moves on past it, so the two never come apart, and the place
finds the character in the code by its line and either of its columns.
-/

namespace Squeeze

/-! ## The mappings of a run of characters -/

/-- The place of a mapping is the end of what was written before its character. -/
theorem mappingsAlong_eq_filterMap (p : Position) (cs : List Placed) :
    mappingsAlong p cs = cs.zipIdx.filterMap fun (c, n) =>
      c.origin.map fun q => ⟨p.advanceAll ((spelling cs).take n), q⟩ := by
  induction cs generalizing p with
  | nil => rfl
  | cons c cs ih =>
    have hzip : (c :: cs).zipIdx = (c, 0) :: cs.zipIdx.map fun (d, n) => (d, n + 1) := by
      rw [List.zipIdx_cons, List.zipIdx_succ]
    rw [mappingsAlong, ih, hzip, List.filterMap_cons, List.filterMap_map]
    dsimp only
    rcases c.origin with _ | q <;> rfl

theorem pairwise_before_generated (u : ColumnUnit) (p : Position) (cs : List Placed) :
    (mappingsAlong p cs).Pairwise fun x y => u.Before x.generated y.generated := by
  have hplaces : (origins (place p (spelling cs))).Pairwise u.Before :=
    pairwise_rel_origins_place (R := u.Before) (fun _ _ _ => ColumnUnit.Before.trans)
      u.before_advance p _
  exact List.pairwise_map.mp (hplaces.sublist (generated_sublist p cs))

/-- Each mapping finds its character in a text in which the run is written behind something else. -/
theorem map_lookUp_mappingsAlong (u : ColumnUnit) (before : List Char) (cs : List Placed) :
    ((mappingsAlong (Position.start.advanceAll before) cs).map fun x =>
        u.lookUp (before ++ spelling cs) x.generated) =
      (cs.filter fun c => c.origin.isSome).map fun c => some c.char := by
  induction cs generalizing before with
  | nil => rfl
  | cons c cs ih =>
    have hlook : u.lookUp (before ++ spelling (c :: cs)) (Position.start.advanceAll before) =
        some c.char := lookUp_advanceAll u before c.char (spelling cs)
    have hrest := ih (before ++ [c.char])
    rw [Position.advanceAll_append, List.append_assoc] at hrest
    rw [mappingsAlong, List.map_append]
    rcases hc : c.origin with _ | q
    · rw [List.filter_cons_of_neg (by simp [hc])]
      exact hrest
    · rw [List.filter_cons_of_pos (by simp [hc]), List.map_cons, ← hlook]
      exact congrArg _ hrest

/-! ## Outputs -/

namespace Output

/-- The output holds the characters `cs`, all of which have been written. -/
structure Records (o : Output) (cs : List Placed) : Prop where
  /-- The code is their text. -/
  code_eq : o.code.toList = spelling cs
  /-- There is one mapping for each of them that was read, in their order. It says where it was read, and
  its place is the one to which the code before the character leads. -/
  mappings_eq : o.mappings.toList = cs.zipIdx.filterMap fun (c, n) =>
    c.origin.map fun q => ⟨Position.start.advanceAll (o.code.toList.take n), q⟩
  /-- The next character will stand behind the code. -/
  position_eq : o.position = Position.start.advanceAll o.code.toList
  /-- The places of the mappings go forward, whichever column is compared. -/
  increasing : ∀ u : ColumnUnit,
    o.mappings.toList.Pairwise fun x y => u.Before x.generated y.generated
  /-- At the place of each mapping its character is found in the code, by either column. -/
  found : ∀ u : ColumnUnit,
    (o.mappings.toList.map fun x => u.lookUp o.code.toList x.generated) =
      (cs.filter fun c => c.origin.isSome).map fun c => some c.char

theorem records_append (cs : List Placed) : (empty.append cs).Records cs := by
  have hcode : (empty.append cs).code.toList = spelling cs := by simp [append, empty]
  have hmaps : (empty.append cs).mappings.toList = mappingsAlong .start cs := by
    simp [append, empty]
  refine ⟨hcode, ?_, ?_, ?_, ?_⟩
  · rw [hmaps, hcode]
    exact mappingsAlong_eq_filterMap .start cs
  · rw [hcode]
    rfl
  · rw [hmaps]
    exact fun u => pairwise_before_generated u .start cs
  · rw [hmaps, hcode]
    exact fun u => map_lookUp_mappingsAlong u [] cs

/-- Whatever characters an output is given, it holds those that are left when the blanks in front are taken
away. -/
theorem records_emitAll (cs : List Placed) :
    (empty.emitAll cs).Records (cs.dropWhile Placed.isBlank) := by
  rw [emitAll_empty_eq_append]
  exact records_append _

end Output

end Squeeze
