import Squeeze.SourceMap.Vlq

/-!
# Numbers can be read back

Each step of writing a number has a step of reading that undoes it: the sign, the groups of bits, the
letters. A number says itself where it ends, so a row of numbers is read back number by number
(`decode_flatMap_encode`), and it consists of letters only (`exists_letter_of_mem_encode`), none of
which can be taken for a separator.
-/

namespace Squeeze.Vlq

/-- The lowest bit holds the sign, and the others the size. -/
theorem toInt_ofInt (n : Int) : toInt (ofInt n) = n := by
  unfold toInt ofInt
  by_cases hn : n < 0
  · rw [if_pos hn, if_pos (by omega)]
    omega
  · rw [if_neg hn, if_neg (by omega)]
    omega

/-! ## Groups of bits -/

theorem lt_of_mem_groups {n d : Nat} (h : d ∈ groups n) : d < 64 := by
  induction n using Nat.strongRecOn with
  | ind n ih =>
    rw [groups] at h
    split at h
    · have := List.mem_singleton.mp h
      omega
    · rcases List.mem_cons.mp h with rfl | h
      · omega
      · exact ih (n / 32) (by omega) h

theorem groups_ne_nil (n : Nat) : groups n ≠ [] := by
  rw [groups]
  split <;> simp

/-- The groups of a number are put together again, whatever comes after them. -/
theorem ungroup_groups (n : Nat) (ds : List Nat) :
    ungroup (groups n ++ ds) = (ungroup ds).map (n :: ·) := by
  induction n using Nat.strongRecOn with
  | ind n ih =>
    rw [groups]
    split
    · rename_i hn
      rw [List.singleton_append, ungroup]
      cases ungroup ds with
      | none => rfl
      | some ns => simp only [Option.map_some, if_pos hn]
    · have hd : ¬ n % 32 + 32 < 32 := by omega
      have hn : n % 32 + 32 - 32 + 32 * (n / 32) = n := by omega
      rw [List.cons_append, ungroup, ih (n / 32) (by omega)]
      cases ungroup ds with
      | none => rfl
      | some ns => simp only [Option.map_some, if_neg hd, hn]

theorem ungroup_flatMap_groups (ns : List Nat) : ungroup (ns.flatMap groups) = some ns := by
  induction ns with
  | nil => rfl
  | cons n ns ih => rw [List.flatMap_cons, ungroup_groups, ih, Option.map_some]

/-! ## Letters -/

/-- Each of the 64 letters stands for one number. -/
theorem ofLetter_letter {d : Nat} (h : d < 64) : ofLetter (letter d) = some d := by
  have hall : ∀ d : Fin 64, ofLetter (letter d) = some d.val := by decide
  exact hall ⟨d, h⟩

theorem mapM_ofLetter {ds : List Nat} (h : ∀ d ∈ ds, d < 64) :
    (ds.map letter).mapM ofLetter = some ds := by
  induction ds with
  | nil => rfl
  | cons d ds ih =>
    rw [List.map_cons, List.mapM_cons, ofLetter_letter (h d (List.mem_cons_self ..)),
      ih fun e he => h e (List.mem_cons_of_mem d he)]
    rfl

/-- What a number is written with are letters. -/
theorem exists_letter_of_mem_encode {n : Int} {c : Char} (h : c ∈ encode n) :
    ∃ d < 64, letter d = c := by
  obtain ⟨d, hd, rfl⟩ := List.mem_map.mp h
  exact ⟨d, lt_of_mem_groups hd, rfl⟩

theorem letter_ne {c : Char} (hc : ofLetter c = none) {d : Nat} (hd : d < 64) : letter d ≠ c := by
  rintro rfl
  rw [ofLetter_letter hd] at hc
  cases hc

theorem encode_ne_nil (n : Int) : encode n ≠ [] := by
  unfold encode
  simp [groups_ne_nil]

/-- A row of numbers that is written without anything in between can be read back. -/
theorem decode_flatMap_encode (ns : List Int) : decode (ns.flatMap encode) = some ns := by
  have hletters : ns.flatMap encode = ((ns.map ofInt).flatMap groups).map letter := by
    rw [List.map_flatMap, List.flatMap_map]
    rfl
  have hlt : ∀ d ∈ (ns.map ofInt).flatMap groups, d < 64 := by
    intro d hd
    obtain ⟨n, -, hd⟩ := List.mem_flatMap.mp hd
    exact lt_of_mem_groups hd
  have hid : toInt ∘ ofInt = id := funext toInt_ofInt
  rw [decode, hletters, mapM_ofLetter hlt]
  simp only [ungroup_flatMap_groups, Option.map_some, List.map_map, hid, List.map_id]

end Squeeze.Vlq
