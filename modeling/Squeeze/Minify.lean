import Squeeze.Window

/-!
# Minification

The whole way from a script to its short form. The name of the script is asked for before anything
is read; everything else about the files is optional and only passed on.
-/

namespace Squeeze

/-- What is known about the files. -/
structure Config where
  /-- The name of the script. It is optional here so that its absence can be reported. -/
  inputName : Option String
  /-- The name of the file that will hold the short form. -/
  outputName : Option String
  /-- What a reader of the source map puts in front of the name of the script. -/
  sourceRoot : Option String
  deriving DecidableEq, Repr

/-- Opens a script and lets its first character into view. -/
def Window.ofText (source text : String) : Except ScanError Window :=
  (Window.ofReader (.ofText source text)).refill

/-- The output for a script, or the report on what was left open in it. -/
def squeeze (source text : String) : Except ScanError Output :=
  match Window.ofText source text with
  | .error e => .error e
  | .ok w => w.run

/-- How bytes can fail to arrive. -/
inductive ReadKind where
  | notFound
  | brokenPipe
  | unexpectedEnd
  | invalidData
  | other
  deriving DecidableEq, Repr

/-- The report on a stream that could not be read. -/
structure ReadError where
  /-- What kind of failure it was. -/
  kind : ReadKind
  /-- The failure in words. -/
  text : String
  deriving DecidableEq, Repr

/-- Why there is no short form. -/
inductive MinifyError where
  /-- The script has no name. -/
  | missingInputName
  /-- Something was left open in the script. -/
  | scan (e : ScanError)
  /-- The script could not be read. -/
  | read (e : ReadError)
  deriving DecidableEq, Repr

/-- The reason in words. -/
def MinifyError.message : MinifyError → String
  | .missingInputName => "input_filename is required"
  | .scan e => e.message
  | .read e => "failed to read input: " ++ e.text

/-- The short form of a script. -/
def minify (config : Config) (text : String) : Except MinifyError Minified :=
  match config.inputName with
  | none => .error .missingInputName
  | some source =>
    match squeeze source text with
    | .error e => .error (.scan e)
    | .ok output => .ok (output.finish source config.outputName config.sourceRoot)

/-- The short forms of a script, of its short form, and so on, `n` times or up to the first error. -/
def passes (config : Config) : Nat → String → List (Except MinifyError String)
  | 0, _ => []
  | n + 1, text =>
    match minify config text with
    | .error e => [.error e]
    | .ok m => .ok m.code :: passes config n m.code

end Squeeze
