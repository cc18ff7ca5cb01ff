import PacketC.Text.Replace

/-! What the generator could not handle cleanly, in the order it was met. -/

namespace PacketC

inductive Severity where
  | error | warning
  deriving DecidableEq

def Severity.text : Severity → String
  | .error => "error"
  | .warning => "warning"

inductive Category where
  | unsupportedConstruct | invalidArity | unsupportedWidth | unresolvedExternal | malformedProgram
  /-- Handled, but the generated code may not do what the program intends. -/
  | suspicious
  deriving DecidableEq

def Category.text : Category → String
  | .unsupportedConstruct => "unsupported-construct"
  | .invalidArity => "invalid-arity"
  | .unsupportedWidth => "unsupported-width"
  | .unresolvedExternal => "unresolved-extern"
  | .malformedProgram => "malformed-ir"
  | .suspicious => "suspicious"

structure Diagnostic where
  severity : Severity
  category : Category
  /-- What the generator was doing. -/
  stage : String
  message : String
  deriving DecidableEq

namespace Diagnostic

def error (category : Category) (stage message : String) : Diagnostic :=
  ⟨.error, category, stage, message⟩

def warning (stage message : String) : Diagnostic := ⟨.warning, .suspicious, stage, message⟩

def isError (d : Diagnostic) : Bool := d.severity == .error

def isWarning (d : Diagnostic) : Bool := d.severity == .warning

def text (d : Diagnostic) : String :=
  s!"{d.severity.text}[{d.category.text}] while {d.stage}: {d.message}"

end Diagnostic

/-! ### Reports -/

namespace Report

def errors (ds : List Diagnostic) : List Diagnostic := ds.filter Diagnostic.isError

def warnings (ds : List Diagnostic) : List Diagnostic := ds.filter Diagnostic.isWarning

def hasErrors (ds : List Diagnostic) : Bool := ds.any Diagnostic.isError

/-- Ends the colour of a terminal. -/
def resetCode : String := "\x1b[0m"

/-- The text in the colour with the given code, which is taken up again after a reset inside. -/
def colored (code : Nat) (s : String) : String :=
  let start := "\x1b[" ++ toString code ++ "m"
  start ++ Text.replace resetCode (resetCode ++ start) s ++ resetCode

def colorOf : Severity → Nat
  | .error => 31
  | .warning => 33

def line (colors : Bool) (d : Diagnostic) : String :=
  if colors then colored (colorOf d.severity) d.text else d.text

def summary (ds : List Diagnostic) : String :=
  s!"{(errors ds).length} error(s), {(warnings ds).length} warning(s)"

/-- A line for each diagnostic, and one that counts them; it is bright red if there are errors. -/
def render (colors : Bool) (ds : List Diagnostic) : String :=
  String.join (ds.map fun d => line colors d ++ "\n") ++
    if colors && hasErrors ds then colored 91 (summary ds) else summary ds

end Report

end PacketC
