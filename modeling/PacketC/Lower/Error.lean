import PacketC.Diagnostic
import PacketC.Program.Error

/-! Errors that stop the lowering of a statement. -/

namespace PacketC

inductive LowerError where
  | unsupportedConstruct (what : String)
  | invalidArity (what : String)
  | unsupportedWidth (what : String)
  | unresolvedExternal (what : String)
  /-- The program itself is at fault. -/
  | program (error : ProgramError)
  deriving DecidableEq

namespace LowerError

def message : LowerError → String
  | .unsupportedConstruct what => "Unsupported construct: " ++ what
  | .invalidArity what => "Invalid arity: " ++ what
  | .unsupportedWidth what => "Unsupported width: " ++ what
  | .unresolvedExternal what => "Unresolved extern: " ++ what
  | .program e => e.message

def category : LowerError → Category
  | .unsupportedConstruct _ => .unsupportedConstruct
  | .invalidArity _ => .invalidArity
  | .unsupportedWidth _ => .unsupportedWidth
  | .unresolvedExternal _ => .unresolvedExternal
  | .program _ => .malformedProgram

/-- The error as it is recorded. -/
def diagnostic (stage : String) (e : LowerError) : Diagnostic :=
  .error e.category stage e.message

end LowerError

end PacketC
