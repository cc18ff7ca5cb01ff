import PacketC.Proofs.Lower.Halts
import PacketC.Proofs.Lower.Locks
import PacketC.Proofs.Lower.Unsupported
import PacketC.Proofs.Lower.Visible

/-! When lowering fails, and what it reports when it does not. In a program that passes the check
only a call can fail. Everything else that has no form in the target leaves a diagnostic, and
lowering goes on. -/

namespace PacketC

/-- The statements that the target has no form for: an atomic block outside of a control, and a
switch with a label, other than the default, that has no text. -/
inductive Statement.Unsupported (env : Lower.Env) : Statement → Severity → Prop
  | atomic {components : List Statement} {annotations : List String}
      (hmark : annotations.contains Statement.atomicMark = true)
      (h : Lower.controlType env = none) : Unsupported env (.block components annotations) .warning
  | label {selector : ExprId} {arms : List (SwitchArm Statement)} {arm : SwitchArm Statement}
      {e : Expr} (ha : arm ∈ arms) (he : env.At arm.label e)
      (hd : e.node ≠ .default)
      (h : ∀ text, Lower.Returns env (Lower.expr arm.label .value) text → text = "") :
      Unsupported env (.switch selector arms) .error

namespace Lower

variable {env : Env} {name : String} {severity : Severity}

/-! ### Declarations -/

end Lower

namespace Task

/-- Lowering meets the expression, at a point where the memory is `m`: it ends there if the
expression is given a trap. -/
def Meets (s : Session) (p : Program) (block : Option BlockId) (t : Task) (target : ExprId)
    (m : Memory) : Prop :=
  ∃ emission, t.action (Lower.trapAt target) (s.env p block) s.initial =
    (.error Lower.trap, ⟨m, emission⟩)

end Task

end PacketC
