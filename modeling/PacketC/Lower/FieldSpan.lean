import PacketC.Program.Expr

/-! Runs of fields that lie next to each other in one header. -/

namespace PacketC

structure FieldSpan where
  header : HeaderId
  fields : List UInt64
  deriving DecidableEq

namespace FieldSpan

/-- The field comes right before the first one of the run. -/
def follows (run : FieldSpan) (ref : FieldRef) : Bool :=
  run.header == ref.header && run.fields.head?.any fun f => ref.field.toNat + 1 == f.toNat

/-- The runs that make up the references, each as long as it can be. -/
def partition : List FieldRef → List FieldSpan
  | [] => []
  | ref :: rest =>
    match partition rest with
    | [] => [⟨ref.header, [ref.field]⟩]
    | run :: runs =>
      if run.follows ref then { run with fields := ref.field :: run.fields } :: runs
      else ⟨ref.header, [ref.field]⟩ :: run :: runs

end FieldSpan

end PacketC
