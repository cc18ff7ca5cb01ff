import PacketC.Proofs.Lists.Once

/-! Lists that are packed exactly. If the fields of a list have fixed widths and its runs consist of
whole bytes, the copies fill the buffer one after another and leave no gap. -/

namespace PacketC

namespace Program

variable {p : Program}

/-- The bits of the fields that are referred to. -/
def width (p : Program) (refs : List FieldRef) : Nat :=
  (refs.map fun ref => (p.fieldOf ref).size).sum

end Program

namespace Lower

end Lower

end PacketC
