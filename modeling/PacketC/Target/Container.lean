/-! Containers of the target for bit strings: the smallest scalar that holds the width, or a buffer
of bytes above 32 bits. -/

namespace PacketC

inductive Container where
  | scalar8 | scalar16 | scalar32 | buffer
  deriving DecidableEq

namespace Container

def ofWidth (width : Nat) : Container :=
  if width ≤ 8 then .scalar8
  else if width ≤ 16 then .scalar16
  else if width ≤ 32 then .scalar32
  else .buffer

def bits? : Container → Option Nat
  | .scalar8 => some 8
  | .scalar16 => some 16
  | .scalar32 => some 32
  | .buffer => none

end Container

/-- The bytes that hold the given number of bits. Widths are numbers of 32 bits, and so is their
sum with 7. -/
def byteCount (bits : Nat) : Nat := (bits + 7) % UInt32.size / 8

end PacketC
