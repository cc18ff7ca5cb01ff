/-! Integer literals and byte arrays of the target. -/

namespace PacketC.Literal

def digits (base n : Nat) : String := String.ofList (Nat.toDigits base n)

def hex (n : Nat) : String := "0x" ++ digits 16 n

def binary (n : Nat) : String := "0b" ++ digits 2 n

def decimal (n : Int) : String :=
  match n with
  | .ofNat n => digits 10 n
  | .negSucc n => "-" ++ digits 10 (n + 1)

/-- Base 16 and base 2 have a mark of their own; a negative number and any other base is decimal. -/
def inBase (base : Nat) (n : Int) : String :=
  if base = 16 ∧ 0 ≤ n then hex n.toNat
  else if base = 2 ∧ 0 ≤ n then binary n.toNat
  else decimal n

/-- All bits of the given width set. -/
def mask (width : Nat) : String := hex (Nat.pow 2 width - 1)

/-- The lowest `len` bytes of a number, the lowest of them first. -/
def littleEndian : Nat → Nat → List UInt8
  | 0, _ => []
  | len + 1, n => UInt8.ofNat n :: littleEndian len (n / 256)

/-- The lowest `len` bytes of the magnitude, the highest of them first. -/
def bytes (n : Int) (len : Nat) : List UInt8 := (littleEndian len n.natAbs).reverse

@[simp]
theorem length_littleEndian (len n : Nat) : (littleEndian len n).length = len := by
  induction len generalizing n with
  | zero => rfl
  | succ len ih => simp [littleEndian, ih]

@[simp]
theorem length_bytes (n : Int) (len : Nat) : (bytes n len).length = len := by simp [bytes]

def byteDigits (b : UInt8) : String :=
  String.ofList [Nat.digitChar (b.toNat / 16), Nat.digitChar (b.toNat % 16)]

/-- Two hexadecimal digits for each byte. -/
def hexBytes (n : Int) (len : Nat) : String := String.join ((bytes n len).map byteDigits)

/-- An initializer with the given items. -/
def braced (items : List String) : String :=
  "\x7b" ++ String.intercalate ", " items ++ "\x7d"

/-- An initializer with each byte written in the given base. -/
def byteArray (base : Nat) (n : Int) (len : Nat) : String :=
  braced ((bytes n len).map fun b => inBase base b.toNat)

end PacketC.Literal
