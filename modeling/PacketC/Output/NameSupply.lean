/-! Identifiers for generated code. A name is handed out once and never taken back; a hint with an
id of its own gets the same name each time. -/

namespace PacketC

structure NameSupply where
  counter : Nat
  used : List String
  memo : List ((String × String) × String)
  deriving DecidableEq

namespace NameSupply

def empty : NameSupply := ⟨0, [], []⟩

def isUsed (s : NameSupply) (name : String) : Bool := s.used.contains name

def size (s : NameSupply) : Nat := s.used.length

def joined (stem part : String) : String := stem ++ "_" ++ part

def numbered (stem : String) (n : Nat) : String := joined stem (toString n)

/-- The first number from `n` on whose name is free, unless `fuel` names before it are taken. -/
def seek (used : List String) (stem : String) : Nat → Nat → Nat
  | 0, n => n
  | fuel + 1, n => if used.contains (numbered stem n) then seek used stem fuel (n + 1) else n

/-- The numbers count on through all hints. Of one more names than are used, one is free. -/
def nextNumber (s : NameSupply) (stem : String) : Nat :=
  seek s.used stem s.used.length (s.counter + 1)

/-- The stem with the next number. It is not marked as used. -/
def nextFree (stem : String) (s : NameSupply) : String × NameSupply :=
  let n := s.nextNumber stem
  (numbered stem n, { s with counter := n })

def fresh (hint : String) (s : NameSupply) : String × NameSupply :=
  let (name, s) := s.nextFree hint
  (name, { s with used := name :: s.used })

/-- The hint with the id, and with a number as well if that name is taken. -/
def named (hint id : String) (s : NameSupply) : String × NameSupply :=
  match s.memo.lookup (hint, id) with
  | some name => (name, s)
  | none =>
    let simple := joined hint id
    let (name, s) :=
      if s.isUsed simple then s.fresh simple else (simple, { s with used := simple :: s.used })
    (name, { s with memo := ((hint, id), name) :: s.memo })

def allocate (hint : String) (id : Option String) (s : NameSupply) : String × NameSupply :=
  match id with
  | some id => s.named hint id
  | none => s.fresh hint

end NameSupply

end PacketC
