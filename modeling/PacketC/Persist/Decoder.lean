import PacketC.Json.Basic

/-! Reading values from JSON trees. A decoder is given the number of arrays and objects that may
still nest, and fails on a tree that needs more. A record is an object, or an array of all its
fields in their order; other keys of the object are passed over, whatever they hold. An alternative
is its tag, or an object whose only key is the tag. -/

namespace PacketC

/-- The number of arrays and objects that may nest in a persisted text. -/
def Json.maxDepth : Nat := 127

abbrev Decoder (α : Type) := Nat → Json → Option α

namespace Decoder

variable {α β : Type}

def string : Decoder String
  | _, .str text => text
  | _, _ => none

def bool : Decoder Bool
  | _, .bool b => some b
  | _, _ => none

/-- An integer from 0 to `bound - 1`. -/
def natBelow (bound : Nat) : Decoder Nat
  | _, .int (.ofNat n) => if n < bound then some n else none
  | _, _ => none

def uint32 : Decoder UInt32 := fun d j => (natBelow UInt32.size d j).map UInt32.ofNat

def uint64 : Decoder UInt64 := fun d j => (natBelow UInt64.size d j).map UInt64.ofNat

def list (item : Decoder α) : Decoder (List α)
  | d + 1, .arr items => items.mapM (item d)
  | _, _ => none

def option (item : Decoder α) : Decoder (Option α)
  | _, .null => some none
  | d, j => (item d j).map some

/-! ### Records -/

/-- The fields of a record, and how far their values may nest. -/
structure Fields where
  depth : Nat
  entries : List (String × Json)

/-- The members of an object under one of the `keys`, each at most once. -/
def namedFields (keys : List String) (members : List (Option String × Json)) :
    Option (List (String × Json)) := do
  let named ← members.mapM fun m => m.1.map fun key => (key, m.2)
  let known := named.filter fun m => keys.contains m.1
  if (known.map Prod.fst).Nodup then some known else none

def fields (keys : List String) : Decoder Fields
  | d + 1, .arr items =>
    if items.length = keys.length then some ⟨d, keys.zip items⟩ else none
  | d + 1, .obj members => (namedFields keys members).map (Fields.mk d)
  | _, _ => none

/-- Like `fields`, but an array may end early. -/
def leadingFields (keys : List String) : Decoder Fields
  | d + 1, .arr items =>
    if items.length ≤ keys.length then some ⟨d, keys.zip items⟩ else none
  | d + 1, .obj members => (namedFields keys members).map (Fields.mk d)
  | _, _ => none

namespace Fields

/-- A field that has to be there. -/
def need (r : Fields) (key : String) (decode : Decoder α) : Option α := do
  decode r.depth (← r.entries.lookup key)

/-- A field that may be missing or null. -/
def may (r : Fields) (key : String) (decode : Decoder α) : Option (Option α) :=
  match r.entries.lookup key with
  | none => some none
  | some j => option decode r.depth j

/-- A field with a value for when it is missing. -/
def getD (r : Fields) (key : String) (decode : Decoder α) (default : α) : Option α :=
  match r.entries.lookup key with
  | none => some default
  | some j => decode r.depth j

end Fields

/-! ### Alternatives -/

/-- One of the values in the table, written as its tag alone or with null for its payload. -/
def alternative (table : List (String × α)) : Decoder α
  | _, .str (some tag) => table.lookup tag
  | _ + 1, .obj [(some tag, .null)] => table.lookup tag
  | _, _ => none

end Decoder

end PacketC
