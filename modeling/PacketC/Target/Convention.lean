import PacketC.Text.Replace

/-! How the methods of external objects are called, and where a method differs from the rest. -/

namespace PacketC

structure Convention where
  /-- The types at `typeParamPositions` are part of the function's name. -/
  foldTypeArgs : Bool
  /-- The parameters whose types tell one version of the function from another. -/
  typeParamPositions : List Nat
  /-- Arguments before the written ones; a pair of braces is the storage of the first argument. -/
  implicitArgs : List String
  /-- Parameter types of the prototype; a number in braces is the declared type at that place. -/
  paramTemplates : Option (List String)
  deriving DecidableEq

namespace Convention

def plain : Convention := ⟨true, [], [], none⟩

def of (owner method : String) : Convention :=
  match owner, method with
  | "meter", "execute_meter" => { plain with typeParamPositions := [1] }
  | "direct_meter", "read" => { plain with typeParamPositions := [0] }
  | "register", "read" =>
    { plain with
      typeParamPositions := [0]
      implicitArgs := ["&(\x7b\x7d)"]
      paramTemplates := some ["register_\x7b0\x7d*", "\x7b1\x7d*", "\x7b2\x7d"] }
  | "register", "write" => { plain with typeParamPositions := [1] }
  | "Digest", "pack" =>
    { plain with
      foldTypeArgs := false
      typeParamPositions := [0]
      paramTemplates := some ["\x7b1\x7d*"] }
  | _, _ => plain

/-- What a template writes for the place with the given number. -/
def placeholder (index : Nat) : String := "\x7b" ++ toString index ++ "\x7d"

/-- Fills the places of a template one after the other, the first type first. -/
def fill (template : String) (types : List String) : String :=
  types.zipIdx.foldl (fun text (ty, i) => Text.replace (placeholder i) ty text) template

/-- Fills the places for a storage. -/
def fillStorage (storage template : String) : String := Text.replace "\x7b\x7d" storage template

end Convention

end PacketC
