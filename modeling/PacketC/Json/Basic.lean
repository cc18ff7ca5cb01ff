/-! JSON trees as they are written: members keep their order, keys may repeat, and an integer is
told from a number with a fraction or an exponent. -/

namespace PacketC

inductive Json where
  | null
  | bool (value : Bool)
  | int (value : Int)
  /-- A number that is not written as an integer, and the integer literal `-0`. -/
  | real (literal : String)
  /-- `none` if an escape in the literal stands for no character. -/
  | str (text : Option String)
  | arr (items : List Json)
  | obj (members : List (Option String × Json))

namespace Json

def text (s : String) : Json := .str (some s)

def nat (n : Nat) : Json := .int n

def list {α : Type} (encode : α → Json) (items : List α) : Json := .arr (items.map encode)

def option {α : Type} (encode : α → Json) : Option α → Json
  | none => .null
  | some a => encode a

def record (members : List (String × Json)) : Json :=
  .obj (members.map fun m => (some m.1, m.2))

/-- An object with a single key, which tells the alternative that `payload` belongs to. -/
def tagged (tag : String) (payload : Json) : Json := record [(tag, payload)]

mutual

/-- How many arrays and objects nest at most. -/
def depth : Json → Nat
  | .arr items => depthItems items + 1
  | .obj members => depthMembers members + 1
  | _ => 0

def depthItems : List Json → Nat
  | [] => 0
  | j :: rest => max (depth j) (depthItems rest)

def depthMembers : List (Option String × Json) → Nat
  | [] => 0
  | (_, j) :: rest => max (depth j) (depthMembers rest)

end

end Json

end PacketC
