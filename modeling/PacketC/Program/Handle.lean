/-! Handles: a program keeps its nodes in arenas, and one node refers to another by its place in
the arena. The arena is part of the handle's type, so a handle is looked up only where it
belongs. -/

namespace PacketC

inductive Arena where
  | expr | decl | type | header | block
  deriving DecidableEq

/-- What stands before the number in the written form of a handle. -/
def Arena.label : Arena → String
  | .expr => ""
  | .decl => "decl"
  | .type => "type"
  | .header => "hdr"
  | .block => "block"

structure Handle (arena : Arena) where
  val : UInt32
  deriving DecidableEq

abbrev ExprId := Handle .expr

abbrev DeclId := Handle .decl

abbrev TypeId := Handle .type

abbrev HeaderId := Handle .header

abbrev BlockId := Handle .block

namespace Handle

variable {arena : Arena}

def index (h : Handle arena) : Nat := h.val.toNat

def ofIndex (i : Nat) : Handle arena := ⟨UInt32.ofNat i⟩

theorem index_ofIndex {i : Nat} (h : i < UInt32.size) : (ofIndex i : Handle arena).index = i := by
  simp only [index, ofIndex, UInt32.toNat_ofNat']
  exact Nat.mod_eq_of_lt h

@[ext]
theorem ext_index {a b : Handle arena} (h : a.index = b.index) : a = b := by
  cases a; cases b
  exact congrArg Handle.mk (UInt32.toNat_inj.1 h)

def text (h : Handle arena) : String := arena.label ++ toString h.index

/-- The handle as an error names it. -/
def description (h : Handle arena) : String :=
  match arena with
  | .expr => "expression " ++ h.text
  | _ => h.text

end Handle

end PacketC
