/-! Texts that stand for named types, in the order in which the names were first given one. -/

namespace PacketC

structure Aliases where
  entries : List (String × String)
  deriving DecidableEq

namespace Aliases

def empty : Aliases := ⟨[]⟩

def find? (a : Aliases) (name : String) : Option String := a.entries.lookup name

/-- A name that has a text already keeps its place. -/
def insertEntry (name text : String) : List (String × String) → List (String × String)
  | [] => [(name, text)]
  | (key, old) :: rest =>
    if key = name then (name, text) :: rest else (key, old) :: insertEntry name text rest

def insert (a : Aliases) (name text : String) : Aliases := ⟨insertEntry name text a.entries⟩

def erase (a : Aliases) (name : String) : Aliases :=
  ⟨a.entries.eraseP fun entry => entry.1 == name⟩

end Aliases

end PacketC
