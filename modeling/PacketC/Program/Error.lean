import PacketC.Program.Handle

/-! What can be wrong with a program: with its arenas, with a name, or with the place it is kept. -/

namespace PacketC

inductive ProgramError where
  | danglingHandle (what : String)
  | missingName (what : String)
  | duplicateName (what : String)
  | malformedArena (what : String)
  /-- The text does not describe a program. -/
  | malformedText
  /-- The place where the program is kept cannot be read or written. -/
  | inaccessible
  deriving DecidableEq

namespace ProgramError

def message : ProgramError → String
  | .danglingHandle what => "Dangling handle: " ++ what
  | .missingName what => "Missing name: " ++ what
  | .duplicateName what => "Duplicate name: " ++ what
  | .malformedArena what => "Malformed arena: " ++ what
  | .malformedText => "Serialization error"
  | .inaccessible => "I/O error"

def dangling {arena : Arena} (h : Handle arena) : ProgramError := .danglingHandle h.description

end ProgramError

end PacketC
