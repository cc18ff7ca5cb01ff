import PacketC.Persist.Program

/-! Keeping programs in a place that can be read and written, such as a file. -/

namespace PacketC

/-- Access to one place: reading gives its text, writing tells whether the text was stored. -/
structure Storage (m : Type → Type) where
  read : m (Option String)
  write : String → m Bool

namespace Program

variable {m : Type → Type} [Monad m]

def save (place : Storage m) (p : Program) : m (Except ProgramError Unit) := do
  return if ← place.write p.render then .ok () else .error .inaccessible

def load (place : Storage m) : m (Except ProgramError Program) := do
  match ← place.read with
  | some text => return read text
  | none => return .error .inaccessible

end Program

end PacketC
