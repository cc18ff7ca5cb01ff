/-! Code moved out of a statement. Each nested body has a frame of its own, so that what an
expression inside a body needs stays inside that body. -/

namespace PacketC

/-- What runs before and after one body. -/
structure Frame where
  pre : List String
  post : List String
  deriving DecidableEq

def Frame.empty : Frame := ⟨[], []⟩

/-- The frame of the innermost body and those around it, the nearest first. -/
structure Emission where
  current : Frame
  outer : List Frame
  deriving DecidableEq

namespace Emission

def empty : Emission := ⟨.empty, []⟩

def depth (e : Emission) : Nat := e.outer.length + 1

/-- Code to run before the body; the same code is taken once per frame. -/
def prepend (code : String) (e : Emission) : Emission :=
  if e.current.pre.contains code then e
  else { e with current := { e.current with pre := e.current.pre ++ [code] } }

/-- Code to run after the body. -/
def append (code : String) (e : Emission) : Emission :=
  { e with current := { e.current with post := e.current.post ++ [code] } }

def push (e : Emission) : Emission := ⟨.empty, e.current :: e.outer⟩

/-- The innermost frame, and the frames without it; the last one is emptied instead. -/
def pop (e : Emission) : Frame × Emission :=
  match e.outer with
  | [] => (e.current, empty)
  | frame :: outer => (e.current, ⟨frame, outer⟩)

/-- The code of all frames, the outermost first. -/
def gathered (e : Emission) : Frame :=
  let frames := (e.current :: e.outer).reverse
  ⟨frames.flatMap Frame.pre, frames.flatMap Frame.post⟩

/-- The code of all frames, and no frame but an empty one. -/
def drain (e : Emission) : Frame × Emission := (e.gathered, empty)

end Emission

end PacketC
