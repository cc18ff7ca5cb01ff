import PacketC.Text.Blank
import PacketC.Text.Lines

/-! Generated text together with the code that has to run before and after it. -/

namespace PacketC

/-- One piece of code below the other, without the blank pieces and the line feeds at the ends. -/
def stacked (pieces : List String) : String :=
  Text.unlines ((pieces.map Text.dropFinalBreaks).filter fun s => !Text.isBlank s)

inductive FragmentKind where
  | expression | statements
  deriving DecidableEq

structure Fragment where
  kind : FragmentKind
  pre : List String
  text : String
  post : List String
  deriving DecidableEq

namespace Fragment

def hasHoisted (f : Fragment) : Bool := !f.pre.isEmpty || !f.post.isEmpty

def pieces (f : Fragment) : List String := f.pre ++ f.text :: f.post

/-- Every line that is not blank, in the order of the code. -/
def lines (f : Fragment) : List String :=
  (f.pieces.flatMap Text.lines).filter fun s => !Text.isBlank s

def render (f : Fragment) : String := stacked f.pieces

end Fragment

end PacketC
