import PacketC.Text.Blank
import PacketC.Text.Lines

/-! Code laid out line by line, each line at the depth of the body it belongs to. -/

namespace PacketC

inductive Indentation where
  | spaces (count : UInt64)
  | tabs
  deriving DecidableEq

/-- What a line is moved by for each level. -/
def Indentation.unit : Indentation → String
  | .spaces count => String.ofList (List.replicate count.toNat ' ')
  | .tabs => "\t"

structure Layout where
  lines : List String
  level : Nat
  unit : String

namespace Layout

def empty (style : Indentation) : Layout := ⟨[], 0, style.unit⟩

def indent (l : Layout) : Layout := { l with level := l.level + 1 }

/-- The outermost level has none around it. -/
def dedent (l : Layout) : Layout := { l with level := l.level - 1 }

def margin (l : Layout) : String := String.join (List.replicate l.level l.unit)

def line (s : String) (l : Layout) : Layout := { l with lines := l.lines ++ [l.margin ++ s] }

def linesOf (ss : List String) (l : Layout) : Layout := ss.foldl (fun l s => l.line s) l

/-- The lines of a text, but for the blank ones. -/
def text (s : String) (l : Layout) : Layout :=
  l.linesOf ((Text.lines s).filter fun s => !Text.isBlank s)

def openBlock (head : String) (l : Layout) : Layout := (l.line (head ++ " \x7b")).indent

def closeBlock (l : Layout) : Layout := l.dedent.line "\x7d"

/-- A body one level deeper, in braces after its head. -/
def block (head : String) (body : Layout → Layout) (l : Layout) : Layout :=
  (body (l.openBlock head)).closeBlock

def isEmpty (l : Layout) : Bool := l.lines.isEmpty

def finish (l : Layout) : String := Text.unlines l.lines

end Layout

end PacketC
