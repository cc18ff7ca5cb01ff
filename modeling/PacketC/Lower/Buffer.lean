import PacketC.Lower.FieldSpan
import PacketC.Lower.Monad
import PacketC.Target.Names
import PacketC.Text.Lines

/-! Lists of fields, which are copied into one buffer, a run of neighbours at a time. -/

namespace PacketC

/-- A number of bits, of which a part is known only when the code runs. -/
structure BitCount where
  fixed : UInt32
  dynamic : List String
  deriving DecidableEq

namespace BitCount

def empty : BitCount := ⟨0, []⟩

def add (a b : BitCount) : BitCount := ⟨a.fixed + b.fixed, a.dynamic ++ b.dynamic⟩

/-- The bits of a field under the given name. -/
def ofField (name : String) (f : Field) : BitCount :=
  if f.isVarWidth then ⟨0, [s!"field_desc(pd, {name}).bitwidth"]⟩ else ⟨.ofNat f.size, []⟩

/-- The number of bytes, as an expression. -/
def bytes (s : BitCount) : String :=
  if s.dynamic.isEmpty then toString (byteCount s.fixed.toNat)
  else
    let known := if 0 < s.fixed then [toString s.fixed.toNat] else []
    "(" ++ String.intercalate "+" (known ++ s.dynamic) ++ "+7)/8"

end BitCount

namespace Lower

/-- The fields among the items. Constants are left out, and the rest is left out with a warning. -/
def listFields : List ExprId → LowerM (List FieldRef)
  | [] => return []
  | item :: rest => do
    let e ← look (·.expr item)
    match e.fieldRef? with
    | some ref => return ref :: (← listFields rest)
    | none =>
      if !e.isConstant then
        warn "generating list expression buffer"
          s!"Skipping not supported list element {e.node.name}"
      listFields rest

/-- The fields of a run with their names. -/
def runFields (run : FieldSpan) : LowerM (List (String × Field)) := do
  let header ← look (·.header run.header)
  run.fields.mapM fun index => do
    let field ← look (·.field ⟨run.header, index⟩)
    return (Target.fieldInstance header.name field.name, field)

/-- A copy for each run, and the bits that all of them take after `offset`. -/
def copyRuns (buffer : String) : BitCount → List FieldSpan → LowerM (List String × BitCount)
  | offset, [] => return ([], offset)
  | offset, run :: rest => do
    match ← runFields run with
    | [] => copyRuns buffer offset rest
    | (first, field) :: others =>
      let width :=
        others.foldl (fun span f => span.add (.ofField f.1 f.2)) (.ofField first field)
      let copy :=
        s!"memcpy({buffer} + {offset.bytes}, field_desc(pd, {first}).byte_addr, {width.bytes});"
      let (copies, total) ← copyRuns buffer (offset.add width) rest
      return (copy :: copies, total)

def bufferCode (items : List ExprId) (buffer : String) : LowerM String := do
  let refs ← listFields items
  let (copies, total) ← copyRuns buffer .empty (FieldSpan.partition refs)
  return Text.unlines
    (s!"int {buffer}_size = {total.bytes};" :: s!"uint8_t {buffer}[{buffer}_size];" :: copies)

/-- The buffer is assembled where the list is met first. -/
def bufferText (id : ExprId) (items : List ExprId) : LowerM String := do
  let name ← nameOf "buffer" id
  if ← firstTime id then
    hoist (← bufferCode items name)
  return s!"(struct uint8_buffer_s) \x7b .buffer = {name}, .buffer_size = {name}_size \x7d"

end Lower

end PacketC
