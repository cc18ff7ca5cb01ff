import PacketC.Lower.Expr

/-! Assignments. The left side decides: a field of a header is stored in the packet, a header is
copied as a whole, and anything else is assigned or copied in place. -/

namespace PacketC.Lower

/-! ### Fields of at most 32 bits -/

def shortFieldTrace (l : PacketField) : String :=
  s!"debug(\"       : \" T4LIT({l.header},header) \".\" T4LIT({l.field},field) \"/\" T4LIT(%d) " ++
    s!"\" = \" T4LIT(%d,bytes) \"\\n\", {l.width}, {packetValue l});"

/-- The lines before the store, and the value to store. A name that is not a scalar is copied. -/
def shortFieldValue (recur : Recur) (l : PacketField) (src : Expr) :
    LowerM (List String × String) := do
  match if src.ty.isPrimitive then none else src.path? with
  | some path =>
    let name ← freshName "value32"
    let storage ← addressedPath path
    return ([s!"uint32_t {name};", s!"memcpy(&{name}, {storage}, {l.bytes});"], name)
  | none => return ([], ← recur src.id .expanded)

def storeScalar (recur : Recur) (l : PacketField) (src : Expr) : LowerM String := do
  let (before, value) ← shortFieldValue recur l src
  let trace := if ← traces then [shortFieldTrace l] else []
  return Text.unlines (before ++ setField l value :: trace)

/-! ### Wider fields -/

/-- The bytes to store: an expression for where they are, and one for their number. -/
structure ByteSource where
  buffer : String
  bytes : String

/-- The number of bytes of a field whose width does not vary, or else the given text. -/
def fieldBytes (l : PacketField) (varying : String) : String :=
  if l.isVarWidth then varying else toString l.bytes

/-- The bytes of a member: a field of the packet, or of a header kept by the parser. -/
def memberSource (recur : Recur) (l : PacketField) (src : Expr) (m : Member) :
    LowerM ByteSource := do
  let buffer ← nameOf "value" src.id
  match m.field with
  | some ref =>
    let s ← look (Program.packetField ref)
    hoist (packetBuffer s buffer l.bytes)
    return ⟨buffer, fieldBytes l s!"(pd->headers[{s.headerId}].var_width_field_bitwidth/8)"⟩
  | none =>
    let base ← look (·.expr m.base)
    match base.path? with
    | some path =>
      let id ← ask fun p => Target.fieldId ((p.typeName? base.ty).getD path.name) m.member
      hoist (s!"uint8_t {buffer}[{l.bytes}];\n" ++
        s!"EXTRACT_BYTEBUF_BUFFER(pstate->{path.name}, pstate->{path.name}_var, {id}, {buffer});")
      return ⟨buffer, fieldBytes l s!"(pstate->{path.name}_var/8)"⟩
    | none => return ⟨← recur src.id .expanded, toString l.bytes⟩

/-- The bytes of anything but such a member. -/
def plainSource (recur : Recur) (l : PacketField) (src : Expr) : LowerM ByteSource := do
  match src.node with
  | .path path => return ⟨← addressedPath path, toString l.bytes⟩
  | .constant value base =>
    let buffer ← nameOf "value" src.id
    hoist s!"uint8_t {buffer}[{l.bytes}] = {Literal.byteArray base.toNat value l.bytes};"
    return ⟨buffer, toString l.bytes⟩
  | _ => return ⟨← recur src.id .expanded, toString l.bytes⟩

def byteSource (recur : Recur) (l : PacketField) (src : Expr) : LowerM ByteSource :=
  match src.member? with
  | some m =>
    if m.field.isSome || m.header.isNone then memberSource recur l src m
    else plainSource recur l src
  | none => plainSource recur l src

/-- A field of variable width sets the length of its header. -/
def lengthLines (l : PacketField) : List String :=
  if l.isVarWidth then
    let fixed := l.headerBitWidth - l.width
    [s!"pd->headers[{l.headerId}].var_width_field_bitwidth = get_var_width_bitwidth(pstate);",
      s!"pd->headers[{l.headerId}].length = " ++
        s!"({fixed} + pd->headers[{l.headerId}].var_width_field_bitwidth)/8;"]
  else []

def wideFieldTrace (l : PacketField) (s : ByteSource) : String :=
  s!"dbg_bytes({s.buffer}, {s.bytes}, \"       : \" T4LIT({l.header},header) \".\" " ++
    s!"T4LIT({l.field},field) \" = \");"

def storeBytes (recur : Recur) (l : PacketField) (src : Expr) : LowerM String := do
  let s ← byteSource recur l src
  let trace := if ← traces then [wideFieldTrace l s] else []
  return Text.unlines (lengthLines l ++ modifyField l s.buffer s.bytes :: trace)

/-! ### Headers and variables -/

def copiedHeaderTrace (dst src : String) : String :=
  s!"dbg_bytes(pd->headers[{dst}].pointer, header_instance_byte_width[{src}], " ++
    s!"\"Copied %02d bytes from {src} to {dst}: \", header_instance_byte_width[{src}]);"

def copyHeader (recur : Recur) (dst src : Expr) : LowerM String := do
  let d ← headerSlot recur dst .value
  let s ← headerSlot recur src .value
  let copy := s!"memcpy(pd->headers[{d}].pointer, pd->headers[{s}].pointer, " ++
    s!"header_instance_byte_width[{s}]);"
  let trace := if ← traces then [copiedHeaderTrace d s] else []
  return Text.unlines (copy :: trace)

/-- The width of a source that fits a scalar. -/
def scalarWidth? : Ty → Option Nat
  | .bits width _ => if width.toNat ≤ 32 then some width.toNat else none
  | _ => none

def storeVariable (recur : Recur) (dst src : Expr) : LowerM String := do
  let d ← recur dst.id .value
  let s ← recur src.id .expanded
  match scalarWidth? src.ty with
  | some width =>
    let type ← typeText dst.ty
    if width = 8 ∨ width = 32 then
      let trace :=
        s!"debug(\"       : \" T4LIT({d},header) \" = \" T4LIT(%d,bytes) \"\\n\", {d});"
      return Text.unlines
        (s!"{d} = ({type})({s});" :: if ← traces then [trace] else [])
    else
      let name ← freshName "var"
      return s!"{type} {name} = {s};\n{d} = {name};"
  | none =>
    let bytes := byteCount (dst.ty.width.getD 0)
    let trace :=
      s!"dbg_bytes(&({s}), {bytes}, \"Copied \" T4LIT(%02d) \" bytes from {s} to {d}: \", {bytes});"
    return Text.unlines
      (s!"memcpy(&({d}), &({s}), {bytes});" :: if ← traces then [trace] else [])

def assign (recur : Recur) (left right : ExprId) : LowerM String := do
  let dst ← look (·.expr left)
  let src ← look (·.expr right)
  match dst.fieldRef? with
  | some ref =>
    let l ← look (Program.packetField ref)
    if l.width ≤ 32 then storeScalar recur l src else storeBytes recur l src
  | none =>
    if dst.headerRef?.isSome || (← ask fun p => isHeaderTy p dst.ty) then
      copyHeader recur dst src
    else if dst.ty.isBits then storeVariable recur dst src
    else
      let d ← recur left .value
      let s ← recur right .expanded
      return s!"{d} = {s};"

end PacketC.Lower
