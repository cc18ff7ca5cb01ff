import PacketC.Lower.Monad
import PacketC.Target.Names

/-! Fields of headers: where they live in the packet, and the code that reads them. -/

namespace PacketC

/-- Where a field of a header or of metadata lives. -/
structure PacketField where
  header : String
  /-- The identifier of the header; all metadata share one. -/
  headerId : String
  typeName : String
  field : String
  width : Nat
  isVarWidth : Bool
  /-- The width of the whole header, with its widest variable fields. -/
  headerBitWidth : Nat

namespace PacketField

def fieldId (l : PacketField) : String := Target.fieldId l.typeName l.field

def fieldInstance (l : PacketField) : String := Target.fieldInstance l.header l.field

def bytes (l : PacketField) : Nat := byteCount l.width

end PacketField

def Program.packetField (ref : FieldRef) (p : Program) : Except ProgramError PacketField := do
  let header ← p.header ref.header
  let type ← p.typeDecl header.headerType
  let field ← p.field ref
  return {
    header := header.name
    headerId :=
      if header.isMetadata then Target.allMetadata else Target.headerInstance header.name
    typeName := type.name
    field := field.name
    width := field.size
    isVarWidth := field.isVarWidth
    headerBitWidth := type.bitWidth }

namespace Lower

/-- Copies a field of the packet into a buffer. -/
def extractPacket (l : PacketField) (fieldName buffer : String) : String :=
  s!"EXTRACT_BYTEBUF_PACKET(pd, {l.headerId}, {fieldName}, {buffer});"

/-- A buffer of the given size, filled from a field of the packet. -/
def packetBuffer (l : PacketField) (buffer : String) (bytes : Nat) : String :=
  s!"uint8_t {buffer}[{bytes}];\n" ++ extractPacket l l.fieldId buffer

/-- The value of a field that fits a scalar. -/
def packetValue (l : PacketField) : String :=
  s!"(GET_INT32_AUTO_PACKET(pd, {l.headerId}, {l.fieldId}))"

/-- Stores a scalar in a field. -/
def setField (l : PacketField) (value : String) : String :=
  s!"set_field((fldT[])\x7b\x7bpd, {l.headerId}, {l.fieldId}\x7d\x7d, 0, {value}, {l.width});"

/-- Stores a buffer in a field. -/
def modifyField (l : PacketField) (buffer bytes : String) : String :=
  s!"MODIFY_BYTEBUF_BYTEBUF_PACKET(pd, {l.headerId}, {l.fieldId}, {buffer}, {bytes});"

/-- A field as a value, which takes a buffer above 32 bits, or by its name. -/
def fieldText (ref : FieldRef) (mode : Mode) : LowerM String := do
  let l ← look (Program.packetField ref)
  if !mode.asValue then return l.fieldInstance
  else if 32 < l.width then
    let name ← freshName (l.header ++ "_" ++ l.field)
    hoist (packetBuffer l name l.bytes)
    return name
  else return packetValue l

/-- A field of a header that is kept in the state of the parser. -/
def parserFieldText (p : Program) (path : Path) (ty : Ty) (field : String) : String :=
  let id := Target.fieldId ((p.typeName? ty).getD path.name) field
  s!"(GET_INT32_AUTO_BUFFER(pstate->{path.name},pstate->{path.name}_var, {id}))"

/-! ### Paths -/

def localStorage (name : String) : String := "local_vars->" ++ name

def parameterStorage (name : String) : String := "parameters." ++ name

def pathText (path : Path) (mode : Mode) : LowerM String := do
  match path.decl with
  | none => return path.name
  | some decl =>
    if ← isLocal decl then return localStorage path.name
    else if mode.expandParameters && !path.absolute then return parameterStorage path.name
    else return path.name

/-- What a path stands for where its address is taken. -/
def addressedPath (path : Path) : LowerM String := do
  match path.decl with
  | none => return parameterStorage path.name
  | some decl =>
    if ← isLocal decl then return localStorage path.name
    else return parameterStorage path.name

/-- The index of a header among the headers of the packet. -/
def headerSlot (recur : Recur) (e : Expr) (mode : Mode) : LowerM String := do
  match e.headerRef? with
  | some id => return Target.headerInstance (← look (·.header id)).name
  | none => recur e.id mode.child

end Lower

end PacketC
