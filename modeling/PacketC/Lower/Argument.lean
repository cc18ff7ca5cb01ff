import PacketC.Lower.FieldAccess

/-! Arguments of calls to external objects. A field that the callee may change is passed through a
variable, which is written back after the statement. -/

namespace PacketC.Lower

def externalStage : String := "generating extern method call"

/-- An argument that is not written back. -/
def plainArgument (recur : Recur) (arg : ExprId) (param : Param) : LowerM String := do
  let address := if param.direction ≠ .into ∧ !param.ty.isBits then "&" else ""
  return address ++ (← recur arg .expanded)

/-- A field of at most 32 bits, passed by the address of a scalar. -/
def scalarArgument (ref : FieldRef) (l : PacketField) (name : String) (unit : Nat)
    (param : Param) : LowerM String := do
  hoist s!"uint{unit}_t {name};"
  if param.direction = .inOut then
    let value ← fieldText ref .value
    hoist s!"{name} = {value};"
  defer (setField l name)
  return "&" ++ name

/-- A wider field, passed in a buffer. -/
def bufferArgument (l : PacketField) (name : String) (param : Param) : LowerM String := do
  hoist s!"uint8_t {name}[{l.bytes}];"
  if param.direction = .inOut then hoist (extractPacket l l.fieldId name)
  defer (modifyField l name (toString l.bytes))
  return name

def argument (recur : Recur) (arg : ExprId) (param : Param) : LowerM String := do
  let a ← look (·.expr arg)
  match if param.direction.writesBack then a.fieldRef? else none with
  | none => plainArgument recur arg param
  | some ref =>
    let l ← look (Program.packetField ref)
    let name ← nameOf "value" arg
    match (Container.ofWidth l.width).bits? with
    | some unit => scalarArgument ref l name unit param
    | none => bufferArgument l name param

/-- Where the value of an argument is stored, for an argument that is passed unasked. -/
def storageOf (arg : ExprId) (owner : String) : LowerM String := do
  let a ← look (·.expr arg)
  match a.node with
  | .path path => return owner ++ path.name
  | .member m => return owner ++ m.member
  | other =>
    report .unsupportedConstruct externalStage
      s!"Cannot take the storage of a {other.name} argument"
    return ""

/-! ### Payloads -/

/-- The type of the variable that holds a payload. -/
def payloadType (a : Expr) (receiverArgs : List Ty) : LowerM String := do
  if a.ty.isBits || a.isConstant || isStruct a.ty then typeText a.ty
  else
    match ← ask fun p => receiverArgs.head?.bind p.typeName? with
    | some name => return name
    | none =>
      warn externalStage s!"Unexpected payload type {a.ty.text} in extern call"
      return "int/*temporarily inserted for unknown type*/"
where
  isStruct : Ty → Bool
    | .struct _ => true
    | _ => false

def bytesTrace (target : String) (f : Field) (label : String) : String :=
  s!"dbg_bytes(&({target}.{f.name}), ({f.size}+7)/8, \"       : \" {label} \" = \");"

/-- A field of a struct whose value has no initializer is copied from the packet. -/
def payloadField (target : String) (f : Field) (component : Component) : LowerM Unit := do
  let c ← look (·.expr component.value)
  if f.size ≤ 32 then
    if ← traces then hoist (bytesTrace target f s!"T4LIT({component.name},field)")
  else
    match c.fieldRef? with
    | none => return ()
    | some ref =>
      let l ← look (Program.packetField ref)
      hoist (extractPacket l l.fieldInstance s!"&({target}.{f.name})")
      if ← traces then
        hoist (bytesTrace target f s!"T4LIT({l.header},header) \".\" T4LIT({l.field},field)")

/-- Fills in the members of a struct that is written out. -/
def payloadMembers (target : String) (a : Expr) : LowerM Unit := do
  match a.ty, a.node with
  | .struct id, .structInit components =>
    let t ← look (·.typeDecl id)
    (t.fields.zip components).forM fun (f, component) => payloadField target f component
  | _, _ => return ()

/-- Copies the first argument into the storage of the receiver, and gives its type. -/
def payload (recur : Recur) (arg : ExprId) (param : Param) (storage : String)
    (receiverArgs : List Ty) : LowerM String := do
  let a ← look (·.expr arg)
  let type ← payloadType a receiverArgs
  let name ← freshName "var"
  let value ← argument recur arg param
  hoist s!"{type} {name} = {value};"
  payloadMembers name a
  hoist s!"memcpy(&({storage}), &{name}, sizeof({type}));"
  return type

end PacketC.Lower
