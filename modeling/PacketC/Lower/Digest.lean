import PacketC.Lower.FieldAccess
import PacketC.Text.Lines

/-! Digests: values of fields that are sent to the control plane. -/

namespace PacketC.Lower

/-- A digest by the name of its type, where it goes, and the fields that it carries. -/
structure Digest where
  name : String
  receiver : String
  fields : List PacketField

namespace Digest

def typeName (p : Program) : List Ty → Except LowerError String
  | [] => .error (.invalidArity "digest needs the digest type as its type argument")
  | ty :: _ => .ok ((p.typeName? ty).getD ty.text)

/-- The receiver and the fields among the arguments. -/
def arguments : List ExprId → Except LowerError (ExprId × ExprId)
  | [receiver, fields] => .ok (receiver, fields)
  | args =>
    .error (.invalidArity
      s!"digest takes a receiver and a field list, got {args.length} arguments")

/-- The expressions that are to be sent. -/
def items (p : Program) (fields : ExprId) : Except ProgramError (List ExprId) := do
  match (← p.expr fields).node with
  | .list items => return items
  | .structInit components => return components.map Component.value
  | _ => return [fields]

/-- Where the items live; what is not a field is reported and left out. -/
def packetFields : List ExprId → LowerM (List PacketField)
  | [] => return []
  | item :: rest => do
    let e ← look (·.expr item)
    match e.fieldRef? with
    | some ref =>
      let f ← look (Program.packetField ref)
      return f :: (← packetFields rest)
    | none =>
      report .unsupportedConstruct "generating digest"
        s!"Digest field of kind {e.node.name} is not supported"
      packetFields rest

def ofCall (recur : Recur) (call : Call) : LowerM Digest := do
  let name ← resolve fun p => typeName p call.typeArgs
  let (receiver, fields) ← resolve fun _ => arguments call.args
  let receiver ← recur receiver .value
  let items ← look fun p => items p fields
  return ⟨name, receiver, ← packetFields items⟩

def sendingTrace (receiver : String) : String :=
  "debug(\"    \" T4LIT(<,outgoing) \" \" T4LIT(Sending digest,outgoing) \" to port \" " ++
    s!"T4LIT(%d,port) \"\\n\", {receiver});"

def fieldTrace (f : PacketField) : String :=
  s!"dbg_bytes(field_desc(pd, {f.fieldInstance}).byte_addr, ({f.width}+7)/8, " ++
    s!"\"        : \"T4LIT({f.field},field)\"/\"T4LIT({f.width})\" = \");"

/-- What comes before a digest: the guard, and the traces if they are asked for. -/
def announce (d : Digest) : LowerM Unit := do
  hoist Target.controlPlaneGuard
  if ← traces then
    hoist (sendingTrace d.receiver)
    d.fields.forM fun f => hoist (fieldTrace f)

/-- The control plane is given time to take the digest. -/
def settle : LowerM Unit := do
  let millis := (← config).digestSleepMillis.toNat
  defer s!"sleep_millis({millis});"

/-! ### As a statement -/

/-- The fields in a list with the given name. -/
def listLines (list : String) (fields : List PacketField) : List String :=
  [s!"struct type_field_list {list};", s!"{list}.fields_quantity = {fields.length};",
    s!"{list}.field_offsets = malloc(sizeof(uint8_t*)*{list}.fields_quantity);",
    s!"{list}.field_widths = malloc(sizeof(uint8_t*)*{list}.fields_quantity);"] ++
  fields.zipIdx.flatMap fun (f, i) =>
    [s!"{list}.field_offsets[{i}] = (uint8_t*) field_desc(pd, {f.fieldInstance}).byte_addr;",
      s!"{list}.field_widths[{i}]  =            field_desc(pd, {f.fieldInstance}).bitwidth;"]

def statementText (recur : Recur) (id : ExprId) (call : Call) : LowerM String := do
  let d ← ofCall recur call
  let list ← nameOf "digest_fields" id
  d.announce
  hoist (Text.unlines (listLines list d.fields))
  settle
  return s!"generate_digest(bg,\"{d.name}\",{d.receiver},&{list});"

/-! ### Within an expression -/

/-- The fields added one by one to a digest with the given name. -/
def additionLines (digest : String) (d : Digest) : List String :=
  s!"ctrl_plane_digest {digest} = create_digest(bg, \"{d.name}\");" ::
    d.fields.map fun f =>
      s!"add_digest_field({digest}, field_desc(pd, {f.fieldInstance}).byte_addr, {f.width});"

def expressionText (recur : Recur) (id : ExprId) (call : Call) : LowerM String := do
  let d ← ofCall recur call
  let digest ← nameOf "digest" id
  d.announce
  hoist (Text.unlines (additionLines digest d))
  settle
  return s!"send_digest(bg, {digest}, {d.receiver})"

end Digest

end PacketC.Lower
