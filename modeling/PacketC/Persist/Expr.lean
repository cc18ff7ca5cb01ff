import PacketC.Persist.Limbs
import PacketC.Persist.Ty
import PacketC.Program.Expr

/-! The persisted form of expressions. -/

namespace PacketC

/-! ### Operators -/

def UnaryOp.all : List UnaryOp := [.neg, .cmpl, .lnot]

def BinaryOp.all : List BinaryOp :=
  [.add, .sub, .addSat, .subSat, .mul, .div, .mod, .shl, .shr, .grt, .geq, .lss, .leq, .equ, .neq,
    .band, .bor, .bxor, .land, .lor]

def UnaryOp.toJson (op : UnaryOp) : Json := .text op.name

def UnaryOp.ofJson : Decoder UnaryOp :=
  Decoder.alternative (UnaryOp.all.map fun op => (op.name, op))

def BinaryOp.toJson (op : BinaryOp) : Json := .text op.name

def BinaryOp.ofJson : Decoder BinaryOp :=
  Decoder.alternative (BinaryOp.all.map fun op => (op.name, op))

/-! ### Parts of nodes -/

def FieldRef.toJson (r : FieldRef) : Json :=
  .record [("instance", r.header.toJson), ("field", .nat r.field.toNat)]

def FieldRef.ofJson : Decoder FieldRef := fun d j => do
  let r ← Decoder.fields ["instance", "field"] d j
  return ⟨← r.need "instance" Handle.ofJson, ← r.need "field" Decoder.uint64⟩

def Path.toJson (p : Path) : Json :=
  .record [("name", .text p.name), ("decl", .option Handle.toJson p.decl),
    ("absolute", .bool p.absolute)]

def Path.ofJson : Decoder Path := fun d j => do
  let r ← Decoder.fields ["name", "decl", "absolute"] d j
  return ⟨← r.need "name" Decoder.string, ← r.may "decl" Handle.ofJson,
    ← r.need "absolute" Decoder.bool⟩

def Member.toJson (m : Member) : Json :=
  .record [("base", m.base.toJson), ("member", .text m.member),
    ("header", .option Handle.toJson m.header), ("field", .option FieldRef.toJson m.field)]

def Member.ofJson : Decoder Member := fun d j => do
  let r ← Decoder.fields ["base", "member", "header", "field"] d j
  return ⟨← r.need "base" Handle.ofJson, ← r.need "member" Decoder.string,
    ← r.may "header" Handle.ofJson, ← r.may "field" FieldRef.ofJson⟩

def Component.toJson (c : Component) : Json :=
  .record [("name", .text c.name), ("value", c.value.toJson)]

def Component.ofJson : Decoder Component := fun d j => do
  let r ← Decoder.fields ["name", "value"] d j
  return ⟨← r.need "name" Decoder.string, ← r.need "value" Handle.ofJson⟩

def SelectArm.toJson (c : SelectArm) : Json :=
  .record [("keyset", c.keyset.toJson), ("state", .text c.state)]

def SelectArm.ofJson : Decoder SelectArm := fun d j => do
  let r ← Decoder.fields ["keyset", "state"] d j
  return ⟨← r.need "keyset" Handle.ofJson, ← r.need "state" Decoder.string⟩

def Call.toJson (c : Call) : Json :=
  .record [("method", c.method.toJson), ("type_args", .list Ty.toJson c.typeArgs),
    ("args", .list Handle.toJson c.args)]

def Call.ofJson : Decoder Call := fun d j => do
  let r ← Decoder.fields ["method", "type_args", "args"] d j
  return ⟨← r.need "method" Handle.ofJson, ← r.need "type_args" (Decoder.list Ty.ofJson),
    ← r.need "args" (Decoder.list Handle.ofJson)⟩

/-! ### Nodes -/

namespace Node

def toJson : Node → Json
  | .constant value base =>
    .tagged "Constant" (.record [("value", Limbs.toJson value), ("base", .nat base.toNat)])
  | .bool value => .tagged "Bool" (.bool value)
  | .str value => .tagged "Str" (.text value)
  | .default => .text "Default"
  | .path p => .tagged "Path" p.toJson
  | .member m => .tagged "Member" m.toJson
  | .unary op operand =>
    .tagged "Unary" (.record [("op", op.toJson), ("operand", operand.toJson)])
  | .binary op left right =>
    .tagged "Binary"
      (.record [("op", op.toJson), ("left", left.toJson), ("right", right.toJson)])
  | .mux cond ifTrue ifFalse =>
    .tagged "Mux"
      (.record [("cond", cond.toJson), ("if_true", ifTrue.toJson), ("if_false", ifFalse.toJson)])
  | .slice base hi lo =>
    .tagged "Slice" (.record [("base", base.toJson), ("hi", .nat hi.toNat), ("lo", .nat lo.toNat)])
  | .concat left right =>
    .tagged "Concat" (.record [("left", left.toJson), ("right", right.toJson)])
  | .cast dest operand =>
    .tagged "Cast" (.record [("dest", dest.toJson), ("operand", operand.toJson)])
  | .list items => .tagged "List" (.list Handle.toJson items)
  | .structInit components => .tagged "StructInit" (.list Component.toJson components)
  | .select keys cases =>
    .tagged "Select"
      (.record [("keys", .list Handle.toJson keys), ("cases", .list SelectArm.toJson cases)])
  | .mask value m => .tagged "Mask" (.record [("value", value.toJson), ("mask", m.toJson)])
  | .range low high => .tagged "Range" (.record [("low", low.toJson), ("high", high.toJson)])
  | .call c => .tagged "MethodCall" c.toJson
  | .typeName ty => .tagged "TypeName" ty.toJson

/-- The node with the given tag. -/
def ofPayload (tag : String) (d : Nat) (payload : Json) : Option Node :=
  match tag with
  | "Constant" => do
    let r ← Decoder.fields ["value", "base"] d payload
    return .constant (← r.need "value" Limbs.ofJson) (← r.need "base" Decoder.uint32)
  | "Bool" => (Decoder.bool d payload).map .bool
  | "Str" => (Decoder.string d payload).map .str
  | "Path" => (Path.ofJson d payload).map .path
  | "Member" => (Member.ofJson d payload).map .member
  | "Unary" => do
    let r ← Decoder.fields ["op", "operand"] d payload
    return .unary (← r.need "op" UnaryOp.ofJson) (← r.need "operand" Handle.ofJson)
  | "Binary" => do
    let r ← Decoder.fields ["op", "left", "right"] d payload
    return .binary (← r.need "op" BinaryOp.ofJson) (← r.need "left" Handle.ofJson)
      (← r.need "right" Handle.ofJson)
  | "Mux" => do
    let r ← Decoder.fields ["cond", "if_true", "if_false"] d payload
    return .mux (← r.need "cond" Handle.ofJson) (← r.need "if_true" Handle.ofJson)
      (← r.need "if_false" Handle.ofJson)
  | "Slice" => do
    let r ← Decoder.fields ["base", "hi", "lo"] d payload
    return .slice (← r.need "base" Handle.ofJson) (← r.need "hi" Decoder.uint32)
      (← r.need "lo" Decoder.uint32)
  | "Concat" => do
    let r ← Decoder.fields ["left", "right"] d payload
    return .concat (← r.need "left" Handle.ofJson) (← r.need "right" Handle.ofJson)
  | "Cast" => do
    let r ← Decoder.fields ["dest", "operand"] d payload
    return .cast (← r.need "dest" Ty.ofJson) (← r.need "operand" Handle.ofJson)
  | "List" => (Decoder.list Handle.ofJson d payload).map .list
  | "StructInit" => (Decoder.list Component.ofJson d payload).map .structInit
  | "Select" => do
    let r ← Decoder.fields ["keys", "cases"] d payload
    return .select (← r.need "keys" (Decoder.list Handle.ofJson))
      (← r.need "cases" (Decoder.list SelectArm.ofJson))
  | "Mask" => do
    let r ← Decoder.fields ["value", "mask"] d payload
    return .mask (← r.need "value" Handle.ofJson) (← r.need "mask" Handle.ofJson)
  | "Range" => do
    let r ← Decoder.fields ["low", "high"] d payload
    return .range (← r.need "low" Handle.ofJson) (← r.need "high" Handle.ofJson)
  | "MethodCall" => (Call.ofJson d payload).map .call
  | "TypeName" => (Ty.ofJson d payload).map .typeName
  | _ => none

def ofJson : Decoder Node
  | _, .str (some "Default") => some .default
  | _ + 1, .obj [(some "Default", .null)] => some .default
  | d + 1, .obj [(some tag, payload)] => ofPayload tag d payload
  | _, _ => none

end Node

def Expr.toJson (e : Expr) : Json :=
  .record [("id", e.id.toJson), ("ty", e.ty.toJson), ("kind", e.node.toJson)]

def Expr.ofJson : Decoder Expr := fun d j => do
  let r ← Decoder.fields ["id", "ty", "kind"] d j
  return ⟨← r.need "id" Handle.ofJson, ← r.need "ty" Ty.ofJson, ← r.need "kind" Node.ofJson⟩

end PacketC
