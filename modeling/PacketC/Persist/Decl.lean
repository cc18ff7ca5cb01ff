import PacketC.Persist.Ty
import PacketC.Program.Decl

/-! The persisted form of declarations, header instances and blocks. -/

namespace PacketC

/-! ### Declarations of types -/

def Field.toJson (f : Field) : Json := .record [("name", .text f.name), ("ty", f.ty.toJson)]

def Field.ofJson : Decoder Field := fun d j => do
  let r ← Decoder.fields ["name", "ty"] d j
  return ⟨← r.need "name" Decoder.string, ← r.need "ty" Ty.ofJson⟩

def EnumMember.toJson (m : EnumMember) : Json :=
  .record [("name", .text m.name), ("c_name", .text m.cName)]

def EnumMember.ofJson : Decoder EnumMember := fun d j => do
  let r ← Decoder.fields ["name", "c_name"] d j
  return ⟨← r.need "name" Decoder.string, ← r.need "c_name" Decoder.string⟩

def Direction.tag : Direction → String
  | .none => "None"
  | .into => "In"
  | .out => "Out"
  | .inOut => "InOut"

def Direction.toJson (d : Direction) : Json := .text d.tag

def Direction.ofJson : Decoder Direction :=
  Decoder.alternative [("None", .none), ("In", .into), ("Out", .out), ("InOut", .inOut)]

def Param.toJson (p : Param) : Json :=
  .record [("name", .text p.name), ("direction", p.direction.toJson), ("ty", p.ty.toJson)]

def Param.ofJson : Decoder Param := fun d j => do
  let r ← Decoder.fields ["name", "direction", "ty"] d j
  return ⟨← r.need "name" Decoder.string, ← r.need "direction" Direction.ofJson,
    ← r.need "ty" Ty.ofJson⟩

def Signature.toJson (s : Signature) : Json :=
  .record [("name", .text s.name), ("type_params", .list .text s.typeParams),
    ("params", .list Param.toJson s.params), ("return_type", s.returnType.toJson)]

def Signature.ofJson : Decoder Signature := fun d j => do
  let r ← Decoder.fields ["name", "type_params", "params", "return_type"] d j
  return ⟨← r.need "name" Decoder.string, ← r.need "type_params" (Decoder.list Decoder.string),
    ← r.need "params" (Decoder.list Param.ofJson), ← r.need "return_type" Ty.ofJson⟩

namespace TypeBody

def toJson : TypeBody → Json
  | .header fields => .tagged "Header" (.record [("fields", .list Field.toJson fields)])
  | .struct fields isMetadata =>
    .tagged "Struct"
      (.record [("fields", .list Field.toJson fields), ("is_metadata", .bool isMetadata)])
  | .enum cName members =>
    .tagged "Enum"
      (.record [("c_name", .text cName), ("members", .list EnumMember.toJson members)])
  | .error cName members =>
    .tagged "Error"
      (.record [("c_name", .text cName), ("members", .list EnumMember.toJson members)])
  | .external typeParams methods =>
    .tagged "Extern"
      (.record [("type_params", .list .text typeParams),
        ("methods", .list Signature.toJson methods)])

def ofJson : Decoder TypeBody
  | d + 1, .obj [(some tag, payload)] =>
    match tag with
    | "Header" => do
      let r ← Decoder.fields ["fields"] d payload
      return .header (← r.need "fields" (Decoder.list Field.ofJson))
    | "Struct" => do
      let r ← Decoder.fields ["fields", "is_metadata"] d payload
      return .struct (← r.need "fields" (Decoder.list Field.ofJson))
        (← r.need "is_metadata" Decoder.bool)
    | "Enum" => do
      let r ← Decoder.fields ["c_name", "members"] d payload
      return .enum (← r.need "c_name" Decoder.string)
        (← r.need "members" (Decoder.list EnumMember.ofJson))
    | "Error" => do
      let r ← Decoder.fields ["c_name", "members"] d payload
      return .error (← r.need "c_name" Decoder.string)
        (← r.need "members" (Decoder.list EnumMember.ofJson))
    | "Extern" => do
      let r ← Decoder.fields ["type_params", "methods"] d payload
      return .external (← r.need "type_params" (Decoder.list Decoder.string))
        (← r.need "methods" (Decoder.list Signature.ofJson))
    | _ => none
  | _, _ => none

end TypeBody

def TypeDecl.toJson (t : TypeDecl) : Json :=
  .record [("name", .text t.name), ("kind", t.body.toJson)]

def TypeDecl.ofJson : Decoder TypeDecl := fun d j => do
  let r ← Decoder.fields ["name", "kind"] d j
  return ⟨← r.need "name" Decoder.string, ← r.need "kind" TypeBody.ofJson⟩

/-! ### Declarations of values -/

namespace DeclBody

def toJson : DeclBody → Json
  | .var ty initializer =>
    .tagged "Variable"
      (.record [("ty", ty.toJson), ("initializer", .option Handle.toJson initializer)])
  | .inst ty args =>
    .tagged "Instance" (.record [("ty", ty.toJson), ("args", .list Handle.toJson args)])
  | .param ty direction =>
    .tagged "Parameter" (.record [("ty", ty.toJson), ("direction", direction.toJson)])
  | .function signature => .tagged "Function" signature.toJson
  | .const ty value => .tagged "Constant" (.record [("ty", ty.toJson), ("value", value.toJson)])
  | .table => .text "Table"
  | .action => .text "Action"

/-- The declarations that are written as their tag. -/
def simple : List (String × DeclBody) := [("Table", .table), ("Action", .action)]

/-- The declaration with the given tag. -/
def ofPayload (tag : String) (d : Nat) (payload : Json) : Option DeclBody :=
  match tag with
  | "Variable" => do
    let r ← Decoder.fields ["ty", "initializer"] d payload
    return .var (← r.need "ty" Ty.ofJson) (← r.may "initializer" Handle.ofJson)
  | "Instance" => do
    let r ← Decoder.fields ["ty", "args"] d payload
    return .inst (← r.need "ty" Ty.ofJson) (← r.need "args" (Decoder.list Handle.ofJson))
  | "Parameter" => do
    let r ← Decoder.fields ["ty", "direction"] d payload
    return .param (← r.need "ty" Ty.ofJson) (← r.need "direction" Direction.ofJson)
  | "Function" => (Signature.ofJson d payload).map .function
  | "Constant" => do
    let r ← Decoder.fields ["ty", "value"] d payload
    return .const (← r.need "ty" Ty.ofJson) (← r.need "value" Handle.ofJson)
  | _ => none

def ofJson : Decoder DeclBody
  | _, .str (some tag) => simple.lookup tag
  | d + 1, .obj [(some tag, payload)] =>
    match payload with
    | .null => simple.lookup tag
    | payload => ofPayload tag d payload
  | _, _ => none

end DeclBody

def Decl.toJson (d : Decl) : Json := .record [("name", .text d.name), ("kind", d.body.toJson)]

def Decl.ofJson : Decoder Decl := fun d j => do
  let r ← Decoder.fields ["name", "kind"] d j
  return ⟨← r.need "name" Decoder.string, ← r.need "kind" DeclBody.ofJson⟩

/-! ### Header instances and blocks -/

def HeaderInstance.toJson (h : HeaderInstance) : Json :=
  .record [("name", .text h.name), ("header_type", h.headerType.toJson),
    ("is_metadata", .bool h.isMetadata)]

def HeaderInstance.ofJson : Decoder HeaderInstance := fun d j => do
  let r ← Decoder.fields ["name", "header_type", "is_metadata"] d j
  return ⟨← r.need "name" Decoder.string, ← r.need "header_type" Handle.ofJson,
    ← r.need "is_metadata" Decoder.bool⟩

def BlockKind.tag : BlockKind → String
  | .control => "Control"
  | .parser => "Parser"

def BlockKind.toJson (kind : BlockKind) : Json := .text kind.tag

def BlockKind.ofJson : Decoder BlockKind :=
  Decoder.alternative [("Control", .control), ("Parser", .parser)]

def Block.toJson (b : Block) : Json :=
  .record [("name", .text b.name), ("type_name", .text b.typeName), ("kind", b.kind.toJson),
    ("locals", .list Handle.toJson b.locals)]

def Block.ofJson : Decoder Block := fun d j => do
  let r ← Decoder.fields ["name", "type_name", "kind", "locals"] d j
  return ⟨← r.need "name" Decoder.string, ← r.need "type_name" Decoder.string,
    ← r.need "kind" BlockKind.ofJson, ← r.need "locals" (Decoder.list Handle.ofJson)⟩

end PacketC
