import PacketC.Persist.Decoder
import PacketC.Program.Ty

/-! The persisted form of handles and types. -/

namespace PacketC

def Handle.toJson {arena : Arena} (h : Handle arena) : Json := .nat h.index

def Handle.ofJson {arena : Arena} : Decoder (Handle arena) := fun d j =>
  (Decoder.uint32 d j).map Handle.mk

namespace Ty

mutual

def toJson : Ty → Json
  | .void => .text "Void"
  | .bool => .text "Bool"
  | .infInt => .text "InfInt"
  | .string => .text "String"
  | .bits w signed => .tagged "Bits" (.record [("width", .nat w.toNat), ("signed", .bool signed)])
  | .varbits w => .tagged "Varbits" (.record [("max_width", .nat w.toNat)])
  | .name id => .tagged "Name" id.toJson
  | .external id => .tagged "Extern" id.toJson
  | .struct id => .tagged "Struct" id.toJson
  | .header id => .tagged "Header" id.toJson
  | .enum id => .tagged "Enum" id.toJson
  | .error id => .tagged "Error" id.toJson
  | .specialized base args =>
    .tagged "Specialized" (.record [("base", base.toJson), ("args", .arr (toJsonList args))])
  | .var x => .tagged "Var" (.text x)
  | .tuple items => .tagged "Tuple" (.arr (toJsonList items))

def toJsonList : List Ty → List Json
  | [] => []
  | ty :: rest => toJson ty :: toJsonList rest

end

/-- The types that are written as their tag. -/
def simple : List (String × Ty) :=
  [("Void", .void), ("Bool", .bool), ("InfInt", .infInt), ("String", .string)]

/-- The types whose payload holds no other type. -/
def flat (tag : String) (d : Nat) (payload : Json) : Option Ty :=
  match tag with
  | "Bits" => do
    let r ← Decoder.fields ["width", "signed"] d payload
    return .bits (← r.need "width" Decoder.uint32) (← r.need "signed" Decoder.bool)
  | "Varbits" => do
    let r ← Decoder.fields ["max_width"] d payload
    return .varbits (← r.need "max_width" Decoder.uint32)
  | "Name" => (Handle.ofJson d payload).map .name
  | "Extern" => (Handle.ofJson d payload).map .external
  | "Struct" => (Handle.ofJson d payload).map .struct
  | "Header" => (Handle.ofJson d payload).map .header
  | "Enum" => (Handle.ofJson d payload).map .enum
  | "Error" => (Handle.ofJson d payload).map .error
  | "Var" => (Decoder.string d payload).map .var
  | _ => none

def ofJson : Decoder Ty
  | d + 3, .obj [(some "Specialized", payload)] => do
    let r ← Decoder.fields ["base", "args"] (d + 2) payload
    let base ← r.need "base" Handle.ofJson
    let args ← r.need "args" fun _ j =>
      match j with
      | .arr items => items.mapM (ofJson d)
      | _ => none
    return .specialized base args
  | d + 2, .obj [(some "Tuple", .arr items)] => (items.mapM (ofJson d)).map .tuple
  | d + 1, .obj [(some tag, payload)] =>
    match payload with
    | .null => simple.lookup tag
    | payload => flat tag d payload
  | _, .str (some tag) => simple.lookup tag
  | _, _ => none

end Ty

end PacketC
