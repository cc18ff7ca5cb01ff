import PacketC.Persist.Ty
import PacketC.Program.Statement

/-! The persisted form of statements. -/

namespace PacketC.Statement

mutual

def toJson : Statement → Json
  | .assign left right =>
    .tagged "Assignment" (.record [("left", left.toJson), ("right", right.toJson)])
  | .block components annotations =>
    .tagged "Block"
      (.record [("components", .arr (toJsonList components)),
        ("annotations", .list .text annotations)])
  | .cond condition ifTrue ifFalse =>
    .tagged "If"
      (.record [("condition", condition.toJson), ("if_true", toJsonOption ifTrue),
        ("if_false", toJsonOption ifFalse)])
  | .call e => .tagged "MethodCall" (.record [("call", e.toJson)])
  | .switch selector cases =>
    .tagged "Switch"
      (.record [("selector", selector.toJson), ("cases", .arr (toJsonCases cases))])
  | .decl id => .tagged "Declaration" id.toJson
  | .empty => .text "Empty"

def toJsonList : List Statement → List Json
  | [] => []
  | s :: rest => toJson s :: toJsonList rest

def toJsonOption : Option Statement → Json
  | none => .null
  | some s => toJson s

def toJsonCases : List (SwitchArm Statement) → List Json
  | [] => []
  | ⟨label, body⟩ :: rest =>
    .record [("label", label.toJson), ("body", toJsonOption body)] :: toJsonCases rest

end

/-- The statements without nested ones. -/
def flat (tag : String) (d : Nat) (payload : Json) : Option Statement :=
  match tag with
  | "Assignment" => do
    let r ← Decoder.fields ["left", "right"] d payload
    return .assign (← r.need "left" Handle.ofJson) (← r.need "right" Handle.ofJson)
  | "MethodCall" => do
    let r ← Decoder.fields ["call"] d payload
    return .call (← r.need "call" Handle.ofJson)
  | "Declaration" => (Handle.ofJson d payload).map .decl
  | _ => none

/-- A statement whose nested ones are read by `nested`. -/
def ofPayload (nested : Decoder Statement) (tag : String) (d : Nat) (payload : Json) :
    Option Statement :=
  match tag with
  | "Block" => do
    let r ← Decoder.fields ["components", "annotations"] d payload
    return .block (← r.need "components" (Decoder.list nested))
      (← r.need "annotations" (Decoder.list Decoder.string))
  | "If" => do
    let r ← Decoder.fields ["condition", "if_true", "if_false"] d payload
    return .cond (← r.need "condition" Handle.ofJson) (← r.may "if_true" nested)
      (← r.may "if_false" nested)
  | "Switch" => do
    let r ← Decoder.fields ["selector", "cases"] d payload
    let cases ← r.need "cases" (Decoder.list fun d j => do
      let c ← Decoder.fields ["label", "body"] d j
      return ⟨← c.need "label" Handle.ofJson, ← c.may "body" nested⟩)
    return .switch (← r.need "selector" Handle.ofJson) cases
  | tag => flat tag d payload

/-- Every nested statement is inside an object, so as many levels as objects may nest are enough. -/
def ofJsonLevels : Nat → Decoder Statement
  | _, _, .str (some "Empty") => some .empty
  | _, _ + 1, .obj [(some "Empty", .null)] => some .empty
  | level + 1, d + 1, .obj [(some tag, payload)] => ofPayload (ofJsonLevels level) tag d payload
  | _, _, _ => none

def ofJson : Decoder Statement := fun d j => ofJsonLevels d d j

end PacketC.Statement
