import PacketC.Diagnostic
import PacketC.Persist.Decoder

/-! The persisted form of diagnostics. -/

namespace PacketC

def Severity.toJson : Severity → Json
  | .error => .text "Error"
  | .warning => .text "Warning"

def Severity.ofJson : Decoder Severity :=
  Decoder.alternative [("Error", .error), ("Warning", .warning)]

def Category.toJson : Category → Json
  | .unsupportedConstruct => .text "UnsupportedConstruct"
  | .invalidArity => .text "InvalidArity"
  | .unsupportedWidth => .text "UnsupportedWidth"
  | .unresolvedExternal => .text "UnresolvedExtern"
  | .malformedProgram => .text "MalformedIr"
  | .suspicious => .text "Suspicious"

def Category.ofJson : Decoder Category :=
  Decoder.alternative [("UnsupportedConstruct", .unsupportedConstruct),
    ("InvalidArity", .invalidArity), ("UnsupportedWidth", .unsupportedWidth),
    ("UnresolvedExtern", .unresolvedExternal), ("MalformedIr", .malformedProgram),
    ("Suspicious", .suspicious)]

def Diagnostic.toJson (d : Diagnostic) : Json :=
  .record [("severity", d.severity.toJson), ("category", d.category.toJson),
    ("stage", .text d.stage), ("message", .text d.message)]

def Diagnostic.ofJson : Decoder Diagnostic := fun d j => do
  let r ← Decoder.fields ["severity", "category", "stage", "message"] d j
  return ⟨← r.need "severity" Severity.ofJson, ← r.need "category" Category.ofJson,
    ← r.need "stage" Decoder.string, ← r.need "message" Decoder.string⟩

end PacketC
