import PacketC.Config
import PacketC.Json.Reader
import PacketC.Persist.Decoder
import PacketC.Persist.Storage

/-! The text of the settings. A setting that is not there has its standard value. -/

namespace PacketC

def Indentation.toJson : Indentation → Json
  | .spaces count => .tagged "Spaces" (.nat count.toNat)
  | .tabs => .text "Tabs"

def Indentation.ofJson : Decoder Indentation
  | _, .str (some "Tabs") => some .tabs
  | _ + 1, .obj [(some "Tabs", .null)] => some .tabs
  | d + 1, .obj [(some "Spaces", payload)] => (Decoder.uint64 d payload).map .spaces
  | _, _ => none

/-- Why there are no settings. -/
inductive ConfigError where
  | malformed
  | inaccessible
  deriving DecidableEq

def ConfigError.message : ConfigError → String
  | .malformed => "parsing lowering configuration"
  | .inaccessible => "reading lowering configuration"

namespace Config

def toJson (c : Config) : Json :=
  .record [("digest_sleep_millis", .nat c.digestSleepMillis.toNat),
    ("emit_debug_traces", .bool c.emitDebugTraces),
    ("arg_typed_externs", .list .text c.argTypedExternals),
    ("packet_out_type", .text c.packetOutType), ("lock_macro", .text c.lockMacro),
    ("unlock_macro", .text c.unlockMacro), ("indent_style", c.indentation.toJson),
    ("use_colors", .bool c.useColors)]

def keys : List String :=
  ["digest_sleep_millis", "emit_debug_traces", "arg_typed_externs", "packet_out_type", "lock_macro",
    "unlock_macro", "indent_style", "use_colors"]

def ofJson : Decoder Config := fun d j => do
  let r ← Decoder.leadingFields keys d j
  return {
    digestSleepMillis :=
      ← r.getD "digest_sleep_millis" Decoder.uint64 standard.digestSleepMillis
    emitDebugTraces := ← r.getD "emit_debug_traces" Decoder.bool standard.emitDebugTraces
    argTypedExternals :=
      ← r.getD "arg_typed_externs" (Decoder.list Decoder.string) standard.argTypedExternals
    packetOutType := ← r.getD "packet_out_type" Decoder.string standard.packetOutType
    lockMacro := ← r.getD "lock_macro" Decoder.string standard.lockMacro
    unlockMacro := ← r.getD "unlock_macro" Decoder.string standard.unlockMacro
    indentation := ← r.getD "indent_style" Indentation.ofJson standard.indentation
    useColors := ← r.getD "use_colors" Decoder.bool standard.useColors }

def ofTree (j : Json) : Except ConfigError Config :=
  match ofJson Json.maxDepth j with
  | some c => .ok c
  | none => .error .malformed

def read (s : String) : Except ConfigError Config :=
  match Json.parse? s with
  | some j => ofTree j
  | none => .error .malformed

def load {m : Type → Type} [Monad m] (place : Storage m) : m (Except ConfigError Config) := do
  match ← place.read with
  | some text => return read text
  | none => return .error .inaccessible

end Config

end PacketC
