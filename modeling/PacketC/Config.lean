import PacketC.Output.Layout

/-! The settings of the generator. -/

namespace PacketC

structure Config where
  /-- How long the code waits after a digest. -/
  digestSleepMillis : UInt64
  emitDebugTraces : Bool
  /-- The specialized external types that go by the bare name of their argument. -/
  argTypedExternals : List String
  packetOutType : String
  lockMacro : String
  unlockMacro : String
  indentation : Indentation
  useColors : Bool
  deriving DecidableEq

namespace Config

def standard : Config where
  digestSleepMillis := 300
  emitDebugTraces := true
  argTypedExternals := ["Digest"]
  packetOutType := "packet_out"
  lockMacro := "LOCK"
  unlockMacro := "UNLOCK"
  indentation := .spaces 4
  useColors := false

def isArgTyped (c : Config) (external : String) : Bool := c.argTypedExternals.contains external

end Config

end PacketC
