import PacketC.Persist.Diagnostic
import PacketC.Persist.Statement
import PacketC.Proofs.Scope.DeclaredFirst
import PacketC.Proofs.Persist.Canonical
import PacketC.Proofs.Wide.Kinds
import PacketC.Proofs.Select.Dispatch
import PacketC.Proofs.Extend.Lowering
import PacketC.Proofs.Lists.Recovery
import PacketC.Proofs.Lists.InScope
import PacketC.Proofs.Lower.Hygiene
import PacketC.Proofs.Traces.Statements
import PacketC.Proofs.Build.Builds
import PacketC.Proofs.Lists.Packed
import PacketC.Proofs.External.Prototypes
import PacketC.Proofs.External.Storage
import PacketC.Proofs.External.Names
import PacketC.Proofs.External.Payload
import PacketC.Proofs.External.WriteBack
import PacketC.Proofs.Access.Fields
import PacketC.Proofs.Scalar.Saturation
import PacketC.Proofs.Signed.Lowering
import PacketC.Proofs.Wide.SignedConstants
import PacketC.Proofs.Lower.DigestForms
import PacketC.Proofs.Output.Emission
import PacketC.Proofs.Persist.Settings
import PacketC.Proofs.Output.FreeName
import PacketC.Proofs.Lower.HeaderLength
