import PacketC.Program.TypeDecl

/-! Declarations of values, instances of headers, and the control and parser blocks. -/

namespace PacketC

inductive DeclBody where
  | var (ty : Ty) (initializer : Option ExprId)
  | inst (ty : Ty) (args : List ExprId)
  | param (ty : Ty) (direction : Direction)
  | function (signature : Signature)
  | const (ty : Ty) (value : ExprId)
  | table
  | action
  deriving DecidableEq

structure Decl where
  name : String
  body : DeclBody
  deriving DecidableEq

namespace Decl

/-- The type of a path that names the declaration. -/
def valueType (d : Decl) : Ty :=
  match d.body with
  | .var ty _ | .inst ty _ | .param ty _ | .const ty _ => ty
  | .function signature => signature.returnType
  | .table | .action => .void

def isInstance (d : Decl) : Bool :=
  match d.body with
  | .inst .. => true
  | _ => false

def isTable (d : Decl) : Bool :=
  match d.body with
  | .table => true
  | _ => false

def signature? (d : Decl) : Option Signature :=
  match d.body with
  | .function signature => some signature
  | _ => none

end Decl

structure HeaderInstance where
  name : String
  headerType : TypeId
  isMetadata : Bool
  deriving DecidableEq

inductive BlockKind where
  | control | parser
  deriving DecidableEq

structure Block where
  name : String
  typeName : String
  kind : BlockKind
  locals : List DeclId
  deriving DecidableEq

end PacketC
