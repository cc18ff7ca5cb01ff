import PacketC.Program.Ty

/-! Declarations of types: headers and structs with their fields, enumerations with the names of
their members in the target, and external objects with the signatures of their methods. -/

namespace PacketC

structure Field where
  name : String
  ty : Ty
  deriving DecidableEq

namespace Field

def size (f : Field) : Nat := f.ty.width.getD 0

def isVarWidth (f : Field) : Bool := f.ty.isVarbits

/-- The bits of the fields together. -/
def totalSize : List Field → Nat
  | [] => 0
  | f :: rest => f.size + totalSize rest

end Field

structure EnumMember where
  name : String
  cName : String
  deriving DecidableEq

inductive Direction where
  | none | into | out | inOut
  deriving DecidableEq

namespace Direction

def isIn (d : Direction) : Bool := d == .into

/-- The callee may change the argument. -/
def writesBack (d : Direction) : Bool := d == .out || d == .inOut

end Direction

structure Param where
  name : String
  direction : Direction
  ty : Ty
  deriving DecidableEq

structure Signature where
  name : String
  typeParams : List String
  params : List Param
  returnType : Ty
  deriving DecidableEq

inductive TypeBody where
  | header (fields : List Field)
  | struct (fields : List Field) (isMetadata : Bool)
  | enum (cName : String) (members : List EnumMember)
  | error (cName : String) (members : List EnumMember)
  | external (typeParams : List String) (methods : List Signature)
  deriving DecidableEq

structure TypeDecl where
  name : String
  body : TypeBody
  deriving DecidableEq

namespace TypeDecl

def fields (t : TypeDecl) : List Field :=
  match t.body with
  | .header fields | .struct fields _ => fields
  | _ => []

def fieldIndex? (t : TypeDecl) (name : String) : Option Nat :=
  t.fields.findIdx? fun f => f.name == name

def isMetadata (t : TypeDecl) : Bool :=
  match t.body with
  | .struct _ isMetadata => isMetadata
  | _ => false

def isHeader (t : TypeDecl) : Bool :=
  match t.body with
  | .header _ => true
  | _ => false

def isExternal (t : TypeDecl) : Bool :=
  match t.body with
  | .external .. => true
  | _ => false

def isEnumLike (t : TypeDecl) : Bool :=
  match t.body with
  | .enum .. | .error .. => true
  | _ => false

/-- The name of an enumeration in the target. -/
def cName? (t : TypeDecl) : Option String :=
  match t.body with
  | .enum cName _ | .error cName _ => some cName
  | _ => none

def members (t : TypeDecl) : List EnumMember :=
  match t.body with
  | .enum _ members | .error _ members => members
  | _ => []

def member? (t : TypeDecl) (name : String) : Option EnumMember :=
  t.members.find? fun m => m.name == name

def typeParams (t : TypeDecl) : List String :=
  match t.body with
  | .external typeParams _ => typeParams
  | _ => []

def methods (t : TypeDecl) : List Signature :=
  match t.body with
  | .external _ methods => methods
  | _ => []

def method? (t : TypeDecl) (name : String) : Option Signature :=
  t.methods.find? fun m => m.name == name

/-- A field of variable width counts with the most it can hold. -/
def bitWidth (t : TypeDecl) : Nat := Field.totalSize t.fields

def byteCount (t : TypeDecl) : Nat := (t.bitWidth + 7) / 8

/-- The bits of the fields whose width does not vary. -/
def fixedBitWidth (t : TypeDecl) : Nat :=
  Field.totalSize (t.fields.filter fun f => !f.isVarWidth)

end TypeDecl

end PacketC
