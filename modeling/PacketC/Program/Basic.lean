import PacketC.Program.Decl
import PacketC.Program.Error
import PacketC.Program.Expr

/-! A program is five arenas. A lookup fails on a handle past the end of its arena. -/

namespace PacketC

structure Program where
  exprs : Array Expr
  decls : Array Decl := #[]
  typeDecls : Array TypeDecl := #[]
  headers : Array HeaderInstance := #[]
  blocks : Array Block := #[]
  deriving DecidableEq

namespace Program

def empty : Program := ⟨#[], #[], #[], #[], #[]⟩

/-- The node that a handle points at. -/
def lookup {arena : Arena} {α : Type} (nodes : Array α) (h : Handle arena) :
    Except ProgramError α :=
  match nodes[h.index]? with
  | some a => .ok a
  | none => .error (.dangling h)

def expr (p : Program) (id : ExprId) : Except ProgramError Expr := lookup p.exprs id

def decl (p : Program) (id : DeclId) : Except ProgramError Decl := lookup p.decls id

def typeDecl (p : Program) (id : TypeId) : Except ProgramError TypeDecl := lookup p.typeDecls id

def header (p : Program) (id : HeaderId) : Except ProgramError HeaderInstance :=
  lookup p.headers id

def block (p : Program) (id : BlockId) : Except ProgramError Block := lookup p.blocks id

/-- The type of a header instance. -/
def headerType (p : Program) (id : HeaderId) : Except ProgramError TypeDecl := do
  p.typeDecl (← p.header id).headerType

def field (p : Program) (ref : FieldRef) : Except ProgramError Field := do
  let header ← p.headerType ref.header
  match header.fields[ref.field.toNat]? with
  | some f => .ok f
  | none => .error (.danglingHandle s!"field #{ref.field.toNat} of {header.name}")

def findTypeDecl? (p : Program) (name : String) : Option TypeId :=
  (p.typeDecls.findIdx? fun t => t.name == name).map Handle.ofIndex

def findHeader? (p : Program) (name : String) : Option HeaderId :=
  (p.headers.findIdx? fun h => h.name == name).map Handle.ofIndex

def findBlock? (p : Program) (name : String) : Option BlockId :=
  (p.blocks.findIdx? fun b => b.name == name).map Handle.ofIndex

/-- The declaration is one of the block's locals. -/
def isLocalOf (p : Program) (block : BlockId) (decl : DeclId) : Bool :=
  match p.blocks[block.index]? with
  | some b => b.locals.contains decl
  | none => false

/-- The name of the declaration that a type refers to. -/
def typeName? (p : Program) (ty : Ty) : Option String := do
  let id ← ty.decl
  let t ← p.typeDecls[id.index]?
  return t.name

end Program

end PacketC
