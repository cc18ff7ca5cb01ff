import PacketC.Program.Validate

/-! Building a program node by node. A node goes to the end of its arena, so its handle is the
size of the arena before; a step that fails adds nothing. -/

namespace PacketC

/-- What a building step does to the program; the program is kept when the step fails. -/
abbrev Build (α : Type) := ExceptT ProgramError (StateM Program) α

namespace Build

/-! ### Types, instances, declarations and blocks -/

def typeDecl (name : String) (body : TypeBody) : Build TypeId :=
  modifyGet fun p =>
    (.ofIndex p.typeDecls.size, { p with typeDecls := p.typeDecls.push ⟨name, body⟩ })

def enumType (name : String) (members : List String) : Build TypeId :=
  let cName := "enum_" ++ name
  typeDecl name (.enum cName (members.map fun m => ⟨m, cName ++ "_" ++ m⟩))

def errorType (members : List String) : Build TypeId :=
  typeDecl "error" (.error "error_error" (members.map fun m => ⟨m, "error_" ++ m⟩))

/-- An instance of a metadata type is metadata itself. -/
def headerInstance (name : String) (headerType : TypeId) : Build HeaderId :=
  modifyGet fun p =>
    let isMetadata := (p.typeDecls[headerType.index]?.map TypeDecl.isMetadata).getD false
    (.ofIndex p.headers.size,
      { p with headers := p.headers.push ⟨name, headerType, isMetadata⟩ })

def decl (name : String) (body : DeclBody) : Build DeclId :=
  modifyGet fun p => (.ofIndex p.decls.size, { p with decls := p.decls.push ⟨name, body⟩ })

def block (name typeName : String) (kind : BlockKind) : Build BlockId :=
  modifyGet fun p =>
    (.ofIndex p.blocks.size, { p with blocks := p.blocks.push ⟨name, typeName, kind, []⟩ })

def addLocal (block : BlockId) (decl : DeclId) : Build Unit := do
  let p ← get
  let b ← p.block block
  let grown := { b with locals := b.locals ++ [decl] }
  set { p with blocks := p.blocks.setIfInBounds block.index grown }

/-! ### Expressions -/

def expr (ty : Ty) (node : Node) : Build ExprId :=
  modifyGet fun p =>
    let id := .ofIndex p.exprs.size
    (id, { p with exprs := p.exprs.push ⟨id, ty, node⟩ })

/-- The type of an expression, `void` for a handle past the end. -/
def typeOf (id : ExprId) : Build Ty := do
  return ((← get).exprs[id.index]?.map Expr.ty).getD .void

/-- A path to a declaration, of the type of its value. -/
def path (id : DeclId) : Build ExprId := do
  let d ← (← get).decl id
  expr d.valueType (.path ⟨d.name, some id, false⟩)

/-- A path without a declaration. -/
def namedPath (name : String) (ty : Ty) : Build ExprId := expr ty (.path ⟨name, none, false⟩)

def member (base : ExprId) (name : String) (ty : Ty) : Build ExprId :=
  expr ty (.member ⟨base, name, none, none⟩)

/-- A header is a member of `hdr`; metadata is a path of its own. -/
def headerRef (id : HeaderId) : Build ExprId := do
  let h ← (← get).header id
  if h.isMetadata then namedPath h.name (.struct h.headerType)
  else
    let base ← namedPath "hdr" .void
    expr (.header h.headerType) (.member ⟨base, h.name, some id, none⟩)

def field (id : HeaderId) (name : String) : Build ExprId := do
  let t ← (← get).headerType id
  match t.fieldIndex? name with
  | none => throw (.missingName s!"field {name} of {t.name}")
  | some i =>
    let ty := (t.fields[i]?.map Field.ty).getD .void
    let base ← headerRef id
    expr ty (.member ⟨base, name, none, some ⟨id, UInt64.ofNat i⟩⟩)

def enumMember (id : TypeId) (name : String) : Build ExprId := do
  let t ← (← get).typeDecl id
  if (t.member? name).isNone then throw (.missingName s!"member {name} of {t.name}")
  let ty := match t.body with
    | .error .. => .error id
    | _ => .enum id
  let base ← expr ty (.typeName ty)
  member base name ty

def unary (op : UnaryOp) (operand : ExprId) : Build ExprId := do
  let ty ← if op = .lnot then pure .bool else typeOf operand
  expr ty (.unary op operand)

def binary (op : BinaryOp) (left right : ExprId) : Build ExprId := do
  let ty ← if op.isPredicate then pure .bool else typeOf left
  expr ty (.binary op left right)

def mux (cond ifTrue ifFalse : ExprId) : Build ExprId := do
  expr (← typeOf ifTrue) (.mux cond ifTrue ifFalse)

def slice (base : ExprId) (hi lo : UInt32) : Build ExprId :=
  expr (.bits (hi - lo + 1) false) (.slice base hi lo)

/-- A bit string as wide as both operands together. -/
def concat (left right : ExprId) : Build ExprId := do
  let width := (← typeOf left).width.getD 0 + (← typeOf right).width.getD 0
  expr (.bits (UInt32.ofNat width) false) (.concat left right)

def cast (dest : Ty) (operand : ExprId) : Build ExprId := expr dest (.cast dest operand)

def list (items : List ExprId) : Build ExprId := do
  expr (.tuple (← items.mapM typeOf)) (.list items)

def mask (value mask : ExprId) : Build ExprId := do
  expr (← typeOf value) (.mask value mask)

def range (low high : ExprId) : Build ExprId := do
  expr (← typeOf low) (.range low high)

def call (method : ExprId) (typeArgs : List Ty) (args : List ExprId) (ty : Ty) : Build ExprId :=
  expr ty (.call ⟨method, typeArgs, args⟩)

/-- A call of a method of `receiver`. -/
def methodCall (receiver : ExprId) (method : String) (args : List ExprId) (ty : Ty) :
    Build ExprId := do
  call (← member receiver method .void) [] args ty

/-! ### Steps -/

inductive Step where
  | typeDecl (name : String) (body : TypeBody)
  | enumType (name : String) (members : List String)
  | errorType (members : List String)
  | headerInstance (name : String) (headerType : TypeId)
  | decl (name : String) (body : DeclBody)
  | block (name typeName : String) (kind : BlockKind)
  | addLocal (block : BlockId) (decl : DeclId)
  | expr (ty : Ty) (node : Node)
  | path (decl : DeclId)
  | namedPath (name : String) (ty : Ty)
  | member (base : ExprId) (name : String) (ty : Ty)
  | headerRef (header : HeaderId)
  | field (header : HeaderId) (name : String)
  | enumMember (type : TypeId) (name : String)
  | unary (op : UnaryOp) (operand : ExprId)
  | binary (op : BinaryOp) (left right : ExprId)
  | mux (cond ifTrue ifFalse : ExprId)
  | slice (base : ExprId) (hi lo : UInt32)
  | concat (left right : ExprId)
  | cast (dest : Ty) (operand : ExprId)
  | list (items : List ExprId)
  | mask (value mask : ExprId)
  | range (low high : ExprId)
  | call (method : ExprId) (typeArgs : List Ty) (args : List ExprId) (ty : Ty)
  | methodCall (receiver : ExprId) (method : String) (args : List ExprId) (ty : Ty)

namespace Step

def headerType (name : String) (fields : List Field) : Step := .typeDecl name (.header fields)

def metadataType (name : String) (fields : List Field) : Step :=
  .typeDecl name (.struct fields true)

def structType (name : String) (fields : List Field) : Step :=
  .typeDecl name (.struct fields false)

def externalType (name : String) (typeParams : List String) (methods : List Signature) : Step :=
  .typeDecl name (.external typeParams methods)

def newVariable (name : String) (ty : Ty) : Step := .decl name (.var ty none)

def function (name : String) (signature : Signature) : Step := .decl name (.function signature)

def control (name typeName : String) : Step := .block name typeName .control

def parser (name typeName : String) : Step := .block name typeName .parser

def constant (ty : Ty) (value : Int) : Step := .expr ty (.constant value 10)

def hexConstant (ty : Ty) (value : Int) : Step := .expr ty (.constant value 16)

def boolLit (value : Bool) : Step := .expr .bool (.bool value)

def strLit (value : String) : Step := .expr .string (.str value)

def defaultExpr : Step := .expr .void .default

def structInit (ty : Ty) (components : List Component) : Step := .expr ty (.structInit components)

def select (keys : List ExprId) (cases : List SelectArm) : Step :=
  .expr .void (.select keys cases)

def typeName (ty : Ty) : Step := .expr ty (.typeName ty)

end Step

/-- The handle that a step hands out. -/
inductive Added where
  | type (id : TypeId)
  | header (id : HeaderId)
  | decl (id : DeclId)
  | block (id : BlockId)
  | expr (id : ExprId)
  | local
  deriving DecidableEq

def Step.run : Step → Build Added
  | .typeDecl name body => .type <$> Build.typeDecl name body
  | .enumType name members => .type <$> Build.enumType name members
  | .errorType members => .type <$> Build.errorType members
  | .headerInstance name headerType => .header <$> Build.headerInstance name headerType
  | .decl name body => .decl <$> Build.decl name body
  | .block name typeName kind => .block <$> Build.block name typeName kind
  | .addLocal b d => (fun _ => .local) <$> Build.addLocal b d
  | .expr ty node => .expr <$> Build.expr ty node
  | .path d => .expr <$> Build.path d
  | .namedPath name ty => .expr <$> Build.namedPath name ty
  | .member base name ty => .expr <$> Build.member base name ty
  | .headerRef header => .expr <$> Build.headerRef header
  | .field header name => .expr <$> Build.field header name
  | .enumMember type name => .expr <$> Build.enumMember type name
  | .unary op operand => .expr <$> Build.unary op operand
  | .binary op left right => .expr <$> Build.binary op left right
  | .mux cond ifTrue ifFalse => .expr <$> Build.mux cond ifTrue ifFalse
  | .slice base hi lo => .expr <$> Build.slice base hi lo
  | .concat left right => .expr <$> Build.concat left right
  | .cast dest operand => .expr <$> Build.cast dest operand
  | .list items => .expr <$> Build.list items
  | .mask value m => .expr <$> Build.mask value m
  | .range low high => .expr <$> Build.range low high
  | .call method typeArgs args ty => .expr <$> Build.call method typeArgs args ty
  | .methodCall receiver method args ty => .expr <$> Build.methodCall receiver method args ty

/-- The outcome of a step, and the program after it. -/
def Step.apply (s : Step) (p : Program) : Except ProgramError Added × Program :=
  s.run.run p

/-- The program after all steps; one that fails does not stop the rest. -/
def runAll (steps : List Step) (p : Program) : Program :=
  steps.foldl (fun p s => (s.apply p).2) p

end Build

end PacketC
