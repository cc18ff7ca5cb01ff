import PacketC.Program.Basic

/-! The check of a whole program: every expression stands at its own handle, its parts stand
before it, every handle points into its arena, and header instances have distinct names. The first
fault in the order of the arenas is the one reported. -/

namespace PacketC.Program

def ensure {α : Type} (r : Except ProgramError α) : Except ProgramError Unit := r.map fun _ => ()

mutual

def checkTy (p : Program) : Ty → Except ProgramError Unit
  | .specialized base args => do
    ensure (p.typeDecl base)
    checkTys p args
  | .tuple items => checkTys p items
  | ty =>
    match ty.decl with
    | some id => ensure (p.typeDecl id)
    | none => .ok ()

def checkTys (p : Program) : List Ty → Except ProgramError Unit
  | [] => .ok ()
  | ty :: rest => do
    checkTy p ty
    checkTys p rest

end

/-- A part of `parent` is in the arena, and stands before it. -/
def checkChild (p : Program) (parent child : ExprId) : Except ProgramError Unit := do
  ensure (p.expr child)
  if parent.index ≤ child.index then
    .error (.malformedArena
      s!"expression {parent.text} refers to expression {child.text}, which does not precede it")

/-- The handles of a node other than those of its parts. -/
def checkNode (p : Program) : Node → Except ProgramError Unit
  | .path path => path.decl.forM fun d => ensure (p.decl d)
  | .member m => do
    m.header.forM fun h => ensure (p.header h)
    m.field.forM fun f => ensure (p.field f)
  | .cast dest _ => checkTy p dest
  | .typeName ty => checkTy p ty
  | .call c => checkTys p c.typeArgs
  | _ => .ok ()

def checkExpr (p : Program) (e : Expr) (index : Nat) : Except ProgramError Unit := do
  if e.id.index ≠ index then
    .error (.malformedArena s!"expression at index {index} carries id {e.id.text}")
  checkTy p e.ty
  e.node.children.forM (checkChild p e.id)
  checkNode p e.node

def checkSignature (p : Program) (s : Signature) : Except ProgramError Unit := do
  checkTy p s.returnType
  checkTys p (s.params.map Param.ty)

def checkDecl (p : Program) (d : Decl) : Except ProgramError Unit :=
  match d.body with
  | .var ty initializer => do
    checkTy p ty
    initializer.forM fun e => ensure (p.expr e)
  | .inst ty args => do
    checkTy p ty
    args.forM fun e => ensure (p.expr e)
  | .param ty _ => checkTy p ty
  | .const ty value => do
    checkTy p ty
    ensure (p.expr value)
  | .function signature => checkSignature p signature
  | .table | .action => .ok ()

def checkTypeDecl (p : Program) (t : TypeDecl) : Except ProgramError Unit := do
  checkTys p (t.fields.map Field.ty)
  t.methods.forM (checkSignature p)

/-- The instances after those with the names in `seen`. -/
def checkHeaders (p : Program) (seen : List String) :
    List HeaderInstance → Except ProgramError Unit
  | [] => .ok ()
  | h :: rest => do
    ensure (p.typeDecl h.headerType)
    if seen.contains h.name then
      .error (.duplicateName s!"header instance {h.name}")
    checkHeaders p (h.name :: seen) rest

def checkBlock (p : Program) (b : Block) : Except ProgramError Unit :=
  b.locals.forM fun d => ensure (p.decl d)

def validate (p : Program) : Except ProgramError Unit := do
  p.exprs.toList.zipIdx.forM fun (e, index) => checkExpr p e index
  p.decls.toList.forM (checkDecl p)
  p.typeDecls.toList.forM (checkTypeDecl p)
  checkHeaders p [] p.headers.toList
  p.blocks.toList.forM (checkBlock p)

end PacketC.Program
