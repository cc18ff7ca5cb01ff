import PacketC.Persist.Program
import PacketC.Program.Builder
import PacketC.Proofs.Program.WellFormed

/-! Scripts of building steps. A step takes handles and types; a script is well scoped if each step
takes only handles that steps before it have handed out, and types whose declarations are there when
the program is finished. Each relation has one rule for each place where a handle can stand. -/

namespace PacketC.Build

namespace Step

/-- A handle that a step is given, by itself or inside a node or a declaration. -/
inductive Takes : Step → Added → Prop
  | initializer {name : String} {body : DeclBody} {id : ExprId} (h : body.Mentions id) :
      Takes (.decl name body) (.expr id)
  | localBlock (b : BlockId) (d : DeclId) : Takes (.addLocal b d) (.block b)
  | localDecl (b : BlockId) (d : DeclId) : Takes (.addLocal b d) (.decl d)
  | part {ty : Ty} {node : Node} {id : ExprId} (h : node.Mentions id) :
      Takes (.expr ty node) (.expr id)
  | named {ty : Ty} {path : Path} {d : DeclId} (h : path.decl = some d) :
      Takes (.expr ty (.path path)) (.decl d)
  | memberHeader {ty : Ty} {m : Member} {i : HeaderId} (h : m.header = some i) :
      Takes (.expr ty (.member m)) (.header i)
  | memberField {ty : Ty} {m : Member} {ref : FieldRef} (h : m.field = some ref) :
      Takes (.expr ty (.member m)) (.header ref.header)
  | path (d : DeclId) : Takes (.path d) (.decl d)
  | base (e : ExprId) (name : String) (ty : Ty) : Takes (.member e name ty) (.expr e)
  | headerRef (i : HeaderId) : Takes (.headerRef i) (.header i)
  | field (i : HeaderId) (name : String) : Takes (.field i name) (.header i)
  | operand (op : UnaryOp) (e : ExprId) : Takes (.unary op e) (.expr e)
  | left (op : BinaryOp) (l r : ExprId) : Takes (.binary op l r) (.expr l)
  | right (op : BinaryOp) (l r : ExprId) : Takes (.binary op l r) (.expr r)
  | cond (c t f : ExprId) : Takes (.mux c t f) (.expr c)
  | ifTrue (c t f : ExprId) : Takes (.mux c t f) (.expr t)
  | ifFalse (c t f : ExprId) : Takes (.mux c t f) (.expr f)
  | sliced (e : ExprId) (hi lo : UInt32) : Takes (.slice e hi lo) (.expr e)
  | upper (l r : ExprId) : Takes (.concat l r) (.expr l)
  | lower (l r : ExprId) : Takes (.concat l r) (.expr r)
  | converted (dest : Ty) (e : ExprId) : Takes (.cast dest e) (.expr e)
  | item {items : List ExprId} {e : ExprId} (h : e ∈ items) : Takes (.list items) (.expr e)
  | maskValue (v m : ExprId) : Takes (.mask v m) (.expr v)
  | mask (v m : ExprId) : Takes (.mask v m) (.expr m)
  | low (l h : ExprId) : Takes (.range l h) (.expr l)
  | high (l h : ExprId) : Takes (.range l h) (.expr h)
  | method (m : ExprId) (typeArgs : List Ty) (args : List ExprId) (ty : Ty) :
      Takes (.call m typeArgs args ty) (.expr m)
  | arg {m : ExprId} {typeArgs : List Ty} {args : List ExprId} {ty : Ty} {e : ExprId}
      (h : e ∈ args) : Takes (.call m typeArgs args ty) (.expr e)
  | receiver (r : ExprId) (name : String) (args : List ExprId) (ty : Ty) :
      Takes (.methodCall r name args ty) (.expr r)
  | methodArg {r : ExprId} {name : String} {args : List ExprId} {ty : Ty} {e : ExprId}
      (h : e ∈ args) : Takes (.methodCall r name args ty) (.expr e)

/-- A type that a step is given, by itself or inside a declaration, a signature or a node. -/
inductive TakesTy : Step → Ty → Prop
  | typeBody {name : String} {body : TypeBody} {ty : Ty} (h : body.HoldsTy ty) :
      TakesTy (.typeDecl name body) ty
  | declBody {name : String} {body : DeclBody} {ty : Ty} (h : body.HoldsTy ty) :
      TakesTy (.decl name body) ty
  | ofExpr (ty : Ty) (node : Node) : TakesTy (.expr ty node) ty
  | inNode {ty : Ty} {node : Node} {inner : Ty} (h : node.HoldsTy inner) :
      TakesTy (.expr ty node) inner
  | namedPath (name : String) (ty : Ty) : TakesTy (.namedPath name ty) ty
  | member (e : ExprId) (name : String) (ty : Ty) : TakesTy (.member e name ty) ty
  | dest (ty : Ty) (e : ExprId) : TakesTy (.cast ty e) ty
  | typeArg {m : ExprId} {typeArgs : List Ty} {args : List ExprId} {ty arg : Ty}
      (h : arg ∈ typeArgs) : TakesTy (.call m typeArgs args ty) arg
  | result (m : ExprId) (typeArgs : List Ty) (args : List ExprId) (ty : Ty) :
      TakesTy (.call m typeArgs args ty) ty
  | methodResult (r : ExprId) (name : String) (args : List ExprId) (ty : Ty) :
      TakesTy (.methodCall r name args ty) ty

/-- A type handle that is looked at when the step is taken. -/
inductive LooksAt : Step → TypeId → Prop
  | headerInstance (name : String) (t : TypeId) : LooksAt (.headerInstance name t) t
  | enumMember (t : TypeId) (name : String) : LooksAt (.enumMember t name) t

/-- The name of the header instance that the step adds. -/
def headerName? : Step → Option String
  | .headerInstance name _ => some name
  | _ => none

/-- The step takes nothing that is not there at the time: neither a handle that has not been handed
out, nor a type to look at that has not been declared. -/
structure Scoped (handed : List Added) (p : Program) (s : Step) : Prop where
  handles : ∀ a, s.Takes a → a ∈ handed
  types : ∀ t, s.LooksAt t → t.index < p.typeDecls.size

/-- A reference to a field that is written out in a node is to a field that the header has. -/
def FieldFits (p : Program) (s : Step) : Prop :=
  ∀ ty m ref, s = .expr ty (.member m) → m.field = some ref → p.Resolves ref

/-- The width of an expression, 0 for a handle past the end. -/
def widthAt (p : Program) (id : ExprId) : Nat :=
  ((p.exprs[id.index]?.map Expr.ty).getD .void).width.getD 0

/-- The width of a slice or of a concatenation. -/
def width? (p : Program) : Step → Option Nat
  | .slice _ hi lo => some (hi.toNat - lo.toNat + 1)
  | .concat l r => some (widthAt p l + widthAt p r)
  | _ => none

/-- No slice ends before it begins, and the width of what the step adds is a number of 32 bits. -/
structure WidthFits (p : Program) (s : Step) : Prop where
  ordered : ∀ base hi lo, s = .slice base hi lo → lo ≤ hi
  fits : ∀ w, s.width? p = some w → w < UInt32.size

/-- A slice or a concatenation is added with its width. -/
def HasWidth (p : Program) (s : Step) : Prop :=
  ∀ w, s.width? p = some w →
    ∃ v : UInt32, (s.apply p).2.exprs.back?.map Expr.ty = some (.bits v false) ∧ v.toNat = w

/-- The step succeeds, or asks for a field or a member by a name that the type does not have. -/
def Tolerates (p : Program) : Step → Except ProgramError Added → Prop
  | _, .ok _ => True
  | .field i name, .error (.missingName _) =>
    ∃ t, p.headerType i = .ok t ∧ t.fieldIndex? name = none
  | .enumMember id name, .error (.missingName _) =>
    ∃ t, p.typeDecl id = .ok t ∧ t.member? name = none
  | _, .error _ => False

end Step

/-- `P` holds of each step when it is taken, with the handles that steps before it have handed
out. -/
def Along (P : List Added → Program → Step → Prop) : List Added → Program → List Step → Prop
  | _, _, [] => True
  | handed, p, s :: rest =>
    P handed p s ∧ Along P (handed ++ (s.apply p).1.toOption.toList) (s.apply p).2 rest

/-- Each step takes handles that were handed out before, all types that are named are declared in
the end, no two header instances have one name, and all widths are numbers of 32 bits. -/
structure WellScoped (steps : List Step) : Prop where
  handles : Along Step.Scoped [] .empty steps
  widths : Along (fun _ => Step.WidthFits) [] .empty steps
  types : ∀ s ∈ steps, ∀ ty, s.TakesTy ty → (runAll steps .empty).InRange ty
  headerNames : (steps.filterMap Step.headerName?).Nodup

/-- All references to fields that are written out in nodes are to fields that are there. -/
def FieldsFit (steps : List Step) : Prop := Along (fun _ => Step.FieldFits) [] .empty steps

end PacketC.Build
