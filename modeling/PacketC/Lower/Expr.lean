import PacketC.Lower.Buffer
import PacketC.Lower.Call
import PacketC.Lower.Transition
import PacketC.Output.Layout

/-! The text of expressions. The parts of a node are lowered by the function it is given, so each
node can be understood by itself; `exprWithin` ties the knot. -/

namespace PacketC.Lower

/-- A constant above 32 bits is an array in front of the statement. -/
def constant (e : Expr) (value : Int) (base : UInt32) : LowerM String := do
  match e.ty with
  | .bits width _ =>
    if 32 < width.toNat then
      let bytes := byteCount width.toNat
      let name ← nameOf ("const_0x" ++ Literal.hexBytes value bytes) e.id
      let items := (Literal.bytes value bytes).map fun b => "0x" ++ Literal.byteDigits b
      hoist s!"uint8_t {name}[] = {Literal.braced items};"
      return name
    else
      let type ← typeText e.ty
      return s!"({type})" ++ Literal.inBase base.toNat value
  | _ => return Literal.decimal value

/-- The name that a member of an enumeration has in the target. -/
def enumMemberName (p : Program) (ty : Ty) (name : String) :
    Except ProgramError (Option String) := do
  match ty with
  | .enum id | .error id => return ((← p.typeDecl id).member? name).map EnumMember.cName
  | _ => return none

/-- A member of something that is not a header of the packet. -/
def plainMember (recur : Recur) (e : Expr) (m : Member) (mode : Mode) : LowerM String := do
  match ← look fun p => enumMemberName p e.ty m.member with
  | some name => return name
  | none => return (← recur m.base mode.child) ++ "." ++ m.member

def member (recur : Recur) (e : Expr) (m : Member) (mode : Mode) : LowerM String := do
  match m.field with
  | some ref => fieldText ref mode
  | none =>
    match m.header with
    | some id => return Target.headerInstance (← look (·.header id)).name
    | none =>
      let base ← look (·.expr m.base)
      match base.path?, ← ask fun p => isHeaderTy p base.ty with
      | some path, true => ask fun p => parserFieldText p path base.ty m.member
      | _, _ => plainMember recur e m mode

def mux (recur : Recur) (cond ifTrue ifFalse : ExprId) (mode : Mode) : LowerM String := do
  let c ← recur cond mode.child
  let t ← recur ifTrue mode.child
  let f ← recur ifFalse mode.child
  return s!"({c}?{t}:{f})"

/-- The lines of a struct; a component above 32 bits is filled in later. -/
def structLines (recur : Recur) (mode : Mode) : List Component → LowerM (List String)
  | [] => return []
  | component :: rest => do
    let e ← look (·.expr component.value)
    let line ← match bufferWidth? e.ty with
      | some width => pure s!"/* {component.name}/{width}b will be initialised afterwards */"
      | none => do
        let value ← recur component.value mode.child
        pure s!".{component.name} = {value},"
    return line :: (← structLines recur mode rest)

def structInit (recur : Recur) (e : Expr) (components : List Component) (mode : Mode) :
    LowerM String := do
  let type ← typeText e.ty
  let lines ← structLines recur mode components
  let layout := Layout.empty (← config).indentation
  return (layout.block s!"({type})" fun l => l.linesOf lines).finish

/-- The text of one node. -/
def nodeText (recur : Recur) (e : Expr) (mode : Mode) : LowerM String :=
  match e.node with
  | .constant value base => constant e value base
  | .bool value => return if value then "true" else "false"
  | .str value => return "\"" ++ value ++ "\""
  | .default => return ""
  | .typeName ty => typeText ty
  | .path path => pathText path mode
  | .member m => member recur e m mode
  | .unary op operand => unary recur e op operand mode
  | .binary op left right => binary recur e op left right mode
  | .mux cond ifTrue ifFalse => mux recur cond ifTrue ifFalse mode
  | .slice base _ lo => slice recur e base lo mode
  | .concat left right => concat recur left right mode
  | .cast dest operand => cast recur dest operand mode
  | .list items => bufferText e.id items
  | .structInit components => structInit recur e components mode
  | .select keys cases => transition recur e.id keys cases
  | .mask .. | .range .. =>
    unsupported .unsupportedConstruct s!"{e.node.name} is only supported as a select case"
  | .call c => callText recur e.id c mode

/-- Lowers an expression through at most `depth` nested ones. -/
def exprWithin : Nat → Recur
  | 0, id, _ =>
    throw (.program (.malformedArena s!"expression {id.text} is part of itself"))
  | depth + 1, id, mode => do
    let e ← look (·.expr id)
    nodeText (exprWithin depth) e mode

/-- An expression that is not part of itself nests no deeper than there are expressions. -/
def expr : Recur := fun id mode => do
  exprWithin ((← ask fun p => p.exprs.size) + 1) id mode

end PacketC.Lower
