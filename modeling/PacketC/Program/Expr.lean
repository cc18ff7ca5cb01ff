import PacketC.Program.Ty

/-! Expressions of a packet program. Every expression carries its type and its own handle, and
refers to its parts by handles. -/

namespace PacketC

/-! ### Operators -/

inductive UnaryOp where
  | neg | cmpl | lnot
  deriving DecidableEq

def UnaryOp.name : UnaryOp → String
  | .neg => "Neg"
  | .cmpl => "Cmpl"
  | .lnot => "LNot"

inductive BinaryOp where
  | add | sub | addSat | subSat | mul | div | mod | shl | shr
  | grt | geq | lss | leq | equ | neq
  | band | bor | bxor | land | lor
  deriving DecidableEq

namespace BinaryOp

def name : BinaryOp → String
  | .add => "Add"
  | .sub => "Sub"
  | .addSat => "AddSat"
  | .subSat => "SubSat"
  | .mul => "Mul"
  | .div => "Div"
  | .mod => "Mod"
  | .shl => "Shl"
  | .shr => "Shr"
  | .grt => "Grt"
  | .geq => "Geq"
  | .lss => "Lss"
  | .leq => "Leq"
  | .equ => "Equ"
  | .neq => "Neq"
  | .band => "BAnd"
  | .bor => "BOr"
  | .bxor => "BXor"
  | .land => "LAnd"
  | .lor => "LOr"

def symbol : BinaryOp → String
  | .add | .addSat => "+"
  | .sub | .subSat => "-"
  | .mul => "*"
  | .div => "/"
  | .mod => "%"
  | .shl => "<<"
  | .shr => ">>"
  | .grt => ">"
  | .geq => ">="
  | .lss => "<"
  | .leq => "<="
  | .equ => "=="
  | .neq => "!="
  | .band => "&"
  | .bor => "|"
  | .bxor => "^"
  | .land => "&&"
  | .lor => "||"

/-- The result has the width of the operands and may exceed it. -/
def isWidthSensitive : BinaryOp → Bool
  | .add | .sub | .addSat | .subSat | .mul | .shl | .shr => true
  | _ => false

def isEquality : BinaryOp → Bool
  | .equ | .neq => true
  | _ => false

/-- The result is a truth value, whatever the operands are. -/
def isPredicate : BinaryOp → Bool
  | .grt | .geq | .lss | .leq | .equ | .neq | .land | .lor => true
  | _ => false

end BinaryOp

/-! ### Nodes -/

/-- A field of a header or metadata instance. -/
structure FieldRef where
  header : HeaderId
  field : UInt64
  deriving DecidableEq

structure Path where
  name : String
  decl : Option DeclId
  absolute : Bool
  deriving DecidableEq

/-- `header` is set if the member names a header instance, `field` if it names a field of one. -/
structure Member where
  base : ExprId
  member : String
  header : Option HeaderId
  field : Option FieldRef
  deriving DecidableEq

structure Component where
  name : String
  value : ExprId
  deriving DecidableEq

structure SelectArm where
  keyset : ExprId
  state : String
  deriving DecidableEq

structure Call where
  method : ExprId
  typeArgs : List Ty
  args : List ExprId
  deriving DecidableEq

inductive Node where
  | constant (value : Int) (base : UInt32)
  | bool (value : Bool)
  | str (value : String)
  | default
  | path (path : Path)
  | member (member : Member)
  | unary (op : UnaryOp) (operand : ExprId)
  | binary (op : BinaryOp) (left right : ExprId)
  | mux (cond ifTrue ifFalse : ExprId)
  | slice (base : ExprId) (hi lo : UInt32)
  | concat (left right : ExprId)
  | cast (dest : Ty) (operand : ExprId)
  | list (items : List ExprId)
  | structInit (components : List Component)
  | select (keys : List ExprId) (cases : List SelectArm)
  | mask (value mask : ExprId)
  | range (low high : ExprId)
  | call (call : Call)
  | typeName (ty : Ty)
  deriving DecidableEq

namespace Node

def name : Node → String
  | .constant .. => "Constant"
  | .bool _ => "BoolLiteral"
  | .str _ => "StringLiteral"
  | .default => "DefaultExpression"
  | .path _ => "PathExpression"
  | .member _ => "Member"
  | .unary .. => "Unary"
  | .binary .. => "Binary"
  | .mux .. => "Mux"
  | .slice .. => "Slice"
  | .concat .. => "Concat"
  | .cast .. => "Cast"
  | .list _ => "ListExpression"
  | .structInit _ => "StructInitializerExpression"
  | .select .. => "SelectExpression"
  | .mask .. => "Mask"
  | .range .. => "Range"
  | .call _ => "MethodCallExpression"
  | .typeName _ => "TypeNameExpression"

/-- The handles of the direct parts. -/
def children : Node → List ExprId
  | .constant .. | .bool _ | .str _ | .default | .path _ | .typeName _ => []
  | .member m => [m.base]
  | .unary _ operand | .cast _ operand => [operand]
  | .binary _ left right | .concat left right => [left, right]
  | .mux cond ifTrue ifFalse => [cond, ifTrue, ifFalse]
  | .slice base _ _ => [base]
  | .list items => items
  | .structInit components => components.map Component.value
  | .select keys cases => keys ++ cases.map SelectArm.keyset
  | .mask value m => [value, m]
  | .range low high => [low, high]
  | .call c => c.method :: c.args

end Node

structure Expr where
  id : ExprId
  ty : Ty
  node : Node
  deriving DecidableEq

namespace Expr

def isConstant (e : Expr) : Bool :=
  match e.node with
  | .constant .. => true
  | _ => false

def member? (e : Expr) : Option Member :=
  match e.node with
  | .member m => some m
  | _ => none

def path? (e : Expr) : Option Path :=
  match e.node with
  | .path p => some p
  | _ => none

def fieldRef? (e : Expr) : Option FieldRef := e.member?.bind Member.field

def headerRef? (e : Expr) : Option HeaderId := e.member?.bind Member.header

end Expr

end PacketC
