import PacketC.Program.Handle

/-! Statements of a packet program. They nest, and refer to expressions by handles. -/

namespace PacketC

/-- A label, a constant, a member of an enumeration or the default, with what it runs. -/
structure SwitchArm (body : Type) where
  label : ExprId
  body : Option body

inductive Statement where
  | assign (left right : ExprId)
  | block (components : List Statement) (annotations : List String)
  | cond (condition : ExprId) (ifTrue ifFalse : Option Statement)
  | call (call : ExprId)
  | switch (selector : ExprId) (cases : List (SwitchArm Statement))
  | decl (id : DeclId)
  | empty

namespace Statement

def atomicMark : String := "atomic"

def plainBlock (components : List Statement) : Statement := .block components []

def atomic (components : List Statement) : Statement := .block components [atomicMark]

def ifThen (condition : ExprId) (ifTrue : Statement) (ifFalse : Option Statement) : Statement :=
  .cond condition (some ifTrue) ifFalse

def isAtomic : Statement → Bool
  | .block _ annotations => annotations.contains atomicMark
  | _ => false

def nodeName : Statement → String
  | .assign .. => "AssignmentStatement"
  | .block .. => "BlockStatement"
  | .cond .. => "IfStatement"
  | .call _ => "MethodCallStatement"
  | .switch .. => "SwitchStatement"
  | .decl _ => "Declaration"
  | .empty => "EmptyStatement"

/-- The expressions that the statement itself names, without those of nested statements. -/
def expressions : Statement → List ExprId
  | .assign left right => [left, right]
  | .cond condition _ _ => [condition]
  | .call e => [e]
  | .switch selector cases => selector :: cases.map SwitchArm.label
  | .block .. | .decl _ | .empty => []

def children : Statement → List Statement
  | .block components _ => components
  | .cond _ ifTrue ifFalse => ifTrue.toList ++ ifFalse.toList
  | .switch _ cases => cases.filterMap SwitchArm.body
  | _ => []

end Statement

end PacketC
