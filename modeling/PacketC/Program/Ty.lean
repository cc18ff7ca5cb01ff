import PacketC.Program.Handle

/-! The types of a packet program, with decidable equality and the text messages show. -/

namespace PacketC

inductive Ty where
  | void
  | bool
  | infInt
  | string
  | bits (width : UInt32) (signed : Bool)
  | varbits (maxWidth : UInt32)
  /-- A type as the program names it. -/
  | name (id : TypeId)
  | external (id : TypeId)
  | struct (id : TypeId)
  | header (id : TypeId)
  | enum (id : TypeId)
  | error (id : TypeId)
  | specialized (base : TypeId) (args : List Ty)
  /-- A type parameter that is not bound yet. -/
  | var (name : String)
  | tuple (items : List Ty)

namespace Ty

/-! ### Equality -/

mutual

def beq : Ty → Ty → Bool
  | .void, .void => true
  | .bool, .bool => true
  | .infInt, .infInt => true
  | .string, .string => true
  | .bits w s, .bits w' s' => w == w' && s == s'
  | .varbits w, .varbits w' => w == w'
  | .name i, .name j => i == j
  | .external i, .external j => i == j
  | .struct i, .struct j => i == j
  | .header i, .header j => i == j
  | .enum i, .enum j => i == j
  | .error i, .error j => i == j
  | .specialized i as, .specialized j bs => i == j && beqList as bs
  | .var x, .var y => x == y
  | .tuple as, .tuple bs => beqList as bs
  | _, _ => false

def beqList : List Ty → List Ty → Bool
  | [], [] => true
  | a :: as, b :: bs => beq a b && beqList as bs
  | _, _ => false

end

mutual

theorem beq_self : ∀ a : Ty, beq a a = true
  | .void | .bool | .infInt | .string => rfl
  | .bits .. | .varbits _ | .name _ | .external _ | .struct _ | .header _ | .enum _ | .error _
  | .var _ => by simp [beq]
  | .specialized _ as | .tuple as => by simp [beq, beqList_self as]

theorem beqList_self : ∀ as : List Ty, beqList as as = true
  | [] => rfl
  | a :: as => by simp [beqList, beq_self a, beqList_self as]

end

mutual

theorem eq_of_beq : ∀ a b : Ty, beq a b = true → a = b
  | .void, b, h | .bool, b, h | .infInt, b, h | .string, b, h | .bits .., b, h
  | .varbits _, b, h | .name _, b, h | .external _, b, h | .struct _, b, h | .header _, b, h
  | .enum _, b, h | .error _, b, h | .var _, b, h => by
    cases b <;> simp_all [beq]
  | .specialized i as, b, h => by
    cases b <;> simp_all [beq]
    exact eq_of_beqList _ _ h.2
  | .tuple as, b, h => by
    cases b <;> simp_all [beq]
    exact eq_of_beqList _ _ h

theorem eq_of_beqList : ∀ as bs : List Ty, beqList as bs = true → as = bs
  | [], [], _ => rfl
  | [], _ :: _, h | _ :: _, [], h => by simp [beqList] at h
  | a :: as, b :: bs, h => by
    simp only [beqList, Bool.and_eq_true] at h
    rw [eq_of_beq a b h.1, eq_of_beqList as bs h.2]

end

instance : DecidableEq Ty := fun a b =>
  decidable_of_iff (beq a b = true) ⟨eq_of_beq a b, fun h => h ▸ beq_self a⟩

/-! ### Views -/

/-- The declared width of a bit string, a fixed one or the most it can hold. -/
def width : Ty → Option Nat
  | .bits w _ => some w.toNat
  | .varbits w => some w.toNat
  | _ => none

def isBits : Ty → Bool
  | .bits .. => true
  | _ => false

def isUnsignedBits : Ty → Bool
  | .bits _ signed => !signed
  | _ => false

def isSignedBits : Ty → Bool
  | .bits _ signed => signed
  | _ => false

def isVarbits : Ty → Bool
  | .varbits _ => true
  | _ => false

/-- A value of the type fits a scalar of the target. -/
def isPrimitive : Ty → Bool
  | .bool => true
  | .bits w _ => w.toNat ≤ 32
  | _ => false

/-- The declaration that the type refers to. -/
def decl : Ty → Option TypeId
  | .name id | .external id | .struct id | .header id | .enum id | .error id => some id
  | .specialized base _ => some base
  | _ => none

def shapeName : Ty → String
  | .void => "Type_Void"
  | .bool => "Type_Boolean"
  | .infInt => "Type_InfInt"
  | .string => "Type_String"
  | .bits .. => "Type_Bits"
  | .varbits _ => "Type_Varbits"
  | .name _ => "Type_Name"
  | .external _ => "Type_Extern"
  | .struct _ => "Type_Struct"
  | .header _ => "Type_Header"
  | .enum _ => "Type_Enum"
  | .error _ => "Type_Error"
  | .specialized .. => "Type_Specialized"
  | .var _ => "Type_Var"
  | .tuple _ => "Type_Tuple"

mutual

/-- The type as messages show it; a declared type shows only its shape. -/
def text : Ty → String
  | .void => "void"
  | .bool => "bool"
  | .infInt => "int"
  | .string => "string"
  | .bits w signed => (if signed then "int<" else "bit<") ++ toString w.toNat ++ ">"
  | .varbits w => "varbit<" ++ toString w.toNat ++ ">"
  | .var x => x
  | .tuple items => "tuple<" ++ String.intercalate ", " (texts items) ++ ">"
  | ty => ty.shapeName

def texts : List Ty → List String
  | [] => []
  | ty :: rest => text ty :: texts rest

end

end Ty

end PacketC
