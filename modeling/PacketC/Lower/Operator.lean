import PacketC.Lower.Monad
import PacketC.Target.Literal

/-! Arithmetic on bit strings. An unsigned result is masked back to its width, so that it does not
hang on the promotions of the target; what has no exact form is reported and left empty. -/

namespace PacketC.Lower

def exprStage : String := "formatting an expression"

/-- The width of a bit string that no scalar holds. -/
def bufferWidth? (ty : Ty) : Option Nat := ty.width.filter fun w => 32 < w

/-- The widths whose signed scalars wrap as they should. -/
def isScalarWidth (width : Nat) : Bool := width == 8 || width == 16 || width == 32

def scalarsOnly : String := "(Only int<8>, int<16> and int<32> are supported.)"

/-! ### Texts -/

def masked (mask inner : String) : String := "(" ++ mask ++ inner ++ ")"

def appliedText (l : String) (op : BinaryOp) (r : String) : String := l ++ op.symbol ++ r

/-- The number of values of an unsigned type. -/
def power (width : Nat) : String := Literal.digits 10 (Nat.pow 2 width)

/-- The mask of an unsigned type, with the operator that applies it. -/
def typeMask (ty : Ty) : LowerM String := do
  match ty with
  | .bits width false => return Literal.mask width.toNat ++ "&"
  | _ =>
    report .unsupportedConstruct "formatting a type mask"
      s!"Currently only bit<w> is supported, got {ty.text}"
    return ""

/-- A report, and no text. -/
def unsupported (category : Category) (message : String) : LowerM String := do
  report category exprStage message
  return ""

/-! ### Operators -/

def unaryText (ty : Ty) (op : UnaryOp) (inner : String) : LowerM String := do
  match op with
  | .neg =>
    match ty with
    | .bits width false =>
      return masked (← typeMask ty) s!"({power width.toNat}-{inner})"
    | _ => return s!"(-{inner})"
  | .cmpl => return masked (← typeMask ty) s!"(~{inner})"
  | .lnot => return s!"(!{inner})"

def unary (recur : Recur) (e : Expr) (op : UnaryOp) (operand : ExprId) (mode : Mode) :
    LowerM String := do
  match if op = .lnot then none else bufferWidth? e.ty with
  | some width =>
    unsupported .unsupportedWidth s!"Operator {op.name} on bit<{width}> is not supported"
  | none => unaryText e.ty op (← recur operand mode.child)

/-- The text for operands that fit scalars. -/
def binaryText (ty : Ty) (op : BinaryOp) (l r : String) : LowerM String := do
  if !op.isWidthSensitive then return s!"({appliedText l op r})"
  else
    match ty, op with
    | .bits width false, .sub | .bits width false, .subSat =>
      return masked (← typeMask ty) s!"({l}+({power width.toNat}-{r}))"
    | .bits width true, .shr => return s!"(({r}>{width.toNat}) ? 0 : ({l} >> {r}))"
    | .infInt, _ => return s!"({appliedText l op r})"
    | .bits _ false, _ => return masked (← typeMask ty) s!"({appliedText l op r})"
    | .bits width true, _ =>
      if isScalarWidth width.toNat then
        let text ← typeText ty
        return s!"(({text}) ({appliedText l op r}))"
      else
        unsupported .unsupportedWidth
          (s!"Expression of type {op.name} is not supported on int<{width.toNat}>. " ++ scalarsOnly)
    | _, _ =>
      unsupported .unsupportedConstruct s!"Operator {op.name} on {ty.text} is not supported"

/-- Bit strings above 32 bits are buffers; they can be compared and nothing else. -/
def binary (recur : Recur) (e : Expr) (op : BinaryOp) (left right : ExprId) (mode : Mode) :
    LowerM String := do
  let leftTy := (← look (·.expr left)).ty
  let rightTy := (← look (·.expr right)).ty
  if op.isEquality then
    let l ← recur left mode.child
    let r ← recur right mode.child
    match (bufferWidth? leftTy).or (bufferWidth? rightTy) with
    | some width => return s!"0 {op.symbol} memcmp({l}, {r}, {byteCount width})"
    | none => binaryText e.ty op l r
  else
    match ([leftTy, rightTy, e.ty].filterMap bufferWidth?).max? with
    | some width =>
      unsupported .unsupportedWidth
        (s!"Operator {op.name} on {width}-bit operands is not supported; " ++
          "only == and != work above 32 bits")
    | none =>
      let l ← recur left mode.child
      let r ← recur right mode.child
      binaryText e.ty op l r

/-! ### Slices, concatenations and casts -/

def slice (recur : Recur) (e : Expr) (base : ExprId) (lo : UInt32) (mode : Mode) :
    LowerM String := do
  let inner ← recur base mode.child
  return masked (← typeMask e.ty) s!"({inner}>>{lo.toNat})"

def concat (recur : Recur) (left right : ExprId) (mode : Mode) : LowerM String := do
  let rightWidth := (← look (·.expr right)).ty.width.getD 0
  let l ← recur left mode.child
  let r ← recur right mode.child
  return s!"(({l}<<{rightWidth}) | {r})"

def castText (src dest : Ty) (inner : String) : LowerM String := do
  match src, dest with
  | .bits 1 false, .bool => return s!"({inner})"
  | .bool, .bits 1 false => return s!"({inner}? 1 : 0)"
  | .bits srcWidth false, .bits destWidth false =>
    if destWidth < srcWidth then return masked (← typeMask dest) inner else return inner
  | .bits _ true, .bits _ true =>
    let text ← typeText dest
    return s!"(({text}) {inner})"
  | .bits _ true, .bits _ false => return masked (← typeMask dest) inner
  | .bits _ false, .bits width true =>
    if isScalarWidth width.toNat then
      let text ← typeText dest
      return s!"(({text}){inner})"
    else
      unsupported .unsupportedWidth
        (s!"Cast from {src.text} to int<{width.toNat}> is not supported! " ++ scalarsOnly)
  | _, _ =>
    unsupported .unsupportedConstruct s!"Cast from {src.text} to {dest.text} is not supported!"

def cast (recur : Recur) (dest : Ty) (operand : ExprId) (mode : Mode) : LowerM String := do
  let src := (← look (·.expr operand)).ty
  castText src dest (← recur operand mode.child)

end PacketC.Lower
