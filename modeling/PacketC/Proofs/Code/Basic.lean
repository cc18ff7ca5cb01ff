import Mathlib.Data.Int.Bitwise

/-! Integer expressions of the generated code and what they are worth. A text is cut into tokens,
the tokens are read with the precedence and the associativity of C, and the term that comes out is
evaluated over unbounded integers: only a cast makes a number fit a type. -/

namespace PacketC.Code

/-! ### Terms -/

inductive Op where
  | mul | div | mod | add | sub | shl | shr | lt | gt | le | ge | eq | ne
  | band | bxor | bor | land | lor
  deriving DecidableEq

inductive UnOp where
  | neg | compl | not
  deriving DecidableEq

structure IntType where
  signed : Bool
  bits : Nat
  deriving DecidableEq

inductive Term where
  | num (n : Nat)
  | name (x : String)
  | arrow (base : Term) (field : String)
  | dot (base : Term) (field : String)
  | call (f : String) (args : List Term)
  | unary (op : UnOp) (x : Term)
  | binary (op : Op) (l r : Term)
  | cond (c t f : Term)
  | cast (ty : IntType) (x : Term)

/-! ### Values -/

def truth (p : Prop) [Decidable p] : Int := if p then 1 else 0

/-- The number that is congruent to the given one and fits the type. -/
def IntType.wrap (ty : IntType) (x : Int) : Int :=
  if ty.signed then x.bmod (2 ^ ty.bits) else x % 2 ^ ty.bits

def UnOp.apply : UnOp → Int → Int
  | .neg, x => -x
  | .compl, x => x.lnot
  | .not, x => truth (x = 0)

/-- The value that the left operand alone decides. -/
def Op.shortcut : Op → Int → Option Int
  | .land, x => if x = 0 then some 0 else none
  | .lor, x => if x = 0 then none else some 1
  | _, _ => none

def Op.apply : Op → Int → Int → Option Int
  | .mul, x, y => some (x * y)
  | .div, x, y => if y = 0 then none else some (x.tdiv y)
  | .mod, x, y => if y = 0 then none else some (x.tmod y)
  | .add, x, y => some (x + y)
  | .sub, x, y => some (x - y)
  | .shl, x, y => if y < 0 then none else some (x * 2 ^ y.toNat)
  | .shr, x, y => if y < 0 then none else some (x / 2 ^ y.toNat)
  | .lt, x, y => some (truth (x < y))
  | .gt, x, y => some (truth (y < x))
  | .le, x, y => some (truth (x ≤ y))
  | .ge, x, y => some (truth (y ≤ x))
  | .eq, x, y => some (truth (x = y))
  | .ne, x, y => some (truth (x ≠ y))
  | .band, x, y => some (x.land y)
  | .bxor, x, y => some (x.xor y)
  | .bor, x, y => some (x.lor y)
  | .land, x, y => some (truth (x ≠ 0 ∧ y ≠ 0))
  | .lor, x, y => some (truth (x ≠ 0 ∨ y ≠ 0))

/-- What the names, members and calls of a text stand for. -/
abbrev Store := Term → Option Int

def Term.eval (σ : Store) : Term → Option Int
  | .num n => some n
  | .name x => if x = "true" then some 1 else if x = "false" then some 0 else σ (.name x)
  | .arrow base field => σ (.arrow base field)
  | .dot base field => σ (.dot base field)
  | .call f args => σ (.call f args)
  | .unary op x => (x.eval σ).map op.apply
  | .binary op l r => do
    let x ← l.eval σ
    match op.shortcut x with
    | some v => return v
    | none => op.apply x (← r.eval σ)
  | .cond c t f => do
    if (← c.eval σ) = 0 then f.eval σ else t.eval σ
  | .cast ty x => (x.eval σ).map ty.wrap

/-- The right operand does not change what the left one decides. -/
theorem Op.apply_of_shortcut {op : Op} {x v : Int} (h : op.shortcut x = some v) (y : Int) :
    op.apply x y = some v := by
  cases op with
  | land =>
    simp only [shortcut, Option.ite_none_right_eq_some, Option.some.injEq] at h
    simp [apply, truth, h]
  | lor =>
    simp only [shortcut, Option.ite_none_left_eq_some, Option.some.injEq] at h
    simp [apply, truth, h]
  | _ => cases h

theorem Term.eval_binary {σ : Store} {op : Op} {l r : Term} {x y : Int} (hl : l.eval σ = some x)
    (hr : r.eval σ = some y) : (Term.binary op l r).eval σ = op.apply x y := by
  rw [Term.eval, hl, Option.bind_eq_bind, Option.bind_some]
  split
  next v h => exact (Op.apply_of_shortcut h y).symm
  next => rw [hr]; rfl

/-! ### Tokens -/

inductive Token where
  /-- A name or a number. -/
  | word (w : List Char)
  | one (c : Char)
  | two (c d : Char)
  deriving DecidableEq

def isWordChar (c : Char) : Bool := c.isAlphanum || c == '_'

/-- The two characters make one token. -/
def joins (c d : Char) : Bool :=
  [('<', '<'), ('>', '>'), ('<', '='), ('>', '='), ('=', '='), ('!', '='), ('&', '&'), ('|', '|'),
    ('-', '>')].contains (c, d)

/-- Puts a character in front of the word that follows it. -/
def extend (c : Char) : List Token → List Token
  | .word w :: ts => .word (c :: w) :: ts
  | ts => .word [c] :: ts

def lex : List Char → List Token
  | [] => []
  | [c] => if c = ' ' then [] else if isWordChar c then [.word [c]] else [.one c]
  | c :: d :: rest =>
    if c = ' ' then lex (d :: rest)
    else if isWordChar c then
      if isWordChar d then extend c (lex (d :: rest)) else .word [c] :: lex (d :: rest)
    else if joins c d then .two c d :: lex rest
    else .one c :: lex (d :: rest)

/-! ### Words -/

def digit? (base : Nat) (c : Char) : Option Nat :=
  let d := if c.isDigit then c.toNat - '0'.toNat else c.toNat - 'a'.toNat + 10
  if (c.isDigit ∨ ('a' ≤ c ∧ c ≤ 'f')) ∧ d < base then some d else none

def digits? (base : Nat) (ds : List Char) : Option Nat :=
  if ds.isEmpty then none
  else ds.foldlM (fun n c => (digit? base c).map (n * base + ·)) 0

/-- A number in base 16, 2, 8 or 10. -/
def number? : List Char → Option Nat
  | '0' :: 'x' :: ds => digits? 16 ds
  | '0' :: 'b' :: ds => digits? 2 ds
  | '0' :: ds => digits? 8 ('0' :: ds)
  | ds => digits? 10 ds

def IntType.ofName? : String → Option IntType
  | "uint8_t" => some ⟨false, 8⟩
  | "uint16_t" => some ⟨false, 16⟩
  | "uint32_t" => some ⟨false, 32⟩
  | "uint64_t" => some ⟨false, 64⟩
  | "int8_t" => some ⟨true, 8⟩
  | "int16_t" => some ⟨true, 16⟩
  | "int32_t" => some ⟨true, 32⟩
  | "int64_t" => some ⟨true, 64⟩
  | _ => none

/-! ### Reading -/

def Op.ofToken? : Token → Option Op
  | .one '*' => some .mul
  | .one '/' => some .div
  | .one '%' => some .mod
  | .one '+' => some .add
  | .one '-' => some .sub
  | .two '<' '<' => some .shl
  | .two '>' '>' => some .shr
  | .one '<' => some .lt
  | .one '>' => some .gt
  | .two '<' '=' => some .le
  | .two '>' '=' => some .ge
  | .two '=' '=' => some .eq
  | .two '!' '=' => some .ne
  | .one '&' => some .band
  | .one '^' => some .bxor
  | .one '|' => some .bor
  | .two '&' '&' => some .land
  | .two '|' '|' => some .lor
  | _ => none

/-- How tightly an operator binds; the conditional has 0. -/
def Op.prec : Op → Nat
  | .mul | .div | .mod => 10
  | .add | .sub => 9
  | .shl | .shr => 8
  | .lt | .gt | .le | .ge => 7
  | .eq | .ne => 6
  | .band => 5
  | .bxor => 4
  | .bor => 3
  | .land => 2
  | .lor => 1

def UnOp.ofToken? : Token → Option UnOp
  | .one '-' => some .neg
  | .one '~' => some .compl
  | .one '!' => some .not
  | _ => none

/-- What waits for the term that is being read. -/
inductive Frame where
  | paren
  /-- A parenthesis with the name of a type after it. -/
  | typeName (ty : IntType)
  | call (f : String) (args : List Term)
  | unary (op : UnOp)
  | cast (ty : IntType)
  | binary (op : Op) (l : Term)
  /-- A condition, before its colon and after it. -/
  | cond (c : Term)
  | alt (c t : Term)

inductive State where
  /-- A term has to follow. -/
  | before (stack : List Frame)
  | after (e : Term) (stack : List Frame)
  /-- The name of a member has to follow. -/
  | member (access : String → Term) (stack : List Frame)

/-- Closes what binds at least as tightly as `prec`. -/
def reduce (prec : Nat) : List Frame → Term → List Frame × Term
  | .unary op :: stack, e => reduce prec stack (.unary op e)
  | .cast ty :: stack, e => reduce prec stack (.cast ty e)
  | .binary op l :: stack, e =>
    if prec ≤ op.prec then reduce prec stack (.binary op l e) else (.binary op l :: stack, e)
  | .alt c t :: stack, e =>
    if prec = 0 then reduce prec stack (.cond c t e) else (.alt c t :: stack, e)
  | stack, e => (stack, e)

def readWord (w : List Char) (stack : List Frame) : Option State :=
  if w.head?.any Char.isDigit then (number? w).map fun n => .after (.num n) stack
  else
    match IntType.ofName? (String.ofList w), stack with
    | none, stack => some (.after (.name (String.ofList w)) stack)
    | some ty, .paren :: stack => some (.before (.typeName ty :: stack))
    | some _, _ => none

def step : State → Token → Option State
  | .before stack, .word w => readWord w stack
  | .before stack, .one '(' => some (.before (.paren :: stack))
  | .before (.typeName ty :: stack), .one ')' => some (.before (.cast ty :: stack))
  | .before stack, t => (UnOp.ofToken? t).map fun op => .before (.unary op :: stack)
  | .after (.name f) stack, .one '(' => some (.before (.call f [] :: stack))
  | .after e stack, .two '-' '>' => some (.member (.arrow e) stack)
  | .after e stack, .one '.' => some (.member (.dot e) stack)
  | .after e stack, .one '?' =>
    match reduce 1 stack e with
    | (stack, e) => some (.before (.cond e :: stack))
  | .after e stack, .one ':' =>
    match reduce 0 stack e with
    | (.cond c :: stack, e) => some (.before (.alt c e :: stack))
    | _ => none
  | .after e stack, .one ',' =>
    match reduce 0 stack e with
    | (.call f args :: stack, e) => some (.before (.call f (args ++ [e]) :: stack))
    | _ => none
  | .after e stack, .one ')' =>
    match reduce 0 stack e with
    | (.paren :: stack, e) => some (.after e stack)
    | (.call f args :: stack, e) => some (.after (.call f (args ++ [e])) stack)
    | _ => none
  | .after e stack, t =>
    (Op.ofToken? t).map fun op =>
      match reduce op.prec stack e with
      | (stack, e) => .before (.binary op e :: stack)
  | .member access stack, .word w => some (.after (access (String.ofList w)) stack)
  | .member _ _, _ => none

def finish : State → Option Term
  | .after e stack =>
    match reduce 0 stack e with
    | ([], e) => some e
    | _ => none
  | _ => none

def parse (ts : List Token) : Option Term := (ts.foldlM step (.before [])).bind finish

/-- The value of a text. -/
def evaluate (σ : Store) (text : String) : Option Int :=
  (parse (lex text.toList)).bind (Term.eval σ)

example : evaluate (fun _ => none) "(1+2*3-4-1)<<1 | 0x10 ^ ~0&5" = some 21 := by decide +kernel

example : evaluate (fun _ => none) "0 ? 1 : 2>1 ? (uint8_t)-1 : 4" = some 255 := by decide +kernel

end PacketC.Code
