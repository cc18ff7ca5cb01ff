import PacketC.Proofs.Code.Basic

/-! Statements of the generated code and what they do. The code in front of a statement declares
scalars and arrays of bytes, and a statement is a call or a conditional. A machine keeps the
variables that are declared, and the calls that were made; what the packet holds, what is declared
elsewhere and how bytes compare is up to the runtime. -/

namespace PacketC.Code

inductive Stmt where
  | skip
  | call (f : String) (args : List Term)
  | seq (a b : Stmt)
  | cond (c : Term) (t f : Stmt)

/-- A declaration or a statement. -/
inductive Item where
  | scalar (ty : IntType) (x : String) (value : Term)
  /-- An array of bytes, with its length and its first elements where they are written. -/
  | array (x : String) (size : Option Nat) (init : Option (List Nat))
  | stmt (s : Stmt)

/-! ### Reading -/

/-- A comment is a blank, and so is a line feed; `inside` tells whether a comment is open. -/
def unfolded : (inside : Bool) → List Char → List Char
  | _, [] => []
  | false, '/' :: '*' :: cs => ' ' :: unfolded true cs
  | false, c :: cs => (if c = '\n' then ' ' else c) :: unfolded false cs
  | true, '*' :: '/' :: cs => unfolded false cs
  | true, _ :: cs => unfolded true cs

def tokens (text : String) : List Token := lex (unfolded false text.toList)

/-- How many parentheses are open behind the token. -/
def Token.nesting (depth : Nat) : Token → Nat
  | .one '(' => depth + 1
  | .one ')' => depth - 1
  | _ => depth

/-- Cuts at the parenthesis that closes one more than `depth` open ones. -/
def closing (depth : Nat) : List Token → Option (List Token × List Token)
  | [] => none
  | t :: ts =>
    if t = .one ')' ∧ depth = 0 then some ([], ts)
    else (closing (t.nesting depth) ts).map (Prod.map (t :: ·) id)

/-- Cuts at the next semicolon. -/
def ending : List Token → Option (List Token × List Token)
  | [] => none
  | t :: ts => if t = .one ';' then some ([], ts) else (ending ts).map (Prod.map (t :: ·) id)

/-- A call up to its semicolon. -/
def readCall (ts : List Token) : Option (Stmt × List Token) := do
  let (e, ts) ← ending ts
  match ← parse e with
  | .call f args => return (.call f args, ts)
  | _ => none

mutual

/-- A statement that nests at most `depth` others, and what follows it. -/
def readStmt : Nat → List Token → Option (Stmt × List Token)
  | 0, _ => none
  | depth + 1, .word ['i', 'f'] :: .one '(' :: ts => do
    let (test, ts) ← closing 0 ts
    let c ← parse test
    let (t, ts) ← readStmt depth ts
    match ts with
    | .word ['e', 'l', 's', 'e'] :: ts =>
      let (f, ts) ← readStmt depth ts
      return (.cond c t f, ts)
    | ts => return (.cond c t .skip, ts)
  | depth + 1, .one '\x7b' :: ts => readBlock depth ts
  | _ + 1, ts => readCall ts

/-- Statements up to the brace that closes them. -/
def readBlock : Nat → List Token → Option (Stmt × List Token)
  | 0, _ => none
  | _ + 1, .one '\x7d' :: ts => some (.skip, ts)
  | depth + 1, ts => do
    let (a, ts) ← readStmt depth ts
    let (b, ts) ← readBlock depth ts
    return (.seq a b, ts)

end

/-- Numbers with commas between them, if any, up to the brace that closes them. -/
def readNumbers : List Token → Option (List Nat × List Token)
  | .word w :: .one ',' :: ts => do
    let n ← number? w
    let (ns, ts) ← readNumbers ts
    return (n :: ns, ts)
  | .word w :: .one '\x7d' :: ts => (number? w).map fun n => ([n], ts)
  | .one '\x7d' :: ts => some ([], ts)
  | _ => none

/-- What stands between the brackets of an array, and what follows. -/
def readSize : List Token → Option (Option Nat × List Token)
  | .one ']' :: ts => some (none, ts)
  | .word w :: .one ']' :: ts => (number? w).map fun n => (some n, ts)
  | _ => none

def readArray (x : String) (ts : List Token) : Option (Item × List Token) := do
  let (size, ts) ← readSize ts
  match ts with
  | .one ';' :: ts => return (.array x size none, ts)
  | .one '=' :: .one '\x7b' :: ts =>
    let (init, ts) ← readNumbers ts
    match ts with
    | .one ';' :: ts => return (.array x size (some init), ts)
    | _ => none
  | _ => none

def readItem : List Token → Option (Item × List Token)
  | .word ty :: .word x :: .one '=' :: ts => do
    let ty ← IntType.ofName? (String.ofList ty)
    let (value, ts) ← ending ts
    return (.scalar ty (String.ofList x) (← parse value), ts)
  | .word ty :: .word x :: .one '[' :: ts =>
    if String.ofList ty = "uint8_t" then readArray (String.ofList x) ts else none
  | ts => (readStmt ts.length ts).map (Prod.map .stmt id)

/-- At most `count` items. -/
def readItems : Nat → List Token → Option (List Item)
  | _, [] => some []
  | 0, _ :: _ => none
  | count + 1, t :: ts => do
    let (item, ts) ← readItem (t :: ts)
    return item :: (← readItems count ts)

/-- The items of a piece of code. -/
def items (text : String) : Option (List Item) :=
  let ts := tokens text
  readItems ts.length ts

/-! ### Machines -/

/-- The number that the bytes stand for, the highest of them first. -/
def bigEndian (bs : List UInt8) : Nat := bs.foldl (fun n b => n * 256 + b.toNat) 0

structure Runtime where
  /-- What a field of the packet holds, as a number and as bytes. -/
  number (header field : String) : Option Int
  bytes (header field : String) : Option (List UInt8)
  /-- What is declared elsewhere. -/
  scalar : Store
  buffer : Term → Option (List UInt8)
  compare (a b : List UInt8) : Int
  /-- Bytes compare as the numbers do that they stand for. -/
  sign_compare (a b : List UInt8) (h : a.length = b.length) :
    (compare a b).sign = ((bigEndian a : Int) - bigEndian b).sign

/-- Bytes are compared by the difference of their numbers. -/
def Runtime.byDifference (number : String → String → Option Int)
    (bytes : String → String → Option (List UInt8)) (scalar : Store)
    (buffer : Term → Option (List UInt8)) : Runtime where
  number := number
  bytes := bytes
  scalar := scalar
  buffer := buffer
  compare a b := (bigEndian a : Int) - bigEndian b
  sign_compare _ _ _ := rfl

inductive Slot where
  | scalar (v : Int)
  /-- An array that has not been filled. -/
  | blank (size : Nat)
  | bytes (bs : List UInt8)
  deriving DecidableEq

structure Machine where
  vars : List (String × Slot)
  calls : List (String × List Term)

namespace Machine

def start : Machine := ⟨[], []⟩

/-- The name means what it means elsewhere. -/
def isFree (m : Machine) (x : String) : Bool := (m.vars.lookup x).isNone

def declare (x : String) (slot : Slot) (m : Machine) : Option Machine :=
  if m.isFree x then some { m with vars := (x, slot) :: m.vars } else none

variable (rt : Runtime)

def buffer (m : Machine) : Term → Option (List UInt8)
  | .name x =>
    match m.vars.lookup x with
    | some (.bytes bs) => some bs
    | some _ => none
    | none => rt.buffer (.name x)
  | .arrow (.name x) field => if m.isFree x then rt.buffer (.arrow (.name x) field) else none
  | _ => none

/-- The first bytes of two buffers against each other. -/
def compared (m : Machine) (a b : Term) (n : Nat) : Option Int := do
  let a ← m.buffer rt a
  let b ← m.buffer rt b
  if n ≤ a.length ∧ n ≤ b.length then some (rt.compare (a.take n) (b.take n)) else none

def store (m : Machine) : Store
  | .name x =>
    match m.vars.lookup x with
    | some (.scalar v) => some v
    | some _ => none
    | none => rt.scalar (.name x)
  | .arrow (.name x) field => if m.isFree x then rt.scalar (.arrow (.name x) field) else none
  | .call "GET_INT32_AUTO_PACKET" [.name "pd", .name header, .name field] =>
    if m.isFree header ∧ m.isFree field then rt.number header field else none
  | .call "memcmp" [a, b, .num n] => m.compared rt a b n
  | _ => none

/-- Copies a field of the packet to an array of its length. -/
def extract (header field x : String) (m : Machine) : Option Machine := do
  let bs ← if m.isFree header ∧ m.isFree field then rt.bytes header field else none
  if m.vars.lookup x = some (.blank bs.length) then
    some { m with vars := (x, .bytes bs) :: m.vars }
  else none

def call (f : String) (args : List Term) (m : Machine) : Option Machine :=
  match f, args with
  | "EXTRACT_BYTEBUF_PACKET", [.name "pd", .name header, .name field, .name x] =>
    m.extract rt header field x
  | f, args => some { m with calls := m.calls ++ [(f, args)] }

end Machine

def Stmt.exec (rt : Runtime) : Stmt → Machine → Option Machine
  | .skip, m => some m
  | .call f args, m => m.call rt f args
  | .seq a b, m => (a.exec rt m).bind (b.exec rt)
  | .cond c t f, m => do
    if (← c.eval (m.store rt)) = 0 then f.exec rt m else t.exec rt m

def Item.exec (rt : Runtime) : Item → Machine → Option Machine
  | .scalar ty x value, m => do
    m.declare x (.scalar (ty.wrap (← value.eval (m.store rt))))
  | .array x (some n) none, m => m.declare x (.blank n)
  | .array _ none none, _ => none
  | .array x size (some ns), m =>
    let n := size.getD ns.length
    if ns.length ≤ n then
      m.declare x (.bytes (ns.map UInt8.ofNat ++ List.replicate (n - ns.length) 0))
    else none
  | .stmt s, m => s.exec rt m

/-- Runs a piece of code. -/
def runPiece (rt : Runtime) (m : Machine) (text : String) : Option Machine := do
  (← items text).foldlM (fun m item => item.exec rt m) m

/-- Runs one piece of code after the other. -/
def runPieces (rt : Runtime) (m : Machine) (texts : List String) : Option Machine :=
  texts.foldlM (runPiece rt) m

end PacketC.Code
