import PacketC.Json.Basic

/-! Reading a JSON text. A text is one value between blanks; the readers of the parts take the
characters at hand and return what they read with the characters that follow. -/

namespace PacketC.Json.Reader

def isBlank (c : Char) : Bool := c == ' ' || c == '\n' || c == '\t' || c == '\r'

def skip (cs : List Char) : List Char := cs.dropWhile isBlank

/-! ### Strings -/

/-- What a string literal is made of: characters, and the code units of its numeric escapes. -/
inductive Piece where
  | char (c : Char)
  | unit (code : Nat)

def hexValue? (c : Char) : Option Nat :=
  if '0' ≤ c ∧ c ≤ '9' then some (c.toNat - '0'.toNat)
  else if 'a' ≤ c ∧ c ≤ 'f' then some (c.toNat - 'a'.toNat + 10)
  else if 'A' ≤ c ∧ c ≤ 'F' then some (c.toNat - 'A'.toNat + 10)
  else none

def codeUnit? (a b c d : Char) : Option Nat := do
  return (((← hexValue? a) * 16 + (← hexValue? b)) * 16 + (← hexValue? c)) * 16 + (← hexValue? d)

/-- The character that a backslash and the given letter stand for. -/
def shortEscape? : Char → Option Char
  | '"' => some '"'
  | '\\' => some '\\'
  | '/' => some '/'
  | 'b' => some '\x08'
  | 'f' => some '\x0c'
  | 'n' => some '\n'
  | 'r' => some '\r'
  | 't' => some '\t'
  | _ => none

/-- The pieces of a literal whose opening quote has been read. -/
def pieces : List Char → Option (List Piece × List Char)
  | [] => none
  | '"' :: rest => some ([], rest)
  | '\\' :: 'u' :: a :: b :: c :: d :: rest => do
    let code ← codeUnit? a b c d
    let (ps, rest) ← pieces rest
    return (.unit code :: ps, rest)
  | '\\' :: e :: rest => do
    let c ← shortEscape? e
    let (ps, rest) ← pieces rest
    return (.char c :: ps, rest)
  | c :: rest =>
    if c.toNat < 0x20 then none
    else do
      let (ps, rest) ← pieces rest
      return (.char c :: ps, rest)

def isHighSurrogate (code : Nat) : Bool := 0xd800 ≤ code && code ≤ 0xdbff

def isLowSurrogate (code : Nat) : Bool := 0xdc00 ≤ code && code ≤ 0xdfff

/-- The characters that the pieces stand for, if each surrogate has its partner. -/
def assemble : List Piece → Option (List Char)
  | [] => some []
  | .char c :: rest => (assemble rest).map (c :: ·)
  | .unit code :: rest =>
    if isLowSurrogate code then none
    else if isHighSurrogate code then
      match rest with
      | .unit low :: rest =>
        if isLowSurrogate low then
          (assemble rest).map
            (Char.ofNat (0x10000 + (code - 0xd800) * 0x400 + (low - 0xdc00)) :: ·)
        else none
      | _ => none
    else (assemble rest).map (Char.ofNat code :: ·)

/-- A string literal whose opening quote has been read. -/
def string (cs : List Char) : Option (Option String × List Char) := do
  let (ps, rest) ← pieces cs
  return ((assemble ps).map String.ofList, rest)

/-! ### Numbers -/

def digits (cs : List Char) : List Char × List Char := cs.span Char.isDigit

/-- A point with at least one digit, or nothing. -/
def fraction : List Char → Option (List Char × List Char)
  | '.' :: cs =>
    match digits cs with
    | ([], _) => none
    | (ds, rest) => some ('.' :: ds, rest)
  | cs => some ([], cs)

/-- The sign of an exponent, or nothing. -/
def exponentSign : List Char → List Char × List Char
  | '+' :: cs => (['+'], cs)
  | '-' :: cs => (['-'], cs)
  | cs => ([], cs)

/-- The digits of an exponent after its mark. -/
def exponentDigits (mark : Char) (cs : List Char) : Option (List Char × List Char) :=
  match exponentSign cs with
  | (sign, cs) =>
    match digits cs with
    | ([], _) => none
    | (ds, rest) => some (mark :: (sign ++ ds), rest)

/-- A mark, a sign if there is one, and at least one digit, or nothing. -/
def exponent : List Char → Option (List Char × List Char)
  | 'e' :: cs => exponentDigits 'e' cs
  | 'E' :: cs => exponentDigits 'E' cs
  | cs => some ([], cs)

/-- A number without its sign. -/
def magnitude (negative : Bool) (cs : List Char) : Option (Json × List Char) :=
  match digits cs with
  | ([], _) => none
  | ('0' :: _ :: _, _) => none
  | (ds, rest) => do
    let (frac, rest) ← fraction rest
    let (exp, rest) ← exponent rest
    let n := Nat.ofDigitChars 10 ds 0
    if frac.isEmpty && exp.isEmpty && !(negative && n == 0) then
      return (.int (if negative then -(n : Int) else n), rest)
    else
      let sign := if negative then ['-'] else []
      return (.real (String.ofList (sign ++ ds ++ frac ++ exp)), rest)

def number : List Char → Option (Json × List Char)
  | '-' :: cs => magnitude true cs
  | cs => magnitude false cs

/-! ### Values -/

mutual

/-- A value, with a bound on the number of values and separators that are read. -/
def value : Nat → List Char → Option (Json × List Char)
  | 0, _ => none
  | fuel + 1, cs =>
    match skip cs with
    | 'n' :: 'u' :: 'l' :: 'l' :: rest => some (.null, rest)
    | 't' :: 'r' :: 'u' :: 'e' :: rest => some (.bool true, rest)
    | 'f' :: 'a' :: 'l' :: 's' :: 'e' :: rest => some (.bool false, rest)
    | '"' :: rest => (string rest).map fun r => (.str r.1, r.2)
    | '[' :: rest =>
      match skip rest with
      | ']' :: rest => some (.arr [], rest)
      | rest => do
        let (j, rest) ← value fuel rest
        let (js, rest) ← items fuel rest
        return (.arr (j :: js), rest)
    | '{' :: rest =>
      match skip rest with
      | '}' :: rest => some (.obj [], rest)
      | rest => do
        let (m, rest) ← member fuel rest
        let (ms, rest) ← members fuel rest
        return (.obj (m :: ms), rest)
    | rest => number rest

/-- The items after the first, with the bracket that closes the array. -/
def items : Nat → List Char → Option (List Json × List Char)
  | 0, _ => none
  | fuel + 1, cs =>
    match skip cs with
    | ']' :: rest => some ([], rest)
    | ',' :: rest => do
      let (j, rest) ← value fuel rest
      let (js, rest) ← items fuel rest
      return (j :: js, rest)
    | _ => none

def member : Nat → List Char → Option ((Option String × Json) × List Char)
  | 0, _ => none
  | fuel + 1, cs =>
    match skip cs with
    | '"' :: rest => do
      let (key, rest) ← string rest
      match skip rest with
      | ':' :: rest => do
        let (j, rest) ← value fuel rest
        return ((key, j), rest)
      | _ => none
    | _ => none

/-- The members after the first, with the brace that closes the object. -/
def members : Nat → List Char → Option (List (Option String × Json) × List Char)
  | 0, _ => none
  | fuel + 1, cs =>
    match skip cs with
    | '}' :: rest => some ([], rest)
    | ',' :: rest => do
      let (m, rest) ← member fuel rest
      let (ms, rest) ← members fuel rest
      return (m :: ms, rest)
    | _ => none

end

end Reader

/-- Each reader takes a character before it calls another one, so this much fuel is enough. -/
def parse? (s : String) : Option Json :=
  match Reader.value (s.length + 1) s.toList with
  | some (j, rest) => if (Reader.skip rest).isEmpty then some j else none
  | none => none

end PacketC.Json
