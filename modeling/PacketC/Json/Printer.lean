import PacketC.Json.Basic

/-! Writing a JSON tree. The indented form puts each item and member on a line of its own, two
blanks deeper than its container, and `[]` and `{}` on the line they start on; the compact form is
one line without blanks. -/

namespace PacketC.Json

/-- Only the quote, the backslash and control characters are escaped. -/
def escape (c : Char) : List Char :=
  if c = '"' then ['\\', '"']
  else if c = '\\' then ['\\', '\\']
  else if c = '\x08' then ['\\', 'b']
  else if c = '\t' then ['\\', 't']
  else if c = '\n' then ['\\', 'n']
  else if c = '\x0c' then ['\\', 'f']
  else if c = '\r' then ['\\', 'r']
  else if c.toNat < 0x20 then
    ['\\', 'u', '0', '0', Nat.digitChar (c.toNat / 16), Nat.digitChar (c.toNat % 16)]
  else [c]

def quote (s : List Char) : List Char := '"' :: (s.flatMap escape ++ ['"'])

/-- A literal for a string: one that stands for no character if there is no text. -/
def textChars : Option String → List Char
  | some s => quote s.toList
  | none => ['"', '\\', 'u', 'd', '8', '0', '0', '"']

def intChars : Int → List Char
  | .ofNat n => Nat.toDigits 10 n
  | .negSucc n => '-' :: Nat.toDigits 10 (n + 1)

/-- A new line at the given level. -/
def lineBreak (level : Nat) : List Char := '\n' :: List.replicate (2 * level) ' '

mutual

/-- The indented form, for a value that starts at the given level. -/
def prettyChars (level : Nat) : Json → List Char
  | .null => ['n', 'u', 'l', 'l']
  | .bool true => ['t', 'r', 'u', 'e']
  | .bool false => ['f', 'a', 'l', 's', 'e']
  | .int n => intChars n
  | .real literal => literal.toList
  | .str t => textChars t
  | .arr [] => ['[', ']']
  | .arr (j :: rest) =>
    '[' :: (lineBreak (level + 1) ++ prettyChars (level + 1) j ++ prettyItems (level + 1) rest
      ++ lineBreak level ++ [']'])
  | .obj [] => ['{', '}']
  | .obj ((key, j) :: rest) =>
    '{' :: (lineBreak (level + 1) ++ textChars key ++ [':', ' '] ++ prettyChars (level + 1) j
      ++ prettyMembers (level + 1) rest ++ lineBreak level ++ ['}'])

/-- The items after the first. -/
def prettyItems (level : Nat) : List Json → List Char
  | [] => []
  | j :: rest => ',' :: (lineBreak level ++ prettyChars level j ++ prettyItems level rest)

/-- The members after the first. -/
def prettyMembers (level : Nat) : List (Option String × Json) → List Char
  | [] => []
  | (key, j) :: rest =>
    ',' :: (lineBreak level ++ textChars key ++ [':', ' '] ++ prettyChars level j
      ++ prettyMembers level rest)

end

def pretty (j : Json) : String := String.ofList (prettyChars 0 j)

mutual

def compactChars : Json → List Char
  | .arr [] => ['[', ']']
  | .arr (j :: rest) => '[' :: (compactChars j ++ compactItems rest ++ [']'])
  | .obj [] => ['{', '}']
  | .obj ((key, j) :: rest) =>
    '{' :: (textChars key ++ ':' :: compactChars j ++ compactMembers rest ++ ['}'])
  | j => prettyChars 0 j

def compactItems : List Json → List Char
  | [] => []
  | j :: rest => ',' :: (compactChars j ++ compactItems rest)

def compactMembers : List (Option String × Json) → List Char
  | [] => []
  | (key, j) :: rest => ',' :: (textChars key ++ ':' :: compactChars j ++ compactMembers rest)

end

def compact (j : Json) : String := String.ofList (compactChars j)

end PacketC.Json
