/-! The pieces of a text between single occurrences of a character. -/

namespace PacketC.Text

def splitChars (separator : Char) : List Char → List (List Char)
  | [] => [[]]
  | c :: rest =>
    if c = separator then [] :: splitChars separator rest
    else
      match splitChars separator rest with
      | [] => [[c]]
      | word :: words => (c :: word) :: words

/-- The pieces between blanks; two blanks in a row have an empty piece between them. -/
def words (s : String) : List String := (splitChars ' ' s.toList).map String.ofList

def unwords (parts : List String) : String := String.intercalate " " parts

end PacketC.Text
