/-! Lines of a text. A line ends at a line feed, together with one carriage return right before
it; what follows the last line feed is a line of its own unless it is empty. -/

namespace PacketC.Text

def lineChars : List Char → List (List Char)
  | [] => []
  | '\n' :: rest => [] :: lineChars rest
  | '\r' :: '\n' :: rest => [] :: lineChars rest
  | c :: rest =>
    match lineChars rest with
    | [] => [[c]]
    | line :: lines => (c :: line) :: lines

def lines (s : String) : List String := (lineChars s.toList).map String.ofList

/-- The text without the line feeds at its end. -/
def dropFinalBreaks (s : String) : String :=
  String.ofList ((s.toList.reverse.dropWhile (· == '\n')).reverse)

/-- The texts one below the other. -/
def unlines (parts : List String) : String := String.intercalate "\n" parts

end PacketC.Text
