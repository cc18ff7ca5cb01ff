/-! Replacing every occurrence of a text in another one. Occurrences are taken from the left and
do not overlap, and what has been put in is not searched again. -/

namespace PacketC.Text

/-- Passes over `skip` characters that belong to the occurrence replaced last. -/
def replaceChars (pattern replacement : List Char) : Nat → List Char → List Char
  | _, [] => []
  | skip + 1, _ :: rest => replaceChars pattern replacement skip rest
  | 0, c :: rest =>
    if pattern.isPrefixOf (c :: rest) then
      replacement ++ replaceChars pattern replacement (pattern.length - 1) rest
    else c :: replaceChars pattern replacement 0 rest

/-- For a `pattern` with at least one character. -/
def replace (pattern replacement s : String) : String :=
  String.ofList (replaceChars pattern.toList replacement.toList 0 s.toList)

end PacketC.Text
