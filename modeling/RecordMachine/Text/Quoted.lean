/-!
# Comma-separated fields

A field that holds a separator, a quote or a line break is put between quotes,
and a quote inside it is written twice.
-/
namespace RecordMachine.Text

def needsQuotes (c : Char) : Bool :=
  c == ',' || c == '"' || c == '\n' || c == '\r'

def doubleQuotes (cs : List Char) : List Char :=
  cs.flatMap fun c => if c = '"' then ['"', '"'] else [c]

/-- A text as one field of a comma-separated record. -/
def csvField (text : String) : String :=
  if text.toList.any needsQuotes then
    String.ofList ('"' :: doubleQuotes text.toList ++ ['"'])
  else text

def unlines (lines : List String) : String :=
  String.join (lines.map (· ++ "\n"))

end RecordMachine.Text
