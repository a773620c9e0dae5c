/-!
# JSON documents

The documents that logs, traces and dumps are written as, with a compact and an
indented layout.
-/
namespace RecordMachine

inductive Json
  | number (n : Nat)
  | text (s : String)
  | list (items : List Json)
  | object (members : List (String × Json))

namespace Json

def escape (c : Char) : String :=
  match c with
  | '"' => "\\\""
  | '\\' => "\\\\"
  | '\n' => "\\n"
  | '\r' => "\\r"
  | '\t' => "\\t"
  | '\x08' => "\\b"
  | '\x0c' => "\\f"
  | c =>
    if c.toNat < 0x20 then
      "\\u" ++ String.ofList (List.leftpad 4 '0' (Nat.toDigits 16 c.toNat))
    else c.toString

/-- A string literal: control characters, quotes and backslashes are escaped. -/
def quote (s : String) : String :=
  "\"" ++ String.join (s.toList.map escape) ++ "\""

mutual
def compact : Json → String
  | .number n => toString n
  | .text s => quote s
  | .list items => "[" ++ String.intercalate "," (compactItems items) ++ "]"
  | .object members => "\x7b" ++ String.intercalate "," (compactMembers members) ++ "\x7d"

def compactItems : List Json → List String
  | [] => []
  | item :: items => compact item :: compactItems items

def compactMembers : List (String × Json) → List String
  | [] => []
  | (name, value) :: members =>
    (quote name ++ ":" ++ compact value) :: compactMembers members
end

/-- A bracketed block with one entry a line, indented one level deeper than the block. -/
def block (depth : Nat) (opening closing : String) (entries : List String) : String :=
  let margin := fun n => "\n" ++ String.ofList (List.replicate (2 * n) ' ')
  if entries.isEmpty then opening ++ closing
  else opening ++ String.intercalate "," (entries.map (margin (depth + 1) ++ ·)) ++
    margin depth ++ closing

mutual
/-- The layout with one entry a line and two spaces a level. -/
def indented (depth : Nat) : Json → String
  | .number n => toString n
  | .text s => quote s
  | .list items => block depth "[" "]" (indentedItems (depth + 1) items)
  | .object members => block depth "\x7b" "\x7d" (indentedMembers (depth + 1) members)

def indentedItems (depth : Nat) : List Json → List String
  | [] => []
  | item :: items => indented depth item :: indentedItems depth items

def indentedMembers (depth : Nat) : List (String × Json) → List String
  | [] => []
  | (name, value) :: members =>
    (quote name ++ ": " ++ indented depth value) :: indentedMembers depth members
end

end Json

end RecordMachine
