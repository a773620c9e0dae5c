import RecordMachine.Json
/-!
# Formats of record files
-/
namespace RecordMachine.Files

inductive Format
  | csv | json
  deriving DecidableEq, Repr

namespace Format

def ofName? : String → Option Format
  | "csv" => some .csv
  | "json" => some .json
  | _ => none

/-- Of two renderings of the same records the one in this format, as the contents of a file. -/
def render (format : Format) (csv : String) (json : Json) : List UInt8 :=
  let text :=
    match format with
    | .csv => csv
    | .json => json.indented 0 ++ "\n"
  text.toUTF8.toList

end Format

end RecordMachine.Files
