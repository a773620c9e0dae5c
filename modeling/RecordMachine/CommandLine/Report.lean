import RecordMachine.CommandLine.Arguments
/-!
# Reports

What the program prints for a request, and the exit code that it ends with.
-/
namespace RecordMachine

open Files

structure Report where
  exitCode : UInt32
  output : String
  errors : String
  deriving DecidableEq, Repr

namespace Report

def success (output : String) : Report := ⟨0, output, ""⟩

def failure (error : CommandError) : Report := ⟨1, "", s!"error: {error.message}\n"⟩

def ofResult : Except CommandError String → Report
  | .ok output => success output
  | .error error => failure error

end Report

namespace Arguments

def usageText : String := Text.unlines [
  "Usage: uvm [OPTIONS] <COMMAND>",
  "",
  "Commands:",
  "  assemble <PROGRAM> <BINARY_OUT> <LOG_OUT>",
  "  execute <BINARY> <TRACE_OUT> <DUMP_OUT> --range <RANGE> [--memory-size <N>]",
  "          [--max-steps <N>] [--registers]",
  "  disassemble <BINARY> [--strict]",
  "  help [COMMAND]",
  "",
  "Options:",
  "  -v, --verbose",
  "      --format <csv|json>",
  "  -h, --help",
  "  -V, --version"]

/-- Help that was asked for is output, and help for a wrong argument list is an error. -/
def Stop.report : Stop → Report
  | .usage => ⟨1, "", usageText⟩
  | .help => .success usageText
  | .version => .success "uvm 0.1.0\n"

variable {m : Type → Type} [Monad m] [FileSystem m]

def Request.run (mark : String) : Request → m Report
  | .assemble command => return .ofResult ((← command.run mark).map fun () => "")
  | .execute command => return .ofResult ((← command.run mark).map fun () => "")
  | .disassemble command => return .ofResult (← command.run)

end Arguments

end RecordMachine
