/-! Log entries: where they come from, how much they matter, and what they say. -/
namespace MiniRisc.Log

inductive Level
  | debug | info | warning
  deriving DecidableEq, Repr

def Level.title : Level → String
  | debug => "DEBUG" | info => "INFO" | warning => "WARNING"

inductive Origin
  | command | assembler | machine | services
  deriving DecidableEq, Repr

def Origin.title : Origin → String
  | command => "srisc"
  | assembler => "simple_risc.assembler"
  | machine => "simple_risc.emulator.emu"
  | services => "simple_risc.emulator.syscalls"

structure Entry where
  origin : Origin
  level : Level
  message : String
  deriving DecidableEq, Repr

def Entry.render (e : Entry) : String :=
  "[" ++ e.origin.title ++ "] " ++ e.level.title ++ ": " ++ e.message

/-- Whether an entry is shown: warnings always, all else if it is asked for. -/
def Entry.shown (verbose : Bool) (e : Entry) : Bool := verbose || e.level == .warning

end MiniRisc.Log
