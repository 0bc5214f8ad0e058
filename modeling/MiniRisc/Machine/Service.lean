import MiniRisc.Log
import MiniRisc.Machine.Console
import MiniRisc.Machine.Settings
/-! Services that a program asks for by number. Service 0 reads a byte, service 1 writes the low
byte of its first argument, and there is no other. -/
namespace MiniRisc.Service

def call (policy : ServicePolicy) (number : Int) (args : List Int) (c : Console) :
    Except Trouble (Int × Console) :=
  if number = 0 then c.getByte
  else if number = 1 then
    match args with
    | [] => .error (.defect .noSuchPosition)
    | first :: _ => c.putByte (.ofNat (first % 2 ^ 8).toNat)
  else
    match policy with
    | .refuse => .error (.ofCause (.unknownService number))
    | .answer => .ok (Console.failure, c)

/-- What is logged of a call: known services with their arguments, unknown ones if they are
answered. -/
def notices (policy : ServicePolicy) (number : Int) (args : List Int) : List Log.Entry :=
  if number = 0 ∨ number = 1 then
    [⟨.services, .debug, "syscall " ++ Text.decimal number ++ " args=[" ++
      ", ".intercalate (args.map Text.decimal) ++ "]"⟩]
  else
    match policy with
    | .refuse => []
    | .answer => [⟨.services, .warning, "unknown syscall " ++ Text.decimal number ++
        ", returning " ++ Text.decimal Console.failure⟩]

end MiniRisc.Service
