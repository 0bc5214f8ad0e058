import MiniRisc.Opcode
import MiniRisc.Text.Quoted
/-! Settings and choices that are not legal, and the words for them. -/
namespace MiniRisc

inductive InvalidValue
  | memorySize (size : Int)
  | stepLimit (limit : Int)
  /-- An unknown service policy among the settings. -/
  | policy (name : String)
  /-- No policy for unknown services where the settings need one. -/
  | noPolicy
  /-- An unknown service policy given to the services themselves. -/
  | servicePolicy (name : String)
  | outputKind (name : String)
  | modifier (number : Int)
  deriving DecidableEq, Repr

def InvalidValue.message : InvalidValue → String
  | memorySize size =>
    Text.withNumber size ("memory_size must be a positive multiple of 4, got " ++ ·)
  | stepLimit limit => Text.withNumber limit ("max_steps must be >= 0, got " ++ ·)
  | policy name => policyExpected ++ Text.quoted name
  | noPolicy => policyExpected ++ "[]"
  | servicePolicy name => "unknown syscall policy " ++ Text.quoted name
  | outputKind name => "unknown output kind " ++ Text.quoted name
  | modifier number => Text.withNumber number (· ++ " is not a valid Modifier")
where
  policyExpected : String := "unknown_syscall must be one of ('error', 'return'), got "

def Modifier.ofInt (number : Int) : Except InvalidValue Modifier :=
  match if 0 ≤ number then ofNumber? number.toNat else none with
  | some modifier => .ok modifier
  | none => .error (.modifier number)

end MiniRisc
