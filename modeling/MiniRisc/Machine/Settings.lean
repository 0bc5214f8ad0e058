import MiniRisc.InvalidValue
/-! What a machine is set up with: its memory, a limit on the number of instructions, and what an
unknown service does. -/
namespace MiniRisc

/-- What asking for an unknown service does: it is a fault, or it gives minus one. -/
inductive ServicePolicy
  | refuse | answer
  deriving DecidableEq, Repr

namespace ServicePolicy

def name : ServicePolicy → String
  | refuse => "error" | answer => "return"

def ofName? (name : String) : Option ServicePolicy :=
  if name = "error" then some refuse else if name = "return" then some answer else none

def ofName (name : String) : Except InvalidValue ServicePolicy :=
  match ofName? name with
  | some policy => .ok policy
  | none => .error (.servicePolicy name)

end ServicePolicy

/-- Settings of a machine. Its memory holds a positive number of whole words. -/
structure Settings where
  memorySize : Nat := 16384
  stepLimit : Option Nat := none
  policy : ServicePolicy := .refuse
  memorySize_pos : 0 < memorySize := by decide
  memorySize_whole : memorySize % 4 = 0 := by decide
  deriving DecidableEq, Repr

namespace Settings

def limit? : Option Int → Except InvalidValue (Option Nat)
  | none => .ok none
  | some limit => if limit < 0 then .error (.stepLimit limit) else .ok (some limit.toNat)

/-- Settings of the given values. The memory is looked at first, then the limit, then the policy. -/
def make (memorySize : Int) (stepLimit : Option Int) (policy : String) :
    Except InvalidValue Settings :=
  if h : 0 < memorySize ∧ memorySize % 4 = 0 then do
    let stepLimit ← limit? stepLimit
    match ServicePolicy.ofName? policy with
    | none => .error (.policy policy)
    | some policy =>
      return ⟨memorySize.toNat, stepLimit, policy, by omega, by omega⟩
  else .error (.memorySize memorySize)

end Settings
end MiniRisc
