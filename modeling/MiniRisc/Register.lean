import MiniRisc.Text.Digits
/-! The sixteen registers and their names. Register 14 is the stack pointer and has a name of its
own beside its number; register 15 receives return addresses. -/
namespace MiniRisc

abbrev Register := Fin 16

namespace Register

/-- There is a register for a numeral to name. The zero is core's own, as for powers. -/
instance : @NeZero Nat Zero.ofOfNat0 16 := ⟨by decide⟩

def stackPointer : Register := 14
def link : Register := 15

def numbered (r : Register) : String := "r" ++ Text.decimal r.val

def name (r : Register) : String := if r = stackPointer then "sp" else r.numbered

def names : List (String × Register) :=
  (List.finRange 16).map (fun r : Register => (r.numbered, r)) ++ [("sp", stackPointer)]

def ofName? (word : String) : Option Register := names.lookup word

def ofNumber? (number : Int) : Option Register :=
  if h : 0 ≤ number ∧ number < 16 then some ⟨number.toNat, by omega⟩ else none

theorem ofNumber?_val (r : Register) : ofNumber? (r.val : Int) = some r := by
  simp [ofNumber?, show (r.val : Int) < 16 by omega]

end Register
end MiniRisc
