import MiniRisc.Instruction.Basic
import MiniRisc.Register
import MiniRisc.Word
/-! The register file, with the program counter, the flags of the last comparison, and the number
of instructions executed. A register holds a signed word: what is written is wrapped. -/
namespace MiniRisc

structure Registers where
  values : Vector Int 16 := .replicate 16 0
  pc : Int := 0
  equal : Bool := false
  greater : Bool := false
  steps : Nat := 0
  deriving DecidableEq, Repr

namespace Registers

/-- The register at a position; a negative one counts from the end. -/
def position? (index : Int) : Except Defect Register :=
  match Register.ofNumber? (if index < 0 then index + 16 else index) with
  | some r => .ok r
  | none => .error .noSuchPosition

def value (rs : Registers) (r : Register) : Int := rs.values[r]

def write (rs : Registers) (r : Register) (v : Int) : Registers :=
  { rs with values := rs.values.set r (Word.wrap v) }

def get (rs : Registers) (index : Int) : Except Defect Int :=
  return rs.value (← position? index)

def set (rs : Registers) (index v : Int) : Except Defect Registers :=
  return rs.write (← position? index) v

def nonzero (rs : Registers) : List String :=
  (List.finRange 16).filterMap fun r : Register =>
    if rs.value r = 0 then none else some (r.numbered ++ "=" ++ Text.decimal (rs.value r))

def summary (rs : Registers) : String :=
  " ".intercalate
    (("pc=" ++ Text.decimal rs.pc) ::
      ("[" ++ (if rs.equal then "E" else ".") ++ (if rs.greater then "G" else ".") ++ "]") ::
      rs.nonzero)

def flagText (flag : Bool) : String := if flag then "1" else "0"

def dump (rs : Registers) : String :=
  "\n".intercalate
    (((List.finRange 16).map fun r : Register =>
        Text.padRight 3 r.numbered ++ " = " ++ Text.decimal (rs.value r)) ++
      ["pc  = " ++ Text.decimal rs.pc, "E   = " ++ flagText rs.equal,
        "GT  = " ++ flagText rs.greater])

theorem position?_val (r : Register) : position? (r.val : Int) = .ok r := by
  have : ¬ ((r.val : Int) < 0) := by omega
  simp [position?, this, Register.ofNumber?_val]

theorem value_write (rs : Registers) (r : Register) (v : Int) :
    (rs.write r v).value r = Word.wrap v := by
  simp [value, write]

theorem value_write_of_ne {r s : Register} (rs : Registers) (v : Int) (h : r ≠ s) :
    (rs.write r v).value s = rs.value s := by
  have : r.val ≠ s.val := fun e => h (Fin.ext e)
  simp [value, write, Vector.getElem_set_ne, this]

end Registers
end MiniRisc
