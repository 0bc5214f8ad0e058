import MiniRisc.Instruction.Code
import MiniRisc.Program.Basic
import MiniRisc.Word
/-! Binary images of programs: the words of the instructions in order, each with its lowest byte
first. -/
namespace MiniRisc.Program

def wordsFrom (index : Nat) : List Operation → Except CodeFault (List Nat)
  | [] => .ok []
  | o :: rest => do return (← Code.encode o index) :: (← wordsFrom (index + 1) rest)

def words (p : Program) : Except CodeFault (List Nat) := wordsFrom 0 p.operations

def toImage (p : Program) : Except CodeFault (List UInt8) := do
  return (← p.words).flatMap fun (word : Nat) => Word.bytes word

/-- The words of an image; bytes that fill no word are left out. -/
def imageWords : List UInt8 → List Nat
  | a :: b :: c :: d :: rest => Word.ofBytes [a, b, c, d] :: imageWords rest
  | _ => []

def decodeFrom (index : Nat) : List Nat → Except CodeFault (List Operation)
  | [] => .ok []
  | word :: rest => do return (← Code.decode word index) :: (← decodeFrom (index + 1) rest)

def ofImage (image : List UInt8) : Except CodeFault Program :=
  if image.length % 4 ≠ 0 then .error (.raggedImage image.length)
  else do
    let operations ← decodeFrom 0 (imageWords image)
    return ⟨(operations.map fun o => { o with }).toArray, []⟩

end MiniRisc.Program
