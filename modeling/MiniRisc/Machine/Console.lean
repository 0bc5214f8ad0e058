import MiniRisc.Machine.Fault
/-! The streams that a program reads and writes, a byte at a time. A stream may fail at any byte
and serve the next one again. -/
namespace MiniRisc

/-- Where input comes from: a stream that answers every request for a byte with the byte or with
nothing, as it fails or has ended, or one that holds text. Behind its answers a stream has ended. -/
inductive Console.Input
  | stream (answers : List (Option UInt8))
  | text
  deriving DecidableEq, Repr

/-- What an output does with a byte: it collects it, refuses it, or collects it and then fails. -/
inductive Console.Reception
  | collected | refused | failedLate
  deriving DecidableEq, Repr

/-- Where output goes: a stream with what it does with the next bytes and with all behind them, or
one that takes only text. -/
inductive Console.Output
  | stream (next : List Reception) (behind : Reception)
  | text
  deriving DecidableEq, Repr

namespace Console

def Input.bytes (unread : List UInt8) : Input := .stream (unread.map some)

def Input.failing : Input := .stream []

def Output.collecting : Output := .stream [] .collected
def Output.refusing : Output := .stream [] .refused
def Output.failingLate : Output := .stream [] .failedLate

end Console

structure Console where
  input : Console.Input := .bytes []
  output : Console.Output := .collecting
  written : Array UInt8 := #[]
  deriving DecidableEq, Repr

namespace Console

def failure : Int := -1

/-- The next byte of the input; at its end or if it fails, minus one. -/
def getByte (c : Console) : Except Trouble (Int × Console) :=
  match c.input with
  | .stream [] => .ok (failure, c)
  | .stream (none :: rest) => .ok (failure, { c with input := .stream rest })
  | .stream (some b :: rest) => .ok ((b.toNat : Int), { c with input := .stream rest })
  | .text => .error (.defect .textInput)

/-- Writes a byte and gives it back, or minus one if the output fails. -/
def putByte (c : Console) (b : UInt8) : Except Trouble (Int × Console) :=
  match c.output with
  | .stream next behind =>
    let output := .stream next.tail behind
    match next.headD behind with
    | .collected => .ok ((b.toNat : Int), { c with output, written := c.written.push b })
    | .refused => .ok (failure, { c with output })
    | .failedLate => .ok (failure, { c with output, written := c.written.push b })
  | .text => .error (.defect .textOutput)

end Console
end MiniRisc
