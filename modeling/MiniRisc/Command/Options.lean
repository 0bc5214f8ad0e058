import MiniRisc.Machine.Settings
import MiniRisc.Text.Numeral
/-! Command lines. Options have long names, of which any unambiguous beginning will do, and some
have a letter; letters can be written together. One word that is no option is the input. -/
namespace MiniRisc.Command

inductive Format
  | run | image | listing | tokens
  deriving DecidableEq, Repr

namespace Format

def name : Format → String
  | run => "run" | image => "bin" | listing => "listing" | tokens => "tokens"

def ofName? (name : String) : Option Format :=
  [run, image, listing, tokens].find? (·.name == name)

end Format

inductive Switch
  | help | version | registers | trace | verbose
  deriving DecidableEq, Repr

inductive Setting
  | output | format | memorySize | stepLimit | policy
  deriving DecidableEq, Repr

structure Options where
  input : String
  output : Option String := none
  format : Option Format := none
  memorySize : Int := 16384
  stepLimit : Option Int := none
  policy : ServicePolicy := .refuse
  showRegisters : Bool := false
  trace : Bool := false
  verbose : Bool := false
  /-- Options that are there without a value. -/
  valueless : List Setting := []
  deriving DecidableEq, Repr

namespace Options

def reset (o : Options) (setting : Setting) : Options :=
  let o := { o with valueless := o.valueless.filter (· ≠ setting) }
  match setting with
  | .output => { o with output := none }
  | .format => { o with format := none }
  | .memorySize => { o with memorySize := 16384 }
  | .stepLimit => { o with stepLimit := none }
  | .policy => { o with policy := .refuse }

/-- Sets an option to a value, if it can have that value. Two dashes are no value: they leave the
option without one. -/
def set? (o : Options) (setting : Setting) (value : String) : Option Options :=
  let o := o.reset setting
  if value = "--" then some { o with valueless := setting :: o.valueless }
  else
    match setting with
    | .output => some { o with output := some value }
    | .format => (Format.ofName? value).map fun format => { o with format := some format }
    | .memorySize => (Text.integer? value).map fun memorySize => { o with memorySize }
    | .stepLimit => (Text.integer? value).map fun limit => { o with stepLimit := some limit }
    | .policy => (ServicePolicy.ofName? value).map fun policy => { o with policy }

end Options

inductive Key
  | switch (switch : Switch)
  | setting (setting : Setting)
  deriving DecidableEq, Repr

def longNames : List (String × Key) := [
  ("help", .switch .help), ("output", .setting .output), ("format", .setting .format),
  ("memory-size", .setting .memorySize), ("max-steps", .setting .stepLimit),
  ("unknown-syscall", .setting .policy), ("regs", .switch .registers), ("trace", .switch .trace),
  ("verbose", .switch .verbose), ("version", .switch .version)]

def keyOfLetter? : Char → Option Key
  | 'h' => some (.switch .help)
  | 'o' => some (.setting .output)
  | 'v' => some (.switch .verbose)
  | _ => none

/-- A word of a command line, before its place among the others is known. -/
inductive Word
  | plain (text : String)
  /-- Behind this word there are no options. -/
  | separator
  | unknown
  | letters (first : Key) (rest : List Char)
  | long (key : Key) (value : Option String)
  deriving DecidableEq, Repr

/-- Whether a word reads as a negative number, and so is no option. A line feed at its end does
not count. -/
def isNegativeNumber (word : List Char) : Bool :=
  let isDigit (c : Char) : Bool := (Text.toAsciiDigit c).isDigit
  let digits (text : List Char) : Bool := text ≠ [] && text.all isDigit
  match word with
  | '-' :: rest =>
    let rest := if rest.getLast? = some '\n' then rest.dropLast else rest
    digits rest ||
      match rest.dropWhile isDigit with
      | '.' :: fraction => digits fraction
      | _ => false
  | _ => false

def unnamed (word : String) : Word :=
  if isNegativeNumber word.toList || word.toList.contains ' ' then .plain word else .unknown

/-- The option of a long name, with the value behind an equals sign. The full name goes before
all names that it begins; a word that begins several names has no meaning. -/
def longWord (word : String) (text : List Char) : Option Word :=
  let name := text.takeWhile (· ≠ '=')
  let value := match text.dropWhile (· ≠ '=') with
    | [] => none
    | _ :: value => some (String.ofList value)
  match longNames.lookup (String.ofList name) with
  | some key => some (.long key value)
  | none =>
    match longNames.filter fun entry => name.isPrefixOf entry.1.toList with
    | [] => some (unnamed word)
    | [entry] => some (.long entry.2 value)
    | _ => none

def Word.ofString? (word : String) : Option Word :=
  match word.toList with
  | '-' :: '-' :: text => longWord word text
  | '-' :: letter :: rest =>
    match keyOfLetter? letter with
    | some key => some (.letters key rest)
    | none => some (unnamed word)
  | _ => some (.plain word)

def words? : List String → Option (List Word)
  | [] => some []
  | arg :: rest =>
    if arg = "--" then some (.separator :: rest.map .plain)
    else do return (← Word.ofString? arg) :: (← words? rest)

inductive Act
  | switch (switch : Switch)
  | set (setting : Setting) (value : String)
  /-- The value is the next word. -/
  | await (setting : Setting)
  deriving DecidableEq, Repr

/-- Letters in a row. One that takes a value takes all that follows it; behind a switch every
letter must name an option. -/
def actsInRow? : Key → List Char → Option (List Act)
  | .setting s, [] => some [.await s]
  | .setting s, value => some [.set s (String.ofList value)]
  | .switch s, [] => some [.switch s]
  | .switch s, c :: rest => do
    let key ← keyOfLetter? c
    return .switch s :: (← actsInRow? key rest)

/-- Letters behind one dash. An equals sign directly behind the first does not count, but a switch
takes no empty value. -/
def actsOfLetters? : Key → List Char → Option (List Act)
  | .setting s, ['='] => some [.set s ""]
  | .switch _, ['='] => none
  | key, '=' :: rest => actsInRow? key rest
  | key, rest => actsInRow? key rest

def actsOfLong? : Key → Option String → Option (List Act)
  | .setting s, some value => some [.set s value]
  | .setting s, none => some [.await s]
  | .switch s, none => some [.switch s]
  | .switch _, some _ => none

inductive Request
  | process (options : Options)
  | version
  | help
  /-- The command line has no meaning. -/
  | misuse
  deriving DecidableEq, Repr

structure Draft where
  input : Option String := none
  surplus : Bool := false
  options : Options := { input := "" }

namespace Draft

/-- Acts in order. Asking for the version or for help ends the command line at once. -/
def apply (d : Draft) : List Act → Except Request Draft
  | [] => .ok d
  | .switch .help :: _ => .error .help
  | .switch .version :: _ => .error .version
  | .switch .registers :: rest =>
    apply { d with options := { d.options with showRegisters := true } } rest
  | .switch .trace :: rest => apply { d with options := { d.options with trace := true } } rest
  | .switch .verbose :: rest => apply { d with options := { d.options with verbose := true } } rest
  | .set setting value :: rest =>
    match d.options.set? setting value with
    | some options => apply { d with options } rest
    | none => .error .misuse
  | .await _ :: _ => .error .misuse

def finish (d : Draft) : Request :=
  match d.input with
  | some input => if d.surplus then .misuse else .process { d.options with input }
  | none => .misuse

end Draft

/-- Acts that await a value take it from the next word, which must be plain. -/
def supply (acts : List Act) (rest : List Word) : Option (List Act × List Word) :=
  match acts.getLast?, rest with
  | some (.await setting), .plain value :: rest =>
    some (acts.dropLast ++ [.set setting value], rest)
  | some (.await _), _ => none
  | _, _ => some (acts, rest)

private theorem length_supply_le {acts acts' : List Act} {rest rest' : List Word}
    (h : supply acts rest = some (acts', rest')) : rest'.length ≤ rest.length := by
  unfold supply at h
  split at h
  · obtain ⟨-, rfl⟩ := Prod.mk.inj (Option.some.inj h); simp
  · cases h
  · obtain ⟨-, rfl⟩ := Prod.mk.inj (Option.some.inj h); exact Nat.le_refl _

def dropSeparator : List Word → List Word
  | .separator :: rest => rest
  | rest => rest

private theorem length_dropSeparator_le (rest : List Word) :
    (dropSeparator rest).length ≤ rest.length := by
  unfold dropSeparator
  split <;> simp

def Draft.read (d : Draft) : List Word → Request
  | [] => d.finish
  | .plain text :: rest =>
    match d.input with
    | none => read { d with input := some text } (dropSeparator rest)
    | some _ => read { d with surplus := true } rest
  | .separator :: rest => read { d with surplus := d.surplus || d.input.isSome } rest
  | .unknown :: rest => read { d with surplus := true } rest
  | .letters key text :: rest =>
    match _h : (actsOfLetters? key text).bind (supply · rest) with
    | none => .misuse
    | some (acts, behind) =>
      match d.apply acts with
      | .error request => request
      | .ok d => read d behind
  | .long key value :: rest =>
    match _h : (actsOfLong? key value).bind (supply · rest) with
    | none => .misuse
    | some (acts, behind) =>
      match d.apply acts with
      | .error request => request
      | .ok d => read d behind
termination_by words => words.length
decreasing_by
  · have := length_dropSeparator_le rest; simp only [List.length_cons]; omega
  · simp
  · simp
  · simp
  · obtain ⟨_, _, hs⟩ := Option.bind_eq_some_iff.1 _h
    have := length_supply_le hs; simp only [List.length_cons]; omega
  · obtain ⟨_, _, hs⟩ := Option.bind_eq_some_iff.1 _h
    have := length_supply_le hs; simp only [List.length_cons]; omega

def Request.ofArgs (args : List String) : Request :=
  match words? args with
  | some words => Draft.read {} words
  | none => .misuse

end MiniRisc.Command
