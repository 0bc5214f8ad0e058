import MiniRisc.Proofs.Assembly.Paired
import MiniRisc.Proofs.Machine.Step
import MiniRisc.Proofs.Statement.Kinds
import MiniRisc.Proofs.Token.Numeral
import MiniRisc.Proofs.Word.Bits
/-! Numerals in programs. What is moved to a register is the integer that the numeral denotes, as
far as the sixteen bits of an immediate go, and numerals that agree in them are the same. -/
namespace MiniRisc
open Statement

def Instruction.move (m : Modifier) (r : Register) (pattern : Nat) (line : Int) : Instruction :=
  { op := .mov, modifier := m, rd := r.val, imm := some ((pattern % 2 ^ 16 : Nat) : Int), line }

section Move
variable {m : Modifier} {r : Register} {pattern : Nat}

private theorem Assembly.program_move {s : Statement}
    (h : s.content = (none, some ⟨.mov, m, .two r (.immediate pattern)⟩)) :
    program [s] = .ok ⟨#[.move m r pattern s.line], []⟩ := by
  obtain ⟨hlabel, hbody⟩ := Prod.mk.inj h
  rw [program, bindLabels, hlabel, hbody]
  simp only [bindLabels]
  rw [resolve, hbody]
  rfl

/-- A move leaves in its register what the immediate is widened to. -/
theorem Machine.step_move {machine : Machine} {line : Int}
    (hi : machine.current? = some (.move m r pattern line)) : machine.step.1 = .ok none ∧
      machine.step.2.state.registers.value r = Word.widen m ((pattern % 2 ^ 16 : Nat) : Int) := by
  have haction : (Instruction.move m r pattern line).action? =
      some (.move r (.immediate m ((pattern % 2 ^ 16 : Nat) : Int))) :=
    Operation.action?_eq_some_iff.2 ⟨r, 0, rfl, rfl, rfl⟩
  have hfits := Word.fits_widen m ((pattern % 2 ^ 16 : Nat) : Int)
  obtain ⟨trace, journal, hstep⟩ := step_of_action hi haction
  rw [hstep]
  refine ⟨rfl, (Registers.value_write ..).trans ?_⟩
  exact Word.wrap_of_fits hfits.1 hfits.2

end Move

namespace Token

namespace Layout

def tokens (l : Layout) : List Item := l.items.filter (·.segment.kind?.isSome)

private theorem kinds_eq (l : Layout) : l.kinds = l.tokens.filterMap (·.segment.kind?) := by
  rw [kinds, tokens, List.filterMap_filter]
  congr
  funext i
  cases i.segment.kind? <;> rfl

/-- Programs of layouts that differ in one literal. -/
theorem ofSource_replaced {front back : List Item} {a a' : Literal} {l l' : Layout} {p : Program}
    (hl : l.items = front ++ .literal a :: back) (hl' : l'.items = front ++ .literal a' :: back)
    (hp : Program.ofSource l.source = .ok p) : ∃ p', Program.ofSource l'.source = .ok p' ∧
      (p'.operations = p.operations ↔ Agree [(a.pattern, a'.pattern)]) := by
  obtain ⟨tokens, htokens, hkinds⟩ := ofSource_layout l
  obtain ⟨tokens', htokens', hkinds'⟩ := ofSource_layout l'
  obtain ⟨ss, hs, hprogram⟩ := Outcome.bind_eq_ok_iff.1 hp
  have hpaired : OneByOne Kind.Paired l.kinds l'.kinds [(a.pattern, a'.pattern)] := by
    rw [kinds, kinds, hl, hl', List.filterMap_append, List.filterMap_append]
    exact .at_one .same (.literal ..) _ _
  obtain ⟨ss', hs', hpairs⟩ :=
    Statement.ofSource_paired htokens htokens' hkinds hkinds' hpaired hs
  obtain ⟨p', hp', hoperations⟩ := Assembly.program_paired hpairs hprogram
  refine ⟨p', ?_, hoperations⟩
  rw [Program.ofSource, hs']
  exact hp'

end Layout

namespace Numeral
variable {n n' : Numeral}

/-- The word that a number is moved to a register as: the sign extension of its low sixteen bits,
their zero extension, or these bits times 2^16. -/
def moved (m : Modifier) (value : Int) : BitVec 32 :=
  match m with
  | .signed => (BitVec.ofInt 16 value).signExtend 32
  | .unsigned => (BitVec.ofInt 16 value).zeroExtend 32
  | .high => BitVec.ofInt 32 (value % 2 ^ 16 * 2 ^ 16)

/-- What a numeral means. By itself it is one token with its integer as a pattern of 32 bits, unless
the integer is out of range. That integer is told, or else that it has too many digits. Moved to a
register it leaves its integer there, in as far as sixteen bits hold it. In place of another numeral
in a program it makes no difference exactly if the integers have the same sixteen bits. -/
structure Means (n : Numeral) : Prop where
  read : ofSource (String.ofList n.text) =
    if n.Fits then
      .ok [⟨.integer (n.value % 2 ^ 32).toNat, {}⟩, ⟨.textEnd, ⟨1, 1 + n.text.length⟩⟩]
    else if n.value.natAbs < 10 ^ Text.digitLimit then
      .error (.lexical (.outOfRange n.value) {} (String.ofList n.text))
    else .error { cause := .numeral .writing }
  move (h : n.Fits) (m : Modifier) (r : Register) (word : String) (hm : IsWord ("mov" ++ m.suffix))
    (hw : IsWord word) (l : Layout) : Register.ofName? word = some r →
      l.tokens = [.name ("mov" ++ m.suffix) hm, .name word hw, .mark .comma,
        .literal (n.literal h)] →
      ∃ p, Program.ofSource l.source = .ok p ∧ ∀ machine : Machine, machine.program = p →
        machine.state.registers.pc = 0 → machine.step.1 = .ok none ∧
          machine.step.2.state.registers.value r = (moved m n.value).toInt
  same (n' : Numeral) (h : n.Fits) (h' : n'.Fits) (front back : List Item) (l l' : Layout)
    (p : Program) : l.items = front ++ .literal (n.literal h) :: back →
      l'.items = front ++ .literal (n'.literal h') :: back → Program.ofSource l.source = .ok p →
      ∃ p', Program.ofSource l'.source = .ok p' ∧
        (p'.operations = p.operations ↔ n'.value ≡ n.value [ZMOD 2 ^ 16])

private theorem widen_pattern (h : n.Fits) (m : Modifier) :
    Word.widen m (((n.literal h).pattern % 2 ^ 16 : Nat) : Int) = (moved m n.value).toInt := by
  have hfield : (((n.literal h).pattern % 2 ^ 16 : Nat) : Int) = n.value % 2 ^ 16 := by
    rw [pattern_literal]
    omega
  have hlow : BitVec.ofInt 16 (n.value % 2 ^ 16) = BitVec.ofInt 16 n.value := by
    apply BitVec.eq_of_toInt_eq
    rw [BitVec.toInt_ofInt, BitVec.toInt_ofInt]
    exact Int.emod_bmod n.value (2 ^ 16)
  have hmoved : Word.bits (Word.widen m (n.value % 2 ^ 16)) = moved m n.value := by
    cases m with
    | signed => rw [Word.bits_widen, hlow, moved]
    | unsigned => rw [Word.bits_widen, hlow, moved]
    | high => rw [Word.widen, Word.bits_wrap, Int.emod_emod_of_dvd _ (dvd_refl _), moved]
  rw [hfield, ← hmoved, Word.toInt_bits (Word.fits_widen m _)]

private theorem ofSource_move (h : n.Fits) (m : Modifier) {r : Register} {word : String}
    {hm : IsWord ("mov" ++ m.suffix)} {hw : IsWord word} (hr : Register.ofName? word = some r)
    {l : Layout} (hl : l.tokens = [.name ("mov" ++ m.suffix) hm, .name word hw, .mark .comma,
      .literal (n.literal h)]) :
    ∃ line, Program.ofSource l.source = .ok ⟨#[.move m r (n.literal h).pattern line], []⟩ := by
  obtain ⟨tokens, htokens, hkinds⟩ := ofSource_layout l
  have hmove : l.kinds = .name ("mov" ++ m.suffix) ::
      [.name word, .mark .comma, .integer (n.literal h).pattern] := by
    rw [Layout.kinds_eq, hl]
    rfl
  have inner : ∀ kind ∈ l.kinds, kind.endsLine = false := by
    rw [hmove]
    simp [Kind.endsLine]
  let b : Body := ⟨.mov, m, .two r (.immediate (n.literal h).pattern)⟩
  have legal : b.Legal := fun _ => ⟨rfl, rfl⟩
  have hb : Grammar.InstructionTokens l.kinds b := by
    rw [hmove]
    exact .mk (.two (Grammar.registerName_iff.2 hr) (.literal _)) legal
  have hline : Grammar.Line l.kinds none (some b) := .instruction hb
  obtain ⟨s, hs, hcontent⟩ := Statement.ofSource_of_line (c := (none, some b)) htokens hkinds inner
    hline
  refine ⟨s.line, ?_⟩
  rw [Program.ofSource, hs]
  exact Assembly.program_move hcontent

private theorem agree_literal (h : n.Fits) (h' : n'.Fits) :
    Agree [((n.literal h).pattern, (n'.literal h').pattern)] ↔
      n'.value ≡ n.value [ZMOD 2 ^ 16] := by
  rw [Agree, List.forall_mem_singleton, pattern_literal, pattern_literal, Int.ModEq]
  dsimp only
  omega

/-- Every numeral means the integer that it denotes. -/
theorem means_value (n : Numeral) : n.Means where
  read := n.ofSource_text
  move := by
    intro h m r word hm hw l hr hl
    obtain ⟨line, hp⟩ := ofSource_move h m hr hl
    refine ⟨_, hp, fun machine hprogram hpc => ?_⟩
    rw [← widen_pattern h m]
    have hcurrent : machine.current? = some (.move m r (n.literal h).pattern line) := by
      rw [Machine.current?, hprogram, hpc]
      rfl
    exact Machine.step_move hcurrent
  same := by
    intro n' h h' front back l l' p hl hl' hp
    rw [← agree_literal h h']
    exact Layout.ofSource_replaced hl hl' hp

def lowest : Numeral where
  sign := ['-']
  base := 16
  mark := ['0', 'x']
  digits := ['8', '0', '0', '0']
  signed := by decide
  marked := .hexadecimal
  present := by decide
  legal := List.all_iff_forall_prop.1 (by decide)
  readable := nofun

private theorem no_sign : ([] : List Char) ∈ [[], ['+'], ['-']] := List.mem_cons_self

def halfway : Numeral where
  sign := []
  base := 10
  mark := []
  digits := ['3', '2', '7', '6', '8']
  signed := no_sign
  marked := .decimal
  present := by decide
  legal := List.all_iff_forall_prop.1 (by decide)
  readable := by decide

private theorem fits_lowest : lowest.Fits := by decide

private theorem fits_halfway : halfway.Fits := by decide

private theorem isSpace_space : Lexeme.isSpace ' ' = true := rfl

def moveHigh : List Item :=
  [.name "movh" (by decide), .blank ' ' isSpace_space, .name "sp" (by decide), .mark .comma,
    .blank ' ' isSpace_space]

def moveHighOf (a : Literal) : Layout where
  items := moveHigh ++ [.literal a]
  fits := by
    have hfront : moveHigh.IsChain Item.Precedes := by decide
    have hlast : Item.Precedes (.blank ' ' isSpace_space) (.literal a) := ⟨nofun, nofun⟩
    exact hfront.append (.singleton _) (by simpa [moveHigh] using hlast)

theorem means_value_lowest :
    (moveHighOf (lowest.literal fits_lowest)).source = "movh sp, -0x8000" ∧
    (moveHighOf (halfway.literal fits_halfway)).source = "movh sp, 32768" ∧
    ∃ p, Program.ofSource "movh sp, -0x8000" = .ok p ∧
      (∀ machine : Machine, machine.program = p → machine.state.registers.pc = 0 →
        machine.step.2.state.registers.value .stackPointer = -2147483648) ∧
      ∃ p', Program.ofSource "movh sp, 32768" = .ok p' ∧ p'.operations = p.operations := by
  have hsource : (moveHighOf (lowest.literal fits_lowest)).source = "movh sp, -0x8000" := by decide
  have hsource' : (moveHighOf (halfway.literal fits_halfway)).source = "movh sp, 32768" := by decide
  obtain ⟨p, hp, hmove⟩ := (means_value lowest).move fits_lowest .high .stackPointer "sp"
    (by decide) (by decide) (moveHighOf (lowest.literal fits_lowest)) (by decide) rfl
  obtain ⟨p', hp', hsame⟩ := (means_value lowest).same halfway fits_lowest fits_halfway
    moveHigh [] _ (moveHighOf (halfway.literal fits_halfway)) p rfl rfl hp
  have hvalue : (moved .high lowest.value).toInt = -2147483648 := by decide
  rw [hsource] at hp
  rw [hsource'] at hp'
  refine ⟨hsource, hsource', p, hp, fun machine hprogram hpc => ?_, p', hp', hsame.2 (by decide)⟩
  rw [(hmove machine hprogram hpc).2, hvalue]

def lowestHex (count : Nat) (some : count ≠ 0) : Numeral where
  sign := ['-']
  base := 16
  mark := ['0', 'x']
  digits := List.replicate count 'F'
  signed := by decide
  marked := .hexadecimal
  present := by simpa using some
  legal := fun c hc => List.eq_of_mem_replicate hc ▸ by decide
  readable := nofun

private theorem unread_lowestHex {width : Nat} (some : width * 100 ≠ 0) (h : 10 ^ 43 < 16 ^ width) :
    ¬ (lowestHex (width * 100) some).Fits ∧
      ofSource (String.ofList (lowestHex (width * 100) some).text) =
        .error { cause := .numeral .writing } := by
  have long : 10 ^ Text.digitLimit ≤ (lowestHex (width * 100) some).value.natAbs := by
    rw [← literalValue_eq]
    exact le_literalValue_replicate ['-'] (show Text.digitValue 'F' + 1 = 16 by decide) h
  have far : ¬ (lowestHex (width * 100) some).Fits := fun fits =>
    absurd (Lexeme.short_of_window fits.1 fits.2) (Nat.not_lt.2 long)
  refine ⟨far, ?_⟩
  rw [ofSource_text, if_neg far, if_neg (Nat.not_lt.2 long)]

/-- The integer of 4000 hexadecimal digits is out of range, and is not told. -/
theorem read_lowestHex : ¬ (lowestHex 4000 (by decide)).Fits ∧
    ofSource (String.ofList (lowestHex 4000 (by decide)).text) =
      .error { cause := .numeral .writing } :=
  unread_lowestHex (show 40 * 100 ≠ 0 by decide) (by decide)

end Numeral
end Token
end MiniRisc
