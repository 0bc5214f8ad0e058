import MiniRisc.Proofs.Program.Diagnostic
import MiniRisc.Proofs.Program.Rendering
import MiniRisc.Proofs.Statement.Kinds
import MiniRisc.Proofs.Token.Layout
/-! Programs of texts that are laid out differently. Their tokens are the same, so they are the same
program on other lines, or no program for the same reason. -/
namespace MiniRisc
open Statement

/-- Causes of one class: faults of the grammar, or the same label that is defined again or not at
all. -/
inductive Diagnostic.Cause.Alike : Cause → Cause → Prop
  | grammatical (fault fault' : SyntaxFault) (token token' : Token) :
      Alike (.grammatical fault token) (.grammatical fault' token')
  | duplicateLabel (name : String) : Alike (.duplicateLabel name) (.duplicateLabel name)
  | undefinedLabel (name : String) : Alike (.undefinedLabel name) (.undefinedLabel name)

namespace Assembly
variable {ss ss' : List Statement}

private theorem bindLabels_congr (h : ss'.map content = ss.map content) (labels : LabelTable)
    (index : Nat) : (bindLabels labels index ss').1 = (bindLabels labels index ss).1 ∧
      (bindLabels labels index ss').2.map (·.cause) =
        (bindLabels labels index ss).2.map (·.cause) := by
  induction ss generalizing ss' labels index with
  | nil =>
    obtain rfl := List.map_eq_nil_iff.1 h
    exact ⟨rfl, rfl⟩
  | cons s rest ih =>
    obtain ⟨s', rest', rfl, hs, hrest⟩ := List.map_eq_cons_iff.1 h
    obtain ⟨hlabel, hbody⟩ := Prod.mk.inj hs
    simp only [bindLabels, hlabel, hbody]
    split
    · exact ih hrest _ _
    · split
      · exact ⟨rfl, rfl⟩
      · exact ih hrest _ _

private theorem resolveOperands_unlined (labels : LabelTable) (op : Opcode) (modifier : Modifier)
    (line line' : Int) {shape : Shape} (operands : Operands shape) :
    (resolveOperands labels op modifier line' operands).map Instruction.unlined =
      (resolveOperands labels op modifier line operands).map Instruction.unlined := by
  cases operands with
  | branch name =>
    rw [resolveOperands, resolveOperands]
    cases labels.lookup name <;> rfl
  | _ => rfl

def unlined (r : Except Diagnostic (List Instruction)) :
    Except Diagnostic.Cause (List Instruction) :=
  (r.map (List.map Instruction.unlined)).mapError Diagnostic.cause

private theorem unlined_resolve_cons (labels : LabelTable) {s : Statement} {b : Body}
    (hb : s.body = some b) (rest : List Statement) : unlined (resolve labels (s :: rest)) =
      ((resolveOperands labels b.op b.modifier s.line b.operands).map
          Instruction.unlined).mapError Diagnostic.Cause.undefinedLabel >>=
        fun i => (unlined (resolve labels rest)).map (i :: ·) := by
  rw [resolve, hb]
  dsimp only
  cases resolveOperands labels b.op b.modifier s.line b.operands with
  | error name => rfl
  | ok i => cases resolve labels rest <;> rfl

private theorem resolve_congr (h : ss'.map content = ss.map content) (labels : LabelTable) :
    unlined (resolve labels ss') = unlined (resolve labels ss) := by
  induction ss generalizing ss' with
  | nil =>
    obtain rfl := List.map_eq_nil_iff.1 h
    rfl
  | cons s rest ih =>
    obtain ⟨s', rest', rfl, hs, hrest⟩ := List.map_eq_cons_iff.1 h
    obtain ⟨-, hbody⟩ := Prod.mk.inj hs
    cases hb : s.body with
    | none =>
      rw [resolve, resolve, hbody, hb]
      exact ih hrest
    | some b =>
      rw [unlined_resolve_cons labels (hbody.trans hb), unlined_resolve_cons labels hb,
        resolveOperands_unlined labels b.op b.modifier s.line s'.line, ih hrest]

/-- Statements that say the same are programs that do the same, with the same labels, or both have
the same label that is defined again or not at all. -/
theorem program_alike (h : ss'.map content = ss.map content) :
    (∃ p p', program ss = .ok p ∧ program ss' = .ok p' ∧
      p'.instructions.map Instruction.unlined = p.instructions.map Instruction.unlined ∧
      p'.labels = p.labels) ∨
    ∃ d d', program ss = .error d ∧ program ss' = .error d' ∧ d'.cause = d.cause := by
  obtain ⟨hlabels, hcause⟩ := bindLabels_congr h [] 0
  rw [program, program]
  generalize bindLabels [] 0 ss' = bound', bindLabels [] 0 ss = bound at hlabels hcause
  obtain ⟨labels', stopped'⟩ := bound'
  obtain ⟨labels, stopped⟩ := bound
  obtain rfl : labels' = labels := hlabels
  have hresolve := resolve_congr h labels'
  cases stopped' with
  | some d' =>
    obtain ⟨d, rfl, hd⟩ := Option.map_eq_some_iff.1 hcause.symm
    exact .inr ⟨d, d', rfl, rfl, hd.symm⟩
  | none =>
    obtain rfl := Option.map_eq_none_iff.1 hcause.symm
    dsimp only
    generalize resolve labels' ss' = r', resolve labels' ss = r at hresolve ⊢
    cases r' with
    | error d' =>
      cases r with
      | error d => exact .inr ⟨d, d', rfl, rfl, Except.error.inj hresolve⟩
      | ok is => cases hresolve
    | ok is' =>
      cases r with
      | error d => cases hresolve
      | ok is =>
        refine .inl ⟨⟨is.toArray, labels'⟩, ⟨is'.toArray, labels'⟩, rfl, rfl, ?_, rfl⟩
        rw [List.map_toArray, List.map_toArray]
        exact congrArg List.toArray (Except.ok.inj hresolve)

end Assembly

namespace Program
open Assembly Diagnostic

section Layouts
variable {source source' : String} {tokens tokens' : List Token}

/-- Texts whose tokens are of the same kinds are the same program on other lines, or no program for
causes of one class. -/
theorem ofSource_alike (h : Token.ofSource source = .ok tokens)
    (h' : Token.ofSource source' = .ok tokens')
    (hk : tokens'.map (·.kind) = tokens.map (·.kind)) :
    (∃ p p', ofSource source = .ok p ∧ ofSource source' = .ok p' ∧
      p'.instructions.map Instruction.unlined = p.instructions.map Instruction.unlined ∧
      p'.labels = p.labels) ∨
    ∃ d d', ofSource source = .error d ∧ ofSource source' = .error d' ∧ d'.cause.Alike d.cause := by
  rw [ofSource, ofSource]
  rcases Statement.ofSource_alike h h' hk with
    ⟨ss, ss', hs, hs', hcontent⟩ | ⟨fault, fault', token, token', text, text', hs, hs'⟩
  · rw [hs, hs']
    rcases program_alike hcontent with hp | ⟨d, d', hd, hd', hcause⟩
    · exact .inl hp
    · obtain ⟨⟨name, hname⟩, -⟩ := exists_statement_of_fails (program_error_iff.1 hd)
      refine .inr ⟨d, d', hd, hd', ?_⟩
      rw [hcause]
      rcases hname with hname | hname <;> rw [hname] <;> constructor
  · rw [hs, hs']
    exact .inr ⟨_, _, rfl, rfl, .grammatical fault' fault token' token⟩

/-- A text laid out is read as the tokens that it was laid out with, and its end. However else the
same tokens are laid out, the text is the same program on other lines, with the same labels, or
both texts are no program for causes of one class. -/
theorem layout_unseen (l : Token.Layout) :
    (∃ tokens, Token.ofSource l.source = .ok tokens ∧
      tokens.map (·.kind) = l.kinds ++ [.textEnd]) ∧
    ∀ l' : Token.Layout, l'.kinds = l.kinds →
      (∃ p p', ofSource l.source = .ok p ∧ ofSource l'.source = .ok p' ∧
        p'.sameOperations p = true ∧
        p'.instructions.map Instruction.unlined = p.instructions.map Instruction.unlined ∧
        p'.labels = p.labels) ∨
      ∃ d d', ofSource l.source = .error d ∧ ofSource l'.source = .error d' ∧
        d'.cause.Alike d.cause := by
  obtain ⟨tokens, htokens, hkinds⟩ := Token.ofSource_layout l
  refine ⟨⟨tokens, htokens, hkinds⟩, fun l' hl => ?_⟩
  obtain ⟨tokens', htokens', hkinds'⟩ := Token.ofSource_layout l'
  have hsame : tokens'.map (·.kind) = tokens.map (·.kind) := by
    rw [hkinds', hkinds, hl]
  rcases ofSource_alike htokens htokens' hsame with ⟨p, p', hp, hp', hunlined, hlabels⟩ | hd
  · exact .inl ⟨p, p', hp, hp', sameOperations_of_unlined hunlined, hunlined, hlabels⟩
  · exact .inr hd

end Layouts

/-- `mov r1, 2` with no more between its tokens than there has to be. -/
def narrowMove : Token.Layout where
  items := [.name "mov" (by decide), .blank ' ' rfl, .name "r1" (by decide), .mark .comma,
    .literal
      { sign := [], base := 10, mark := [], digits := ['2']
        signed := by decide, marked := .decimal, present := by decide
        legal := by simp [Text.isDigitOf, Text.digitValue]
        readable := by decide, low := by decide, high := by decide }]
  fits := by decide

/-- The same with comments, one of which goes over a line end and has a remark in it. -/
def wideMove : Token.Layout where
  items := [.comment ['*'] (by decide), .name "mov" (by decide),
    .comment ['/', '\r', '\n', '@'] (by decide), .name "r1" (by decide), .mark .comma,
    .blank '\t' rfl,
    .literal
      { sign := ['+'], base := 16, mark := ['0', 'x'], digits := ['0', '2']
        signed := by decide, marked := .hexadecimal, present := by decide
        legal := by simp [Text.isDigitOf, Text.digitValue]
        readable := nofun, low := by decide, high := by decide },
    .remark ['/', '*', ' ', 't', 'w', 'o'] (by decide)]
  fits := by decide

theorem layout_unseen_move : narrowMove.source = "mov r1,2" ∧
    wideMove.source = "/***/mov/*/\r\n@*/r1,\t+0x02@/* two" ∧ wideMove.kinds = narrowMove.kinds ∧
    ∃ p p', ofSource narrowMove.source = .ok p ∧ ofSource wideMove.source = .ok p' ∧
      p'.sameOperations p = true ∧ p'.labels = p.labels := by
  have hkinds : wideMove.kinds = narrowMove.kinds := by decide
  refine ⟨by decide, by decide, hkinds, ?_⟩
  rcases (layout_unseen narrowMove).2 wideMove hkinds with
    ⟨p, p', hp, hp', hsame, -, hlabels⟩ | ⟨d, d', hd, -, -⟩
  · exact ⟨p, p', hp, hp', hsame, hlabels⟩
  · have hp : ofSource "mov r1,2" = .ok
        ⟨#[{ op := .mov, rd := 1, imm := some 2, line := 1 }], []⟩ := by cbv
    cases hd.symm.trans hp

end Program
end MiniRisc
