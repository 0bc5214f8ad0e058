import MiniRisc.Program.Image
import MiniRisc.Proofs.Assembly.Renaming
/-! The names of labels do not matter. Renamed tokens are a program whenever the tokens are. It does
the same, and its labels are the renamed ones. -/
namespace MiniRisc.Program
open Grammar

def ofTokens (lines : List String) (tokens : List Token) : Except Diagnostic Program := do
  Assembly.program (← Statement.ofTokens lines tokens)

private theorem ofSource_of_tokens {source : String} {tokens : List Token}
    (h : Token.ofSource source = .ok tokens) :
    ofSource source = ofTokens (Text.lines source) tokens := by
  rw [ofSource, Statement.ofSource, h]
  rfl

section Renamed
variable (r : Renaming)

theorem ofTokens_renamed (lines lines' : List String) (tokens : List Token) :
    ofTokens lines' (tokens.map (Token.renamed r)) =
      ((ofTokens lines tokens).map (Program.renamed r)).mapError (Diagnostic.renamed r lines') := by
  rw [ofTokens, ofTokens, Statement.ofTokens_renamed r lines]
  cases Statement.ofTokens lines tokens with
  | error d => rfl
  | ok ss => exact Assembly.program_renamed r lines' ss

private theorem operations_renamed (p : Program) : (p.renamed r).operations = p.operations := by
  simp [operations, renamed, Instruction.renamed]

private theorem toImage_renamed (p : Program) : (p.renamed r).toImage = p.toImage := by
  rw [toImage, toImage, words, words, operations_renamed]

end Renamed

/-- Tokens whose labels are renamed, each to another name and no two to the same, are a program if
and only if the tokens are. Both have the same instructions and the same image, and the labels are
the old ones under their new names, in the same order. Otherwise both are refused on the same line
and for the same reason, with the new name in it. -/
theorem program_of_renamed_labels (r : Renaming) (lines lines' : List String)
    (tokens : List Token) :
    (∀ source, Token.ofSource source = .ok tokens →
      ofSource source = ofTokens (Text.lines source) tokens ∧
      (∀ t ∈ tokens, (∀ word, t.kind ≠ .name word) → t.renamed r = t) ∧
      ∀ t ∈ tokens, ∀ word, t.kind = .name word → (Reserved word ∧ t.renamed r = t) ∨
        ∃ l : Label, l.val = word ∧ t.renamed r = { t with kind := .name (r l).val }) ∧
    ((∃ p, ofTokens lines' (tokens.map (Token.renamed r)) = .ok p) ↔
      ∃ p, ofTokens lines tokens = .ok p) ∧
    (∀ p p', ofTokens lines tokens = .ok p →
      ofTokens lines' (tokens.map (Token.renamed r)) = .ok p' →
      p'.operations = p.operations ∧ p'.toImage = p.toImage ∧
      p'.instructions = p.instructions.map (Instruction.renamed r) ∧
      p'.labels = p.labels.map (Prod.map r.rename id)) ∧
    ∀ d d', ofTokens lines tokens = .error d →
      ofTokens lines' (tokens.map (Token.renamed r)) = .error d' →
      d'.cause = d.cause.renamed r ∧ d'.line = d.line := by
  rw [ofTokens_renamed r lines]
  refine ⟨fun source h => ⟨ofSource_of_tokens h, ?_, Token.renamed_of_ofSource r h⟩, ?_, ?_, ?_⟩
  · exact fun t _ hk => Token.renamed_of_not_name r hk
  · cases ofTokens lines tokens with
    | error d => exact iff_of_false (nomatch ·) (nomatch ·)
    | ok p => exact iff_of_true ⟨p.renamed r, rfl⟩ ⟨p, rfl⟩
  · intro p p' hp hp'
    rw [hp] at hp'
    cases hp'
    exact ⟨operations_renamed r p, toImage_renamed r p, rfl, rfl⟩
  · intro d d' hd hd'
    rw [hd] at hd'
    cases hd'
    exact ⟨rfl, rfl⟩

end MiniRisc.Program
