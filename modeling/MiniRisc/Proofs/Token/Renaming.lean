import MiniRisc.Proofs.Statement.Grammar
import MiniRisc.Proofs.Token.Spelling
/-! Renaming of labels. A label is a word without a meaning of its own. A renaming gives every label
another one and none of them twice, and it leaves all other words as they are. -/
namespace MiniRisc
open Grammar

instance (word : String) : Decidable (Reserved word) := decidable_of_iff _ reserved_iff.symm

/-- Words that can name a label. -/
def Label : Type := { word : String // IsWord word ∧ ¬ Reserved word }

/-- New names for labels, different ones for different labels. -/
abbrev Renaming : Type := Label ↪ Label

namespace Renaming
variable (r : Renaming) {word : String}

def rename (word : String) : String :=
  if h : IsWord word ∧ ¬ Reserved word then (r ⟨word, h⟩).val else word

private theorem rename_label (l : Label) : r.rename l.val = (r l).val := dif_pos l.property

private theorem rename_of_reserved (h : Reserved word) : r.rename word = word :=
  dif_neg fun hl => hl.2 h

private theorem reserved_rename_iff : Reserved (r.rename word) ↔ Reserved word := by
  rw [rename]
  split
  · rename_i h
    exact iff_of_false (r ⟨word, h⟩).property.2 h.2
  · exact Iff.rfl

/-- No two words become the same. -/
theorem rename_injective : Function.Injective r.rename := by
  intro word other h
  unfold rename at h
  split at h
  · split at h
    · exact congrArg Subtype.val (r.injective (Subtype.ext h))
    · rename_i hw ho
      exact absurd (h ▸ (r ⟨word, hw⟩).property) ho
  · split at h
    · rename_i hw ho
      exact absurd (h ▸ (r ⟨other, ho⟩).property) hw
    · exact h

/-- What is said of reserved words alone, and not of others, is said of a renamed word as well. -/
private theorem lookup_rename {α : Type} {lookup : String → Option α}
    (h : ∀ word, (lookup word).isSome → Reserved word) (word : String) :
    lookup (r.rename word) = lookup word := by
  by_cases hr : Reserved word
  · rw [r.rename_of_reserved hr]
  · have hnone (word : String) (hr : ¬ Reserved word) : lookup word = none :=
      Option.not_isSome_iff_eq_none.1 fun hs => hr (h word hs)
    rw [hnone word hr, hnone _ fun hn => hr (r.reserved_rename_iff.1 hn)]

theorem ofName?_rename (word : String) :
    Register.ofName? (r.rename word) = Register.ofName? word := by
  refine r.lookup_rename (fun word hs => ?_) word
  obtain ⟨register, h⟩ := Option.isSome_iff_exists.1 hs
  exact .register (registerName_iff.2 h)

theorem splitMnemonic?_rename (word : String) :
    Vocabulary.splitMnemonic? (r.rename word) = Vocabulary.splitMnemonic? word := by
  refine r.lookup_rename (fun word hs => ?_) word
  obtain ⟨⟨op, modifier⟩, h⟩ := Option.isSome_iff_exists.1 hs
  exact splitMnemonic?_eq_some_iff.1 h ▸ .mnemonic op modifier

theorem isReserved_rename (word : String) :
    Vocabulary.isReserved (r.rename word) = Vocabulary.isReserved word := by
  rw [Vocabulary.isReserved, r.ofName?_rename, r.splitMnemonic?_rename, Vocabulary.isReserved]

end Renaming

section Tokens
variable (r : Renaming)

def Token.Kind.renamed : Token.Kind → Token.Kind
  | name word => name (r.rename word)
  | kind => kind

def Token.renamed (t : Token) : Token := { t with kind := t.kind.renamed r }

def SyntaxFault.renamed : SyntaxFault → SyntaxFault
  | colonMissing word => colonMissing (r.rename word)
  | unknownMnemonic word => unknownMnemonic (r.rename word)
  | reservedLabel word => reservedLabel (r.rename word)
  | trailing kind => trailing (kind.renamed r)
  | fault => fault

@[simp] theorem Token.kind_renamed (t : Token) : (t.renamed r).kind = t.kind.renamed r := rfl

@[simp] theorem Token.Kind.endsLine_renamed (kind : Token.Kind) :
    (kind.renamed r).endsLine = kind.endsLine := by
  cases kind <;> rfl

theorem Token.Kind.renamed_eq_mark_iff {kind : Token.Kind} {m : Mark} :
    kind.renamed r = .mark m ↔ kind = .mark m := by
  cases kind <;> simp [renamed]

theorem Token.Kind.renamed_eq_textEnd_iff {kind : Token.Kind} :
    kind.renamed r = .textEnd ↔ kind = .textEnd := by
  cases kind <;> simp [renamed]

theorem Token.renamed_of_not_name {t : Token} (h : ∀ word, t.kind ≠ .name word) :
    t.renamed r = t := by
  obtain ⟨kind, place⟩ := t
  cases kind with
  | name word => exact absurd rfl (h word)
  | _ => rfl

/-- The names of a text are labels, which are renamed, or they are reserved. -/
theorem Token.renamed_of_ofSource {source : String} {tokens : List Token}
    (h : Token.ofSource source = .ok tokens) : ∀ t ∈ tokens, ∀ word, t.kind = .name word →
      (Reserved word ∧ t.renamed r = t) ∨
        ∃ l : Label, l.val = word ∧ t.renamed r = { t with kind := .name (r l).val } := by
  obtain ⟨segments, hall, rfl⟩ := tokens_of_ofSource h
  intro t ht word hk
  by_cases hr : Reserved word
  · refine .inl ⟨hr, ?_⟩
    rw [renamed, hk, Kind.renamed, r.rename_of_reserved hr, ← hk]
  · have hword : IsWord word := by
      rcases List.mem_append.1 ht with ht | ht
      · exact Segment.isWord_of_segmentation (Segment.all_eq_iff.1 hall) {} t ht word hk
      · rw [List.mem_singleton.1 ht] at hk
        cases hk
    refine .inr ⟨⟨word, hword, hr⟩, rfl, ?_⟩
    rw [renamed, hk, Kind.renamed]
    exact congrArg (fun new => { t with kind := .name new }) (r.rename_label ⟨word, hword, hr⟩)

end Tokens
end MiniRisc
