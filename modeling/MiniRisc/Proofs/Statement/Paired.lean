import MiniRisc.Proofs.Statement.Located
import MiniRisc.Proofs.Statement.Spelling
/-! Statements of texts that differ in literals only. They differ in the patterns of those literals
and nowhere else, and where the one tokens are statements, so are the others. -/
namespace MiniRisc

/-- Lists whose elements are related one by one, with what relates them in order. -/
inductive OneByOne {α β : Type} (R : α → α → List β → Prop) : List α → List α → List β → Prop
  | nil : OneByOne R [] [] []
  | cons {a a' : α} {as as' : List α} {ps qs : List β} (head : R a a' ps)
      (tail : OneByOne R as as' qs) : OneByOne R (a :: as) (a' :: as') (ps ++ qs)

inductive Token.Kind.Paired : Kind → Kind → List (Nat × Nat) → Prop
  | same (kind : Kind) : Paired kind kind []
  | literal (p q : Nat) : Paired (.integer p) (.integer q) [(p, q)]

inductive Source.Paired : Source → Source → List (Nat × Nat) → Prop
  | same (source : Source) : Paired source source []
  | literal (p q : Nat) : Paired (.immediate p) (.immediate q) [(p, q)]

inductive Operands.Paired : {shape : Shape} → Operands shape → Operands shape →
    List (Nat × Nat) → Prop
  | three (target left : Register) {right right' : Source} {ps : List (Nat × Nat)}
      (h : right.Paired right' ps) :
      Paired (.three target left right) (.three target left right') ps
  | two (register : Register) {source source' : Source} {ps : List (Nat × Nat)}
      (h : source.Paired source' ps) : Paired (.two register source) (.two register source') ps
  | address (register : Register) (p q : Nat) (base : Register) :
      Paired (.address register p base) (.address register q base) [(p, q)]
  | same {shape : Shape} (operands : Operands shape) : Paired operands operands []

namespace Statement

inductive Body.Paired : Body → Body → List (Nat × Nat) → Prop
  | mk (op : Opcode) (modifier : Modifier) {operands operands' : Operands op.shape}
      {ps : List (Nat × Nat)} (h : operands.Paired operands' ps) :
      Paired ⟨op, modifier, operands⟩ ⟨op, modifier, operands'⟩ ps

inductive Paired : Statement → Statement → List (Nat × Nat) → Prop
  | bare {s s' : Statement} (label : s'.label = s.label) (hs : s.body = none)
      (hs' : s'.body = none) : Paired s s' []
  | body {s s' : Statement} {b b' : Body} {ps : List (Nat × Nat)} (label : s'.label = s.label)
      (hs : s.body = some b) (hs' : s'.body = some b') (h : b.Paired b' ps) : Paired s s' ps

end Statement

namespace OneByOne
variable {α β : Type} {R : α → α → List β → Prop} {a a' : α} {as as' : List α} {ps : List β}

private theorem single (h : OneByOne R [a] as' ps) : ∃ a', as' = [a'] ∧ R a a' ps := by
  cases h with
  | cons head tail =>
    cases tail
    exact ⟨_, rfl, by rwa [List.append_nil]⟩

private theorem of_one (h : R a a' ps) : OneByOne R [a] [a'] ps := by
  have hcons := OneByOne.cons h .nil
  rwa [List.append_nil] at hcons

theorem append {bs bs' : List α} {qs : List β} (h : OneByOne R as as' ps)
    (h' : OneByOne R bs bs' qs) : OneByOne R (as ++ bs) (as' ++ bs') (ps ++ qs) := by
  induction h with
  | nil => exact h'
  | cons head tail ih =>
    rw [List.append_assoc]
    exact .cons head ih

theorem refl (h : ∀ a, R a a []) (as : List α) : OneByOne R as as [] := by
  induction as with
  | nil => exact .nil
  | cons a as ih => exact .cons (h a) ih

/-- What is the same of elements with nothing between them is the same of such lists. -/
theorem map_eq {γ : Type} {f : α → γ} (hR : ∀ a a', R a a' [] → f a' = f a)
    (h : OneByOne R as as' ps) (hp : ps = []) : as'.map f = as.map f := by
  induction h with
  | nil => rfl
  | cons head tail ih =>
    obtain ⟨rfl, rfl⟩ := List.append_eq_nil_iff.1 hp
    rw [List.map_cons, List.map_cons, hR _ _ head, ih rfl]

/-- Lists that are the same but for one element. -/
theorem at_one (hrefl : ∀ a, R a a []) (h : R a a' ps) (front back : List α) :
    OneByOne R (front ++ a :: back) (front ++ a' :: back) ps := by
  have hback := OneByOne.cons h (refl hrefl back)
  rw [List.append_nil] at hback
  exact (refl hrefl front).append hback

end OneByOne

namespace Statement.Paired
variable {s s' : Statement} {ps : List (Nat × Nat)}

theorem label (h : s.Paired s' ps) : s'.label = s.label := by
  cases h <;> assumption

theorem isSome_body (h : s.Paired s' ps) : s'.body.isSome = s.body.isSome := by
  cases h with
  | bare label hs hs' => rw [hs, hs']
  | body label hs hs' =>
    rw [hs, hs']
    rfl

end Statement.Paired

theorem Operands.Paired.endsWithImmediate {shape : Shape} {operands operands' : Operands shape}
    {ps : List (Nat × Nat)} (h : operands.Paired operands' ps) :
    operands'.endsWithImmediate = operands.endsWithImmediate := by
  cases h with
  | three target left h => cases h <;> rfl
  | two register h => cases h <;> rfl
  | address | same => rfl

namespace Grammar
variable {kind kind' : Token.Kind} {kinds kinds' : List Token.Kind} {ps : List (Nat × Nat)}
  {shape : Shape}

/-- Only a literal is paired with another kind. -/
theorem cons_of_ne (h : OneByOne Token.Kind.Paired (kind :: kinds) kinds' ps)
    (hk : ∀ p, kind ≠ .integer p) :
    ∃ rest, kinds' = kind :: rest ∧ OneByOne Token.Kind.Paired kinds rest ps := by
  cases h with
  | cons head tail =>
    cases head with
    | same => exact ⟨_, rfl, tail⟩
    | literal p q => exact absurd rfl (hk p)

private theorem RegisterName.ne_integer {r : Register} (h : RegisterName kind r) (p : Nat) :
    kind ≠ .integer p := by
  rintro rfl
  cases h

theorem SourceToken.paired {source : Source} (h : SourceToken kind source)
    (hk : kind.Paired kind' ps) :
    ∃ source', SourceToken kind' source' ∧ source.Paired source' ps := by
  cases hk with
  | same => exact ⟨source, h, .same source⟩
  | literal p q =>
    cases h with
    | register name => exact absurd rfl (name.ne_integer p)
    | literal => exact ⟨.immediate q, .literal q, .literal p q⟩

theorem OperandTokens.paired {operands : Operands shape} (h : OperandTokens kinds operands)
    (hk : OneByOne Token.Kind.Paired kinds kinds' ps) :
    ∃ operands', OperandTokens kinds' operands' ∧ operands.Paired operands' ps := by
  cases h with
  | three ht hl hsource =>
    obtain ⟨_, rfl, hcomma⟩ := cons_of_ne hk ht.ne_integer
    obtain ⟨_, rfl, hleft⟩ := cons_of_ne hcomma nofun
    obtain ⟨_, rfl, hcomma'⟩ := cons_of_ne hleft hl.ne_integer
    obtain ⟨_, rfl, hright⟩ := cons_of_ne hcomma' nofun
    obtain ⟨_, rfl, hlast⟩ := hright.single
    obtain ⟨source', hsource', hpaired⟩ := hsource.paired hlast
    exact ⟨_, .three ht hl hsource', .three _ _ hpaired⟩
  | two ht hsource =>
    obtain ⟨_, rfl, hcomma⟩ := cons_of_ne hk ht.ne_integer
    obtain ⟨_, rfl, hright⟩ := cons_of_ne hcomma nofun
    obtain ⟨_, rfl, hlast⟩ := hright.single
    obtain ⟨source', hsource', hpaired⟩ := hsource.paired hlast
    exact ⟨_, .two ht hsource', .two _ hpaired⟩
  | address ht hb =>
    obtain ⟨_, rfl, hcomma⟩ := cons_of_ne hk ht.ne_integer
    obtain ⟨_, rfl, hdisplacement⟩ := cons_of_ne hcomma nofun
    cases hdisplacement with
    | cons head hopen =>
      obtain ⟨_, rfl, hbase⟩ := cons_of_ne hopen nofun
      obtain ⟨_, rfl, hclose⟩ := cons_of_ne hbase hb.ne_integer
      obtain ⟨_, rfl, hend⟩ := cons_of_ne hclose nofun
      cases hend
      rw [List.append_nil]
      cases head with
      | same => exact ⟨_, .address ht hb, .same _⟩
      | literal => exact ⟨_, .address ht hb, .address ..⟩
  | branch free =>
    obtain ⟨_, rfl, hend⟩ := cons_of_ne hk nofun
    cases hend
    exact ⟨_, .branch free, .same _⟩
  | bare =>
    cases hk
    exact ⟨_, .bare, .same _⟩

theorem InstructionTokens.paired {b : Statement.Body} (h : InstructionTokens kinds b)
    (hk : OneByOne Token.Kind.Paired kinds kinds' ps) :
    ∃ b', InstructionTokens kinds' b' ∧ b.Paired b' ps := by
  cases h with
  | @mk op modifier kinds operands tokens legal =>
    obtain ⟨_, rfl, hoperands⟩ := cons_of_ne hk nofun
    obtain ⟨operands', htokens, hpaired⟩ := tokens.paired hoperands
    refine ⟨⟨op, modifier, operands'⟩, .mk htokens fun hm => ?_, .mk op modifier hpaired⟩
    exact ⟨(legal hm).1, hpaired.endsWithImmediate.trans (legal hm).2⟩

theorem Line.paired {label : Option String} {body : Option Statement.Body}
    (h : Line kinds label body) (hk : OneByOne Token.Kind.Paired kinds kinds' ps) :
    ∃ body', Line kinds' label body' ∧ ∀ line line' text text',
      Statement.Paired ⟨line, text, label, body⟩ ⟨line', text', label, body'⟩ ps := by
  cases h with
  | label free =>
    obtain ⟨_, rfl, hcolon⟩ := cons_of_ne hk nofun
    obtain ⟨_, rfl, hend⟩ := cons_of_ne hcolon nofun
    cases hend
    exact ⟨none, .label free, fun _ _ _ _ => .bare rfl rfl rfl⟩
  | instruction hb =>
    obtain ⟨b', hb', hpaired⟩ := hb.paired hk
    exact ⟨some b', .instruction hb', fun _ _ _ _ => .body rfl rfl rfl hpaired⟩
  | both free hb =>
    obtain ⟨_, rfl, hcolon⟩ := cons_of_ne hk nofun
    obtain ⟨_, rfl, hrest⟩ := cons_of_ne hcolon nofun
    obtain ⟨b', hb', hpaired⟩ := hb.paired hrest
    exact ⟨some b', .both free hb', fun _ _ _ _ => .body rfl rfl rfl hpaired⟩

end Grammar

namespace Statement
open Grammar
variable {lines lines' : List String} {tokens tokens' : List Token} {stop stop' : Token}
  {above under : List LineTokens} {ss : List Statement} {ps : List (Nat × Nat)}

def LineTokens.kinds (row : LineTokens) : List Token.Kind := row.ahead.map (·.kind)

/-- A line is a statement whatever its literal is. -/
theorem row_paired {s : Option Statement} (h : Row lines tokens s) (lines' : List String)
    (hk : OneByOne Token.Kind.Paired (tokens.map (·.kind)) (tokens'.map (·.kind)) ps) :
    ∃ s', Row lines' tokens' s' ∧ OneByOne Paired s.toList s'.toList ps := by
  cases h with
  | empty =>
    generalize hkinds' : tokens'.map (·.kind) = kinds' at hk
    cases hk
    obtain rfl := List.map_eq_nil_iff.1 hkinds'
    exact ⟨none, .empty, .nil⟩
  | line h =>
    obtain ⟨body', hline, hpaired⟩ := h.paired hk
    cases tokens' with
    | nil => exact absurd rfl (Line.kinds_ne_nil hline)
    | cons first' rest' =>
      exact ⟨_, .line hline, .of_one (hpaired ..)⟩

def LineTokens.Paired (row row' : LineTokens) (ps : List (Nat × Nat)) : Prop :=
  OneByOne Token.Kind.Paired row.kinds row'.kinds ps

private theorem paired_head {t t' : Token} {qs : List (Nat × Nat)} (ht : t.kind.Paired t'.kind ps)
    (h : OneByOne LineTokens.Paired above under qs) (hne : above ≠ []) :
    OneByOne LineTokens.Paired
      (above.modifyHead fun row => { row with ahead := t :: row.ahead })
      (under.modifyHead fun row => { row with ahead := t' :: row.ahead }) (ps ++ qs) := by
  cases h with
  | nil => exact absurd rfl hne
  | @cons row row' above under qs rs head tail =>
    have hrow : LineTokens.Paired { row with ahead := t :: row.ahead }
        { row' with ahead := t' :: row'.ahead } (ps ++ qs) := .cons ht head
    rw [← List.append_assoc]
    exact .cons hrow tail

/-- Tokens that are paired are on lines that are. -/
theorem paired_rows (stop stop' : Token)
    (h : OneByOne Token.Kind.Paired (tokens.map (·.kind)) (tokens'.map (·.kind)) ps) :
    OneByOne LineTokens.Paired (rows stop tokens) (rows stop' tokens') ps := by
  have hempty (t t' : Token) : LineTokens.Paired ⟨[], t⟩ ⟨[], t'⟩ [] := OneByOne.nil
  generalize hkinds : tokens.map (·.kind) = kinds, hkinds' : tokens'.map (·.kind) = kinds' at h
  induction h generalizing tokens tokens' with
  | nil =>
    obtain rfl := List.map_eq_nil_iff.1 hkinds
    obtain rfl := List.map_eq_nil_iff.1 hkinds'
    exact .cons (hempty stop stop') .nil
  | @cons kind _ _ _ _ _ head tail ih =>
    obtain ⟨t, rest, rfl, ht, hrest⟩ := List.map_eq_cons_iff.1 hkinds
    obtain ⟨t', rest', rfl, ht', hrest'⟩ := List.map_eq_cons_iff.1 hkinds'
    have ih := ih hrest hrest'
    rw [rows, rows, ht, ht']
    cases head with
    | same =>
      by_cases hk : kind = .lineEnd
      · rw [if_pos hk, if_pos hk]
        exact .cons (hempty t t') ih
      · have hkind : t.kind.Paired t'.kind [] := by
          rw [ht, ht']
          exact .same kind
        rw [if_neg hk, if_neg hk]
        exact paired_head hkind ih (rows_ne_nil stop rest)
    | literal p q =>
      have hkind : t.kind.Paired t'.kind [(p, q)] := by
        rw [ht, ht']
        exact .literal p q
      have hline (p : Nat) : Token.Kind.integer p ≠ .lineEnd := by simp
      rw [if_neg (hline p), if_neg (hline q)]
      exact paired_head hkind ih (rows_ne_nil stop rest)

theorem Derives.paired (h : Derives lines above ss) (lines' : List String)
    (hk : OneByOne LineTokens.Paired above under ps) :
    ∃ ss', Derives lines' under ss' ∧ OneByOne Paired ss ss' ps := by
  induction h generalizing under ps with
  | nil =>
    cases hk
    exact ⟨[], .nil, .nil⟩
  | cons head tail ih =>
    cases hk with
    | cons hrow hrows =>
      obtain ⟨s', hs', hpaired⟩ := row_paired head lines' hrow
      obtain ⟨ss', hss', hrest⟩ := ih hrows
      exact ⟨_, .cons hs' hss', hpaired.append hrest⟩

/-- Where the tokens of a text are statements, so are those of another that differ in literals. -/
theorem ofSource_paired {source source' : String} {kinds kinds' : List Token.Kind}
    (h : Token.ofSource source = .ok tokens) (h' : Token.ofSource source' = .ok tokens')
    (hkinds : tokens.map (·.kind) = kinds ++ [.textEnd])
    (hkinds' : tokens'.map (·.kind) = kinds' ++ [.textEnd])
    (hpaired : OneByOne Token.Kind.Paired kinds kinds' ps) (hs : ofSource source = .ok ss) :
    ∃ ss', ofSource source' = .ok ss' ∧ OneByOne Paired ss ss' ps := by
  obtain ⟨front, stop, rfl, hlines⟩ := rows_of_ofSource h
  obtain ⟨front', stop', rfl, hlines'⟩ := rows_of_ofSource h'
  rw [List.map_append] at hkinds hkinds'
  obtain rfl := List.append_inj_left' hkinds rfl
  obtain rfl := List.append_inj_left' hkinds' rfl
  rw [ofSource, h] at hs
  obtain ⟨ss', hss', hrest⟩ := ((ofTokens_ok_iff hlines).1 hs).paired (Text.lines source')
    (paired_rows stop stop' hpaired)
  refine ⟨ss', ?_, hrest⟩
  rw [ofSource, h']
  exact (ofTokens_ok_iff hlines').2 hss'

end Statement
end MiniRisc
