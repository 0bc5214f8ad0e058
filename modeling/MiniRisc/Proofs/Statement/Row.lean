import MiniRisc.Proofs.Statement.Taking
/-! The statement of one line: it is there exactly if the grammar derives the line. -/
namespace MiniRisc.Statement
open Grammar
namespace Taking
variable {α : Type}

section Runs
variable (line : LineTokens)

theorem run_current : current.run line = .ok (line.ahead.headD line.stop) line := rfl

theorem run_following : following.run line = .ok (line.ahead.tail.headD line.stop) line := rfl

theorem run_refuse (fault : SyntaxFault) :
    (refuse fault : Taking α).run line = .error ⟨fault, line.ahead.headD line.stop⟩ line := rfl

theorem run_finish : finish.run line =
    if (line.ahead.headD line.stop).kind.endsLine then .ok () line
    else .error ⟨.trailing (line.ahead.headD line.stop).kind, line.ahead.headD line.stop⟩ line := by
  rw [finish, EStateM.run_bind, run_current]
  dsimp only
  split <;> rfl

end Runs

/-- In a closed line the first token ends it only if there is no other. -/
theorem endsLine_headD_iff {line : LineTokens} (hc : line.Closed) :
    (line.ahead.headD line.stop).kind.endsLine ↔ line.ahead = [] := by
  obtain ⟨ahead, stop⟩ := line
  cases ahead with
  | nil => simp [hc.stop]
  | cons t rest => simp [hc.inner t]

section Body
variable {op : Opcode} {modifier : Modifier} {labelled : Bool}

/-- Without a mnemonic, or with a modifier that it does not take, the first token is refused. -/
theorem run_body_of_not_mnemonic {line : LineTokens} (h : ∀ (op : Opcode) (modifier : Modifier),
    (line.ahead.headD line.stop).kind = .name (op.mnemonic ++ modifier.suffix) →
      modifier ≠ .signed ∧ op.modifiable = false) :
    ∃ fault, (body labelled).run line = .error ⟨fault, line.ahead.headD line.stop⟩ line := by
  rw [body, EStateM.run_bind, run_current]
  dsimp only
  cases hk : (line.ahead.headD line.stop).kind with
  | name word =>
    dsimp only
    cases hs : Vocabulary.splitMnemonic? word with
    | none =>
      dsimp only
      rw [EStateM.run_bind, run_following]
      dsimp only
      split <;> exact ⟨_, rfl⟩
    | some split =>
      obtain ⟨op, modifier⟩ := split
      dsimp only
      rw [if_pos (h op modifier (by rw [hk, splitMnemonic?_eq_some_iff.1 hs]))]
      exact ⟨_, rfl⟩
  | _ => exact ⟨_, rfl⟩

private theorem run_body_of_mnemonic {t : Token} {rest : List Token} {stop : Token}
    (ht : t.kind = .name (op.mnemonic ++ modifier.suffix))
    (h : ¬ (modifier ≠ .signed ∧ op.modifiable = false)) :
    (body labelled).run ⟨t :: rest, stop⟩ =
      match (operands op.shape).run ⟨rest, stop⟩ with
      | .error refusal behind => .error refusal behind
      | .ok os behind =>
        if modifier ≠ .signed ∧ os.endsWithImmediate = false then
          .error ⟨.modifierIdle modifier, t⟩ behind
        else .ok ⟨op, modifier, os⟩ behind := by
  have hcurrent : current.run ⟨t :: rest, stop⟩ = .ok t ⟨t :: rest, stop⟩ := rfl
  have hadvance : advance.run ⟨t :: rest, stop⟩ = .ok () ⟨rest, stop⟩ := rfl
  rw [body, EStateM.run_bind, hcurrent]
  dsimp only
  rw [ht]
  dsimp only
  rw [splitMnemonic?_mnemonic]
  dsimp only
  rw [if_neg h, EStateM.run_bind, hadvance]
  dsimp only
  rw [EStateM.run_bind]
  cases (operands op.shape).run ⟨rest, stop⟩ with
  | error refusal behind => rfl
  | ok os behind =>
    dsimp only
    split <;> rfl

private theorem legal_iff {os : Operands op.shape} : Body.Legal ⟨op, modifier, os⟩ ↔
    ¬ (modifier ≠ .signed ∧ op.modifiable = false) ∧
      ¬ (modifier ≠ .signed ∧ os.endsWithImmediate = false) := by
  by_cases hm : modifier = .signed <;> simp [Body.Legal, hm]

/-- An opening token is a mnemonic that its modifier may follow, or else it is refused. -/
theorem mnemonic_cases (labelled : Bool) {line : LineTokens} (hc : line.Closed) :
    (∃ fault, (body labelled).run line = .error ⟨fault, line.ahead.headD line.stop⟩ line) ∨
    ∃ t rest, ∃ (op : Opcode) (modifier : Modifier), line.ahead = t :: rest ∧
      t.kind = .name (op.mnemonic ++ modifier.suffix) ∧
      ¬ (modifier ≠ .signed ∧ op.modifiable = false) := by
  by_cases h : ∀ (op : Opcode) (modifier : Modifier),
      (line.ahead.headD line.stop).kind = .name (op.mnemonic ++ modifier.suffix) →
        modifier ≠ .signed ∧ op.modifiable = false
  · exact .inl (run_body_of_not_mnemonic h)
  · simp only [Classical.not_forall] at h
    obtain ⟨op, modifier, hk, h⟩ := h
    obtain ⟨ahead, stop⟩ := line
    cases ahead with
    | nil =>
      have hstop := hc.stop
      rw [show stop.kind = _ from hk] at hstop
      cases hstop
    | cons t rest => exact .inr ⟨t, rest, op, modifier, rfl, hk, h⟩

private theorem body_recognizes (labelled : Bool) :
    Recognizes (body labelled) InstructionTokens where
  sound := by
    intro line behind b hc hr
    rcases mnemonic_cases labelled hc with ⟨fault, h⟩ | ⟨t, rest, op, modifier, hl, ht, h⟩
    · cases h.symm.trans hr
    · obtain ⟨ahead, stop⟩ := line
      obtain rfl : ahead = t :: rest := hl
      have hc' : LineTokens.Closed ⟨rest, stop⟩ := hc.behind
      rw [run_body_of_mnemonic ht h] at hr
      split at hr
      · cases hr
      · rename_i os behind' hos
        split at hr
        · cases hr
        · rename_i hi
          cases hr
          obtain ⟨taken, hl, ho⟩ := (operands_recognizes op.shape).sound hc' hos
          obtain ⟨rfl, rfl⟩ := LineTokens.mk.inj hl
          refine ⟨t :: taken, rfl, ?_⟩
          rw [List.map_cons, ht]
          exact .mk ho (legal_iff.2 ⟨h, hi⟩)
  complete := by
    rintro taken rest stop _ hc hb
    generalize hkinds : taken.map (·.kind) = kinds at hb
    obtain ⟨ho, legal⟩ := hb
    rename_i op modifier kinds os
    obtain ⟨t, taken, rfl, ht, rfl⟩ := List.map_eq_cons_iff.1 hkinds
    obtain ⟨h, hi⟩ := legal_iff.1 legal
    rw [List.cons_append, run_body_of_mnemonic ht h,
      (operands_recognizes op.shape).complete hc.behind ho]
    exact if_neg hi
  refusal := by
    intro line behind refusal hc hr
    rcases mnemonic_cases labelled hc with ⟨fault, h⟩ | ⟨t, rest, op, modifier, hl, ht, h⟩
    · cases h.symm.trans hr
      exact headD_mem line
    · obtain ⟨ahead, stop⟩ := line
      obtain rfl : ahead = t :: rest := hl
      have hc' : LineTokens.Closed ⟨rest, stop⟩ := hc.behind
      rw [run_body_of_mnemonic ht h] at hr
      split at hr
      · rename_i hos
        cases hr
        exact List.mem_cons_of_mem t ((operands_recognizes op.shape).refusal hc' hos)
      · split at hr
        · cases hr
          exact List.mem_cons_self
        · cases hr

end Body
/-- Taking reads the whole of a line, as a grammar derives it. -/
structure Reads (taking : Taking α) (G : List Token → α → Prop) : Prop where
  sound {line behind : LineTokens} {a : α} : line.Closed → taking.run line = .ok a behind →
    G line.ahead a
  complete {line : LineTokens} {a : α} : line.Closed → G line.ahead a →
    taking.run line = .ok a ⟨[], line.stop⟩
  refusal {line behind : LineTokens} {refusal : Refusal} : line.Closed →
    taking.run line = .error refusal behind → refusal.token ∈ line.ahead ++ [line.stop]

/-- What is recognized and ends its line is the whole of the line. -/
theorem Recognizes.reads {β : Type} {taking : Taking α} {G : List Token.Kind → α → Prop}
    (h : Recognizes taking G) (f : α → β) :
    Reads (do let a ← taking; finish; return f a) fun tokens b =>
      ∃ a, G (tokens.map (·.kind)) a ∧ b = f a where
  sound := by
    intro line behind b hc hr
    rw [EStateM.run_bind] at hr
    split at hr
    · rename_i a line' ht
      obtain ⟨taken, rfl, hg⟩ := h.sound hc ht
      have hc' : line'.Closed := hc.tail
      rw [EStateM.run_bind, run_finish] at hr
      by_cases he : (line'.ahead.headD line'.stop).kind.endsLine
      · rw [if_pos he] at hr
        cases hr
        rw [(endsLine_headD_iff hc').1 he, List.append_nil]
        exact ⟨a, hg, rfl⟩
      · rw [if_neg he] at hr
        cases hr
    · cases hr
  complete := by
    rintro ⟨ahead, stop⟩ _ hc ⟨a, hg, rfl⟩
    have ht : taking.run ⟨ahead ++ [], stop⟩ = .ok a ⟨[], stop⟩ :=
      h.complete (by rw [List.append_nil]; exact hc) hg
    rw [List.append_nil] at ht
    have hf : finish.run ⟨[], stop⟩ = .ok () ⟨[], stop⟩ := by
      rw [run_finish]
      exact if_pos hc.stop
    rw [EStateM.run_bind, ht]
    dsimp only
    rw [EStateM.run_bind, hf]
    rfl
  refusal := by
    intro line behind refusal hc hr
    rw [EStateM.run_bind] at hr
    split at hr
    · rename_i a line' ht
      obtain ⟨taken, rfl, hg⟩ := h.sound hc ht
      rw [EStateM.run_bind, run_finish] at hr
      by_cases he : (line'.ahead.headD line'.stop).kind.endsLine
      · rw [if_pos he] at hr
        cases hr
      · rw [if_neg he] at hr
        cases hr
        rw [List.append_assoc]
        exact List.mem_append_right taken (headD_mem _)
    · rename_i ht
      cases hr
      exact h.refusal hc ht

section Definition
variable {word : String} {t c : Token} {rest : List Token} {stop : Token}

private theorem run_definition?_of_colon (ht : t.kind = .name word) (hc : c.kind = .mark .colon) :
    definition?.run ⟨t :: c :: rest, stop⟩ =
      if Vocabulary.isReserved word then
        .error ⟨.reservedLabel word, t⟩ ⟨t :: c :: rest, stop⟩
      else .ok (some word) ⟨rest, stop⟩ := by
  have hcurrent : current.run ⟨t :: c :: rest, stop⟩ = .ok t ⟨t :: c :: rest, stop⟩ := rfl
  have hfollowing : following.run ⟨t :: c :: rest, stop⟩ = .ok c ⟨t :: c :: rest, stop⟩ := rfl
  rw [definition?, EStateM.run_bind, hcurrent]
  dsimp only
  rw [ht]
  dsimp only
  rw [EStateM.run_bind, hfollowing]
  dsimp only
  rw [if_pos hc]
  split <;> rfl

private theorem run_definition?_of_not_colon {line : LineTokens} (hc : line.Closed)
    (h : ∀ word kinds, line.ahead.map (·.kind) ≠ .name word :: .mark .colon :: kinds) :
    definition?.run line = .ok none line := by
  rw [definition?, EStateM.run_bind, run_current]
  dsimp only
  cases hk : (line.ahead.headD line.stop).kind with
  | name word =>
    dsimp only
    rw [EStateM.run_bind, run_following]
    dsimp only
    rw [if_neg]
    · rfl
    · intro hm
      obtain ⟨ahead, stop⟩ := line
      have hstop := hc.stop
      match ahead with
      | [] | [t] =>
        rw [show stop.kind = .mark .colon from hm] at hstop
        cases hstop
      | t :: c :: rest => exact h word (rest.map (·.kind)) (by simp_all)
  | _ => rfl

/-- A line either opens with a name and a colon, or no label is taken off it. -/
theorem definition?_cases {line : LineTokens} (hc : line.Closed) :
    (∃ t c rest word, line.ahead = t :: c :: rest ∧ t.kind = .name word ∧ c.kind = .mark .colon) ∨
    (∀ word kinds, line.ahead.map (·.kind) ≠ .name word :: .mark .colon :: kinds) ∧
      definition?.run line = .ok none line := by
  by_cases h : ∃ word kinds, line.ahead.map (·.kind) = .name word :: .mark .colon :: kinds
  · obtain ⟨word, kinds, h⟩ := h
    obtain ⟨t, tail, hl, ht, h⟩ := List.map_eq_cons_iff.1 h
    obtain ⟨c, rest, rfl, hcolon, -⟩ := List.map_eq_cons_iff.1 h
    exact .inl ⟨t, c, rest, word, hl, ht, hcolon⟩
  · have h : ∀ word kinds, line.ahead.map (·.kind) ≠ .name word :: .mark .colon :: kinds :=
      fun word kinds he => h ⟨word, kinds, he⟩
    exact .inr ⟨h, run_definition?_of_not_colon hc h⟩

end Definition

section Statement
variable {lines : List String} {first c : Token} {rest : List Token} {stop : Token}
  {word : String} {label : Option String}

def instruction (lines : List String) (first : Token) (label : Option String) :
    Taking (Option Statement) := do
  let b ← body label.isSome
  finish
  return some ⟨first.place.line, Text.trim (Text.lineAt lines first.place.line), label, some b⟩

private theorem instruction_reads (lines : List String) (first : Token) (label : Option String) :
    Reads (instruction lines first label) fun tokens s => ∃ b,
      InstructionTokens (tokens.map (·.kind)) b ∧ s = some
        ⟨first.place.line, Text.trim (Text.lineAt lines first.place.line), label, some b⟩ :=
  (body_recognizes label.isSome).reads _

theorem run_statement?_of_empty (h : stop.kind.endsLine = true) :
    (statement? lines).run ⟨[], stop⟩ = .ok none ⟨[], stop⟩ := by
  have hcurrent : current.run ⟨[], stop⟩ = .ok stop ⟨[], stop⟩ := rfl
  rw [statement?, EStateM.run_bind, hcurrent]
  dsimp only
  rw [if_pos h]
  rfl

private theorem run_statement?_of_definition {line' : LineTokens} (he : first.kind.endsLine = false)
    (hd : definition?.run ⟨first :: rest, stop⟩ = .ok label line') :
    (statement? lines).run ⟨first :: rest, stop⟩ =
      if label.isSome && (line'.ahead.headD line'.stop).kind.endsLine then
        .ok (some ⟨first.place.line, Text.trim (Text.lineAt lines first.place.line), label, none⟩)
          line'
      else (instruction lines first label).run line' := by
  have hcurrent : current.run ⟨first :: rest, stop⟩ = .ok first ⟨first :: rest, stop⟩ := rfl
  rw [statement?, EStateM.run_bind, hcurrent]
  dsimp only
  rw [he, if_neg (by decide), EStateM.run_bind, hd]
  dsimp only
  rw [EStateM.run_bind, run_current]
  dsimp only
  split <;> rfl

private theorem run_statement?_of_reserved (he : first.kind.endsLine = false)
    (ht : first.kind = .name word) (hcolon : c.kind = .mark .colon)
    (hw : Vocabulary.isReserved word = true) :
    (statement? lines).run ⟨first :: c :: rest, stop⟩ =
      .error ⟨.reservedLabel word, first⟩ ⟨first :: c :: rest, stop⟩ := by
  have hcurrent : current.run ⟨first :: c :: rest, stop⟩ =
    .ok first ⟨first :: c :: rest, stop⟩ := rfl
  rw [statement?, EStateM.run_bind, hcurrent]
  dsimp only
  rw [he, if_neg (by decide), EStateM.run_bind, run_definition?_of_colon ht hcolon, if_pos hw]

/-- A line with a label is that label alone, or has an instruction behind it. -/
theorem run_statement?_of_label (hc : LineTokens.Closed ⟨first :: c :: rest, stop⟩)
    (ht : first.kind = .name word) (hcolon : c.kind = .mark .colon)
    (hw : ¬ Vocabulary.isReserved word = true) :
    (statement? lines).run ⟨first :: c :: rest, stop⟩ =
      if rest = [] then .ok (some ⟨first.place.line,
        Text.trim (Text.lineAt lines first.place.line), some word, none⟩) ⟨rest, stop⟩
      else (instruction lines first (some word)).run ⟨rest, stop⟩ := by
  have hd : definition?.run ⟨first :: c :: rest, stop⟩ = _ := run_definition?_of_colon ht hcolon
  have hend := endsLine_headD_iff hc.behind.behind
  dsimp only at hend
  rw [if_neg hw] at hd
  rw [run_statement?_of_definition (hc.inner first List.mem_cons_self) hd]
  simp only [Option.isSome_some, Bool.true_and, hend]

private theorem run_statement?_of_not_colon (hc : LineTokens.Closed ⟨first :: rest, stop⟩)
    (h : ∀ word kinds, (first :: rest).map (·.kind) ≠ .name word :: .mark .colon :: kinds) :
    (statement? lines).run ⟨first :: rest, stop⟩ =
      (instruction lines first none).run ⟨first :: rest, stop⟩ := by
  have hd := run_definition?_of_not_colon hc h
  rw [run_statement?_of_definition (hc.inner first List.mem_cons_self) hd]
  rfl

private theorem not_colon_of_operands {shape : Shape} {kinds : List Token.Kind}
    {os : Operands shape}
    (h : OperandTokens kinds os) (rest : List Token.Kind) : kinds ≠ .mark .colon :: rest := by
  rintro rfl
  cases h with
  | three ht => cases ht
  | two ht => cases ht
  | address ht => cases ht

/-- The operands of an instruction do not begin with a colon. -/
theorem not_colon_of_instruction {kinds : List Token.Kind} {b : Body}
    (h : InstructionTokens kinds b) (kind : Token.Kind) (rest : List Token.Kind) :
    kinds ≠ kind :: .mark .colon :: rest := by
  cases h with
  | mk tokens => exact fun he => not_colon_of_operands tokens rest (List.cons.inj he).2

theorem statement?_reads (lines : List String) : Reads (statement? lines) (Row lines) where
  sound := by
    rintro ⟨_ | ⟨first, rest⟩, stop⟩ behind s hc hr
    · cases (run_statement?_of_empty hc.stop).symm.trans hr
      exact .empty
    · rcases definition?_cases hc with ⟨t, c, rest, word, hl, ht, hcolon⟩ | ⟨h, -⟩
      · cases hl
        by_cases hw : Vocabulary.isReserved word
        · rw [run_statement?_of_reserved (hc.inner first List.mem_cons_self) ht hcolon hw] at hr
          cases hr
        · rw [run_statement?_of_label hc ht hcolon hw] at hr
          have free : ¬ Reserved word := fun h => hw (reserved_iff.1 h)
          by_cases hrest : rest = []
          · subst hrest
            cases hr
            refine .line ?_
            rw [List.map_cons, List.map_cons, ht, hcolon]
            exact .label free
          · rw [if_neg hrest] at hr
            obtain ⟨b, hb, rfl⟩ := (instruction_reads ..).sound hc.behind.behind hr
            refine .line ?_
            rw [List.map_cons, List.map_cons, ht, hcolon]
            exact .both free hb
      · rw [run_statement?_of_not_colon hc h] at hr
        obtain ⟨b, hb, rfl⟩ := (instruction_reads ..).sound hc hr
        exact .line (.instruction hb)
  complete := by
    rintro ⟨ahead, stop⟩ s hc hrow
    cases hrow with
    | empty => exact run_statement?_of_empty hc.stop
    | line h =>
      rename_i first rest label body
      generalize hkinds : (first :: rest).map (·.kind) = kinds at h
      cases h with
      | label free =>
        obtain ⟨t, _, hl, ht, htail⟩ := List.map_eq_cons_iff.1 hkinds
        obtain ⟨c, _, rfl, hcolon, hnil⟩ := List.map_eq_cons_iff.1 htail
        cases hl
        cases List.map_eq_nil_iff.1 hnil
        exact run_statement?_of_label hc ht hcolon fun hw => free (reserved_iff.2 hw)
      | instruction hb =>
        rw [run_statement?_of_not_colon hc
          (hkinds ▸ fun word kinds => not_colon_of_instruction hb _ kinds)]
        exact (instruction_reads lines first none).complete hc ⟨_, hkinds ▸ hb, rfl⟩
      | both free hb =>
        obtain ⟨t, _, hl, ht, htail⟩ := List.map_eq_cons_iff.1 hkinds
        obtain ⟨c, rest, rfl, hcolon, rfl⟩ := List.map_eq_cons_iff.1 htail
        cases hl
        rw [run_statement?_of_label hc ht hcolon fun hw => free (reserved_iff.2 hw)]
        have hrest : rest ≠ [] := by
          rintro rfl
          cases hb
        rw [if_neg hrest]
        exact (instruction_reads lines first _).complete hc.behind.behind ⟨_, hb, rfl⟩
  refusal := by
    rintro ⟨_ | ⟨first, rest⟩, stop⟩ behind refusal hc hr
    · cases (run_statement?_of_empty hc.stop).symm.trans hr
    · rcases definition?_cases hc with ⟨t, c, rest, word, hl, ht, hcolon⟩ | ⟨h, -⟩
      · cases hl
        by_cases hw : Vocabulary.isReserved word
        · rw [run_statement?_of_reserved (hc.inner first List.mem_cons_self) ht hcolon hw] at hr
          cases hr
          exact List.mem_cons_self
        · rw [run_statement?_of_label hc ht hcolon hw] at hr
          by_cases hrest : rest = []
          · rw [if_pos hrest] at hr
            cases hr
          · rw [if_neg hrest] at hr
            have hm := (instruction_reads ..).refusal hc.behind.behind hr
            exact List.mem_cons_of_mem first (List.mem_cons_of_mem c hm)
      · rw [run_statement?_of_not_colon hc h] at hr
        exact (instruction_reads ..).refusal hc hr

end Statement
end Taking
end MiniRisc.Statement
