import MiniRisc.Proofs.Statement.Lines
import MiniRisc.Proofs.Statement.Walking
/-! Walks over the tokens of a text. A walk finds a token wherever it looks, and goes the way of the
lines: it comes to the same statements, or refuses the same token. -/
namespace MiniRisc.Statement
namespace Walking

/-- The walk at a line goes the way of taking, and ends where it ends. -/
def FollowsAt {α β : Type} (lines : List String) (tokens : List Token) (walk : Walking β)
    (taking : Taking α) (f : α → β) (line : LineTokens) : Prop :=
  ∀ done rest, tokens = done ++ (line.ahead ++ line.stop :: rest) →
    match taking.run line with
    | .ok a behind => ∃ taken, line = ⟨taken ++ behind.ahead, behind.stop⟩ ∧
        walk.run done.length = .ok (f a) (done ++ taken).length
    | .error refusal behind => ∃ taken, line = ⟨taken ++ behind.ahead, behind.stop⟩ ∧
        walk.run done.length = .error (.refused (.grammatical refusal.fault refusal.token
          (Text.lineAt lines refusal.token.place.line))) (done ++ taken).length

section Follows
variable {α β γ δ : Type} {lines : List String} {tokens : List Token} {line : LineTokens}

private theorem followsAt_pure {a : α} {b : β} {f : α → β} (h : b = f a) :
    FollowsAt lines tokens (pure b) (pure a) f line := by
  intro done rest ht
  exact ⟨[], rfl, by rw [h, List.append_nil]; rfl⟩

theorem FollowsAt.bind {walk : Walking β} {taking : Taking α} {f : α → β} {wnext : β → Walking δ}
    {tnext : α → Taking γ} {g : γ → δ} (hc : line.Closed)
    (h : FollowsAt lines tokens walk taking f line)
    (hn : ∀ a behind, behind.Closed → FollowsAt lines tokens (wnext (f a)) (tnext a) g behind) :
    FollowsAt lines tokens (walk >>= wnext) (taking >>= tnext) g line := by
  intro done rest ht
  have h := h done rest ht
  rw [EStateM.run_bind, EStateM.run_bind]
  cases hr : taking.run line with
  | error refusal behind =>
    rw [hr] at h
    obtain ⟨taken, hl, hw⟩ := h
    dsimp only
    rw [hw]
    exact ⟨taken, hl, rfl⟩
  | ok a behind =>
    rw [hr] at h
    obtain ⟨taken, rfl, hw⟩ := h
    have hn := hn a behind hc.tail (done ++ taken) rest (by simpa using ht)
    dsimp only
    rw [hw]
    dsimp only
    cases hr' : (tnext a).run behind with
    | error refusal behind' =>
      rw [hr'] at hn
      obtain ⟨taken', hl, hw'⟩ := hn
      refine ⟨taken ++ taken', ?_, by rw [hw', List.append_assoc]⟩
      rw [hl, List.append_assoc]
    | ok c behind' =>
      rw [hr'] at hn
      obtain ⟨taken', hl, hw'⟩ := hn
      refine ⟨taken ++ taken', ?_, by rw [hw', List.append_assoc]⟩
      rw [hl, List.append_assoc]

section Steps
variable {done rest : List Token} {wnext : Token → Walking β} {tnext : Token → Taking α} {f : α → β}

private theorem run_tokenAt {t : Token} {position : Nat} (h : tokens[position]? = some t)
    (at' : Nat) : (tokenAt tokens position).run at' = .ok t at' := by
  rw [tokenAt, h]
  rfl

theorem run_current (ht : tokens = done ++ (line.ahead ++ line.stop :: rest)) :
    (current tokens).run done.length = .ok (line.ahead.headD line.stop) done.length := by
  have hat : tokens[done.length]? = some (line.ahead.headD line.stop) := by
    rw [ht, List.getElem?_append_right (Nat.le_refl _), Nat.sub_self]
    cases line.ahead <;> rfl
  exact run_tokenAt hat done.length

private theorem followsAt_current (h : FollowsAt lines tokens (wnext (line.ahead.headD line.stop))
      (tnext (line.ahead.headD line.stop)) f line) :
    FollowsAt lines tokens (current tokens >>= wnext) (Taking.current >>= tnext) f line := by
  intro done rest ht
  rw [EStateM.run_bind, EStateM.run_bind, run_current ht, Taking.run_current]
  exact h done rest ht

private theorem followsAt_following (hl : line.ahead ≠ [])
    (h : FollowsAt lines tokens (wnext (line.ahead.tail.headD line.stop))
      (tnext (line.ahead.tail.headD line.stop)) f line) :
    FollowsAt lines tokens (following tokens >>= wnext) (Taking.following >>= tnext) f line := by
  intro done rest ht
  obtain ⟨_ | ⟨t, ahead⟩, stop⟩ := line
  · exact absurd rfl hl
  · have hfollowing : (following tokens).run done.length = .ok (ahead.headD stop) done.length := by
      have hat : tokens[done.length + 1]? = some (ahead.headD stop) := by
        rw [ht, List.getElem?_append_right (by omega), Nat.add_sub_cancel_left]
        cases ahead <;> rfl
      have hlt := (List.getElem?_eq_some_iff.1 hat).1
      rw [following, EStateM.run_bind, EStateM.run_get]
      dsimp only
      rw [if_pos hlt]
      exact run_tokenAt hat done.length
    rw [EStateM.run_bind, EStateM.run_bind, hfollowing, Taking.run_following]
    exact h done rest ht

private theorem followsAt_refuse (fault : SyntaxFault) :
    FollowsAt lines tokens (refuse lines tokens fault) (Taking.refuse fault : Taking α) f line := by
  intro done rest ht
  rw [Taking.run_refuse, refuse, EStateM.run_bind, run_current ht]
  exact ⟨[], rfl, by rw [List.append_nil]; rfl⟩

private theorem run_advance {t u : Token} {more : List Token}
    (ht : tokens = done ++ t :: u :: more) :
    (advance tokens).run done.length = .ok () (done ++ [t]).length := by
  have hat : tokens[done.length]? = some t := by simp [ht]
  have hlt : done.length + 1 < tokens.length := by simp [ht]
  rw [advance, EStateM.run_bind, EStateM.run_get]
  dsimp only
  rw [EStateM.run_bind, run_tokenAt hat]
  dsimp only
  rw [if_pos hlt, List.length_append]
  rfl

private theorem followsAt_advance {t : Token} {ahead : List Token} {stop : Token} {walk : Walking β}
    {taking : Taking α} (h : FollowsAt lines tokens walk taking f ⟨ahead, stop⟩) :
    FollowsAt lines tokens (do advance tokens; walk) (do Taking.advance; taking) f
      ⟨t :: ahead, stop⟩ := by
  intro done rest ht
  have hadvance : (advance tokens).run done.length = .ok () (done ++ [t]).length := by
    cases ahead <;> exact run_advance ht
  have h := h (done ++ [t]) rest (by simpa using ht)
  have htaking : Taking.advance.run ⟨t :: ahead, stop⟩ = .ok () ⟨ahead, stop⟩ := rfl
  rw [EStateM.run_bind, EStateM.run_bind, hadvance, htaking]
  dsimp only
  cases hr : taking.run ⟨ahead, stop⟩ with
  | error refusal behind =>
    rw [hr] at h
    obtain ⟨taken, hl, hw⟩ := h
    obtain ⟨rfl, rfl⟩ := LineTokens.mk.inj hl
    exact ⟨t :: taken, rfl, by rw [hw, List.append_assoc]; rfl⟩
  | ok a behind =>
    rw [hr] at h
    obtain ⟨taken, hl, hw⟩ := h
    obtain ⟨rfl, rfl⟩ := LineTokens.mk.inj hl
    exact ⟨t :: taken, rfl, by rw [hw, List.append_assoc]; rfl⟩

end Steps

section Parts
variable {meaning? : Token.Kind → Option α} {fault : SyntaxFault} {M : Token.Kind → α → Prop}

private theorem one_followsAt (hc : line.Closed) (hm : ∀ kind a, meaning? kind = some a ↔ M kind a)
    (inner : ∀ kind a, M kind a → kind.endsLine = false) :
    FollowsAt lines tokens (one lines tokens meaning? fault) (Taking.one meaning? fault) id
      line := by
  refine followsAt_current ?_
  obtain ⟨_ | ⟨t, ahead⟩, stop⟩ := line
  · cases ha : meaning? stop.kind with
    | none =>
      simp only [List.headD_nil, ha]
      exact followsAt_refuse fault
    | some a =>
      have hstop := hc.stop
      rw [inner _ _ ((hm _ _).1 ha)] at hstop
      cases hstop
  · cases ha : meaning? t.kind with
    | none =>
      simp only [List.headD_cons, ha]
      exact followsAt_refuse fault
    | some a =>
      simp only [List.headD_cons, ha]
      exact followsAt_advance (followsAt_pure rfl)

variable (hc : line.Closed)
include hc

private theorem register_followsAt :
    FollowsAt lines tokens (register lines tokens) Taking.register id line := by
  rw [Taking.register_eq_one]
  exact one_followsAt hc (fun _ _ => Taking.register?_eq_some_iff)
    fun _ _ => Taking.endsLine_of_registerName

private theorem mark_followsAt (m : Mark) :
    FollowsAt lines tokens (mark lines tokens m) (Taking.mark m) id line := by
  rw [Taking.mark_eq_one]
  refine one_followsAt hc (fun _ _ => Taking.mark?_eq_some_iff) ?_
  rintro _ _ rfl
  rfl

private theorem source_followsAt : FollowsAt lines tokens
    (one lines tokens Taking.source? .sourceExpected) Taking.source id line := by
  rw [Taking.source_eq_one]
  exact one_followsAt hc (fun _ _ => Taking.source?_eq_some_iff)
    fun _ _ => Taking.endsLine_of_sourceToken

private theorem displacement_followsAt : FollowsAt lines tokens
    (one lines tokens Taking.displacement? .displacementExpected) Taking.displacement id line := by
  rw [Taking.displacement_eq_one]
  refine one_followsAt hc (fun _ _ => Taking.displacement?_eq_some_iff) ?_
  rintro _ _ rfl
  rfl

private theorem label_followsAt : FollowsAt lines tokens
    (one lines tokens Taking.label? .labelExpected) Taking.label id line := by
  rw [Taking.label_eq_one]
  refine one_followsAt hc (fun _ _ => Taking.label?_eq_some_iff) ?_
  rintro _ _ ⟨rfl, -⟩
  rfl

private theorem operands_followsAt (shape : Shape) :
    FollowsAt lines tokens (operands lines tokens (operandNames shape)) (Taking.operands shape)
      Operands.toList line := by
  cases shape with
  | three =>
    simp only [operands, moreOperands, operandNames, operand, Taking.operands, bind_assoc,
      pure_bind]
    refine (register_followsAt hc).bind hc fun target _ hc => ?_
    refine (mark_followsAt hc .comma).bind hc fun _ _ hc => ?_
    refine (register_followsAt hc).bind hc fun left _ hc => ?_
    refine (mark_followsAt hc .comma).bind hc fun _ _ hc => ?_
    refine (source_followsAt hc).bind hc fun right _ hc => ?_
    exact followsAt_pure rfl
  | two =>
    simp only [operands, moreOperands, operandNames, operand, Taking.operands, bind_assoc,
      pure_bind]
    refine (register_followsAt hc).bind hc fun r _ hc => ?_
    refine (mark_followsAt hc .comma).bind hc fun _ _ hc => ?_
    refine (source_followsAt hc).bind hc fun s _ hc => ?_
    exact followsAt_pure rfl
  | address =>
    simp only [operands, moreOperands, operandNames, operand, Taking.operands, bind_assoc,
      pure_bind]
    refine (register_followsAt hc).bind hc fun r _ hc => ?_
    refine (mark_followsAt hc .comma).bind hc fun _ _ hc => ?_
    refine (displacement_followsAt hc).bind hc fun d _ hc => ?_
    refine (mark_followsAt hc .openBracket).bind hc fun _ _ hc => ?_
    refine (register_followsAt hc).bind hc fun base _ hc => ?_
    refine (mark_followsAt hc .closeBracket).bind hc fun _ _ hc => ?_
    exact followsAt_pure rfl
  | branch =>
    simp only [operands, moreOperands, operandNames, operand, Taking.operands, bind_assoc,
      pure_bind]
    refine (label_followsAt hc).bind hc fun word _ hc => ?_
    exact followsAt_pure rfl
  | bare => exact followsAt_pure rfl

omit hc in
private theorem endsWithImmediate_toList {shape : Shape} (os : Operands shape) :
    endsWithImmediate os.toList = os.endsWithImmediate := by
  cases os with
  | three target left right => cases right <;> rfl
  | two register source => cases source <;> rfl
  | _ => rfl

omit hc in
private theorem followsAt_throw (refusal : Refusal) {f : α → β} : FollowsAt lines tokens
    (throw (.refused (.grammatical refusal.fault refusal.token
      (Text.lineAt lines refusal.token.place.line)))) (throw refusal) f line := by
  intro done rest ht
  exact ⟨[], rfl, by rw [List.append_nil]; rfl⟩

private theorem body_followsAt (labelled : Bool) :
    FollowsAt lines tokens (body lines tokens labelled) (Taking.body labelled) Body.flat line := by
  refine followsAt_current ?_
  obtain ⟨_ | ⟨t, ahead⟩, stop⟩ := line
  · dsimp only [List.headD_nil]
    have hstop := hc.stop
    cases hk : stop.kind with
    | name word =>
      rw [show stop.kind = _ from hk] at hstop
      cases hstop
    | _ => exact followsAt_refuse _
  · dsimp only [List.headD_cons]
    cases t.kind with
    | name word =>
      dsimp only
      cases Vocabulary.splitMnemonic? word with
      | none =>
        refine followsAt_following (by simp) ?_
        split <;> exact followsAt_refuse _
      | some split =>
        obtain ⟨op, modifier⟩ := split
        dsimp only
        split
        · exact followsAt_refuse _
        · refine followsAt_advance ?_
          refine (operands_followsAt hc.behind op.shape).bind hc.behind fun os _ _ => ?_
          rw [endsWithImmediate_toList]
          split
          · exact followsAt_throw ⟨.modifierIdle modifier, t⟩
          · exact followsAt_pure rfl
    | _ => exact followsAt_refuse _

private theorem definition?_followsAt :
    FollowsAt lines tokens (definition? lines tokens) Taking.definition? id line := by
  refine followsAt_current ?_
  obtain ⟨_ | ⟨t, ahead⟩, stop⟩ := line
  · dsimp only [List.headD_nil]
    have hstop := hc.stop
    cases hk : stop.kind with
    | name word =>
      rw [show stop.kind = _ from hk] at hstop
      cases hstop
    | _ => exact followsAt_pure rfl
  · dsimp only [List.headD_cons]
    cases t.kind with
    | name word =>
      refine followsAt_following (by simp) ?_
      split
      · rename_i hcolon
        split
        · exact followsAt_refuse _
        · cases ahead with
          | nil =>
            have hstop := hc.stop
            rw [show stop.kind = _ from hcolon] at hstop
            cases hstop
          | cons c ahead => exact followsAt_advance (followsAt_advance (followsAt_pure rfl))
      · exact followsAt_pure rfl
    | _ => exact followsAt_pure rfl

end Parts
end Follows

def lengthOf (line : LineTokens) : Nat :=
  line.ahead.length + if line.stop.kind = .lineEnd then 1 else 0

/-- The walk at a line goes the way of taking, and ends behind the line, or where taking ends if a
token is refused. -/
def EndsAt {α β : Type} (lines : List String) (tokens : List Token) (walk : Walking β)
    (taking : Taking α) (f : α → β) (line : LineTokens) : Prop :=
  ∀ done rest, tokens = done ++ (line.ahead ++ line.stop :: rest) →
    (line.stop.kind = .lineEnd → rest ≠ []) →
      match taking.run line with
      | .ok a _ => walk.run done.length = .ok (f a) (done.length + lengthOf line)
      | .error refusal behind => ∃ taken, line = ⟨taken ++ behind.ahead, behind.stop⟩ ∧
          walk.run done.length = .error (.refused (.grammatical refusal.fault refusal.token
            (Text.lineAt lines refusal.token.place.line))) (done ++ taken).length

section Ends
variable {α β γ δ : Type} {lines : List String} {tokens : List Token} {line : LineTokens}

private theorem FollowsAt.bind_endsAt {walk : Walking β} {taking : Taking α} {f : α → β}
    {wnext : β → Walking δ} {tnext : α → Taking γ} {g : γ → δ} (hc : line.Closed)
    (h : FollowsAt lines tokens walk taking f line)
    (hn : ∀ a behind, behind.Closed → EndsAt lines tokens (wnext (f a)) (tnext a) g behind) :
    EndsAt lines tokens (walk >>= wnext) (taking >>= tnext) g line := by
  intro done rest ht hrest
  have h := h done rest ht
  rw [EStateM.run_bind, EStateM.run_bind]
  cases hr : taking.run line with
  | error refusal behind =>
    rw [hr] at h
    obtain ⟨taken, hl, hw⟩ := h
    dsimp only
    rw [hw]
    exact ⟨taken, hl, rfl⟩
  | ok a behind =>
    rw [hr] at h
    obtain ⟨taken, rfl, hw⟩ := h
    have hn := hn a behind hc.tail (done ++ taken) rest (by simpa using ht) hrest
    dsimp only
    rw [hw]
    dsimp only
    cases hr' : (tnext a).run behind with
    | error refusal behind' =>
      rw [hr'] at hn
      obtain ⟨taken', hl, hw'⟩ := hn
      refine ⟨taken ++ taken', ?_, by rw [hw', List.append_assoc]⟩
      rw [hl, List.append_assoc]
    | ok c behind' =>
      have hlength : (done ++ taken).length + lengthOf behind =
          done.length + lengthOf ⟨taken ++ behind.ahead, behind.stop⟩ := by
        simp only [lengthOf, List.length_append]
        omega
      rw [hr', hlength] at hn
      exact hn

private theorem endsAt_current {wnext : Token → Walking β} {tnext : Token → Taking α} {f : α → β}
    (h : EndsAt lines tokens (wnext (line.ahead.headD line.stop))
      (tnext (line.ahead.headD line.stop)) f line) :
    EndsAt lines tokens (current tokens >>= wnext) (Taking.current >>= tnext) f line := by
  intro done rest ht hrest
  rw [EStateM.run_bind, EStateM.run_bind, run_current ht, Taking.run_current]
  exact h done rest ht hrest

variable (lines tokens)

private theorem endsAt_finish (hc : line.Closed) {a : α} {b : β} {f : α → β} (h : b = f a) :
    EndsAt lines tokens (do finish lines tokens; return b) (do Taking.finish; return a) f line := by
  intro done rest ht hrest
  obtain ⟨_ | ⟨t, ahead⟩, stop⟩ := line
  · have hwalk : (finish lines tokens).run done.length =
        .ok () (done.length + lengthOf ⟨[], stop⟩) := by
      rw [finish, EStateM.run_bind, run_current ht]
      dsimp only [List.headD_nil]
      by_cases hk : stop.kind = .lineEnd
      · obtain ⟨u, more, rfl⟩ := List.exists_cons_of_ne_nil (hrest hk)
        rw [if_pos hk, run_advance ht]
        simp [lengthOf, hk]
      · have htext : stop.kind = .textEnd := hc.stop_cases.resolve_left hk
        rw [if_neg hk, if_pos htext]
        simp [lengthOf, hk]
    rw [EStateM.run_bind, EStateM.run_bind, hwalk, Taking.run_finish,
      if_pos ((Taking.endsLine_headD_iff hc).2 rfl), h]
    rfl
  · have hopen : t.kind.endsLine = false := hc.inner t List.mem_cons_self
    have hwalk : (finish lines tokens).run done.length = .error (.refused
        (.grammatical (.trailing t.kind) t (Text.lineAt lines t.place.line))) done.length := by
      rw [finish, EStateM.run_bind, run_current ht]
      dsimp only [List.headD_cons]
      have hline : t.kind ≠ .lineEnd := hc.kind_ne List.mem_cons_self rfl
      have htext : t.kind ≠ .textEnd := hc.kind_ne List.mem_cons_self rfl
      rw [if_neg hline, if_neg htext, refuse, EStateM.run_bind, run_current ht]
      rfl
    rw [EStateM.run_bind, EStateM.run_bind, hwalk, Taking.run_finish, if_neg (by simp [hopen])]
    exact ⟨[], rfl, by rw [List.append_nil]; rfl⟩

private theorem endsAt_end (hc : line.Closed) (hl : line.ahead = []) {a : α} {b : β} {f : α → β}
    (h : b = f a) : EndsAt lines tokens (do finish lines tokens; return b) (pure a) f line := by
  intro done rest ht hrest
  have hf := endsAt_finish lines tokens hc h done rest ht hrest
  have he := (Taking.endsLine_headD_iff hc).2 hl
  rw [EStateM.run_bind, Taking.run_finish, if_pos he] at hf
  exact hf

theorem statement?_endsAt (hc : line.Closed) : EndsAt lines tokens (statement? lines tokens)
    (Taking.statement? lines) (Option.map flat) line := by
  refine endsAt_current ?_
  split
  · rename_i he
    exact endsAt_end lines tokens hc ((Taking.endsLine_headD_iff hc).1 he) rfl
  · refine (definition?_followsAt hc).bind_endsAt hc fun label behind hc => endsAt_current ?_
    dsimp only [id]
    split
    · rename_i he
      have he := (Bool.and_eq_true_iff.1 he).2
      exact endsAt_end lines tokens hc ((Taking.endsLine_headD_iff hc).1 he) rfl
    · refine (body_followsAt hc label.isSome).bind_endsAt hc fun b behind hc => ?_
      exact endsAt_finish lines tokens hc rfl

end Ends

section Whole
variable {lines : List String} {tokens done rest : List Token} {row : LineTokens}

private theorem statements_of_textEnd {position : Nat} {t : Token} (h : tokens[position]? = some t)
    (ht : t.kind = .textEnd) : statements lines tokens position = .ok [] := by
  rw [statements]
  split
  · simp_all
  · simp_all

private theorem statements_of_token {position : Nat} {t : Token} (h : tokens[position]? = some t)
    (ht : t.kind ≠ .textEnd) : statements lines tokens position =
      match (statement? lines tokens).run position with
      | .error halt _ => .error halt
      | .ok s position' =>
        if position < position' then (statements lines tokens position').map (s.toList ++ ·)
        else .error .stuck := by
  rw [statements]
  split
  · simp_all
  · rename_i u hu
    obtain rfl := Option.some.inj (h.symm.trans hu)
    rw [if_neg ht]
    rfl

/-- The statements of a line and of what is behind it. -/
theorem statements_of_row (hc : row.Closed)
    (ht : tokens = done ++ (row.ahead ++ row.stop :: rest))
    (hrest : row.stop.kind = .lineEnd → rest ≠ [])
    (hhead : (row.ahead.headD row.stop).kind ≠ .textEnd) :
    statements lines tokens done.length =
      match (Taking.statement? lines).run row with
      | .ok s _ => (statements lines tokens (done.length + lengthOf row)).map
          ((s.map flat).toList ++ ·)
      | .error refusal _ => .error (.refused (.grammatical refusal.fault refusal.token
          (Text.lineAt lines refusal.token.place.line))) := by
  have hat : tokens[done.length]? = some (row.ahead.headD row.stop) := by
    rw [ht, List.getElem?_append_right (Nat.le_refl _), Nat.sub_self]
    cases row.ahead <;> rfl
  have hwalk := statement?_endsAt lines tokens hc done rest ht hrest
  rw [statements_of_token hat hhead]
  cases hr : (Taking.statement? lines).run row with
  | ok s behind =>
    rw [hr] at hwalk
    have hlength : 0 < lengthOf row := by
      obtain ⟨_ | ⟨t, ahead⟩, stop⟩ := row
      · have hk : stop.kind = .lineEnd := hc.stop_cases.resolve_right hhead
        simp [lengthOf, hk]
      · simp only [lengthOf, List.length_cons]
        omega
    rw [hwalk]
    exact if_pos (Nat.lt_add_of_pos_right hlength)
  | error refusal behind =>
    rw [hr] at hwalk
    obtain ⟨taken, -, hw⟩ := hwalk
    rw [hw]

private theorem headD_ne_textEnd (hc : row.Closed) (hs : row.stop.kind = .lineEnd) :
    (row.ahead.headD row.stop).kind ≠ .textEnd := by
  obtain ⟨_ | ⟨t, ahead⟩, stop⟩ := row
  · rw [List.headD_nil, show stop.kind = _ from hs]
    simp
  · exact hc.kind_ne List.mem_cons_self rfl

/-- The walk over the lines of a text finds the same statements, or refuses the same token. -/
theorem statements_of_lines {tokens' : List Token} {rows : List LineTokens}
    (h : Lines rows tokens') : ∀ done, tokens = done ++ tokens' →
      statements lines tokens done.length =
        ((ofTokens lines tokens').map (·.map flat)).mapError .refused := by
  induction h with
  | last hc hs =>
    rename_i row
    intro done ht
    by_cases hhead : (row.ahead.headD row.stop).kind = .textEnd
    · have hnil := (Taking.endsLine_headD_iff hc).1 (by rw [hhead]; rfl)
      rw [hnil, List.nil_append] at ht ⊢
      rw [statements_of_textEnd (by simp [ht]) hs, ofTokens, dif_pos hs]
      rfl
    · have hend : statements lines tokens (done.length + lengthOf row) = .ok [] := by
        refine statements_of_textEnd (t := row.stop) ?_ hs
        simp [lengthOf, hs, ht]
      rw [statements_of_row hc ht (by simp [hs]) hhead, ofTokens_last hc hs, ofLine?_of_closed hc]
      cases (Taking.statement? lines).run row with
      | error refusal behind => rfl
      | ok s behind =>
        dsimp only
        rw [hend]
        cases s <;> rfl
  | cons hc hs hrest ih =>
    rename_i row rows tokens'
    intro done ht
    have hne : tokens' ≠ [] := by cases hrest <;> simp
    have hbehind := ih (done ++ (row.ahead ++ [row.stop])) (by simp [ht])
    have hlength : (done ++ (row.ahead ++ [row.stop])).length = done.length + lengthOf row := by
      simp [lengthOf, hs]
    rw [hlength] at hbehind
    rw [statements_of_row hc ht (fun _ => hne) (headD_ne_textEnd hc hs), ofTokens_append hc hs,
      ofLine?_of_closed hc]
    cases (Taking.statement? lines).run row with
    | error refusal behind => rfl
    | ok s behind =>
      dsimp only
      rw [hbehind]
      cases s <;> cases ofTokens lines tokens' <;> rfl

end Whole
end Walking

end MiniRisc.Statement
