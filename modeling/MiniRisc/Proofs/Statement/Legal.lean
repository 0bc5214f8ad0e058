import MiniRisc.Proofs.Outcome
import MiniRisc.Statement.OfTokens
/-! Modifiers in statements: one is read only on an operation that takes it and with an immediate
that it widens. -/
namespace MiniRisc.Statement

/-- A modifier stands only on an operation that takes one, and before an immediate. -/
def Body.Legal (b : Body) : Prop :=
  b.modifier ≠ .signed → b.op.modifiable ∧ b.operands.endsWithImmediate

def Legal (s : Statement) : Prop := ∀ b, s.body = some b → b.Legal

namespace Taking
variable {α β : Type} {P : α → Prop} {Q : β → Prop}

def Gives (taking : Taking α) (P : α → Prop) : Prop :=
  ∀ line a behind, taking.run line = .ok a behind → P a

private theorem gives_pure {a : α} (h : P a) : Gives (pure a) P := by
  intro line b behind hr
  cases hr
  exact h

private theorem gives_throw (refusal : Refusal) : Gives (throw refusal : Taking α) P := by
  intro line a behind hr
  cases hr

theorem Gives.bind {taking : Taking α} {next : α → Taking β} (h : Gives taking P)
    (hn : ∀ a, P a → Gives (next a) Q) : Gives (taking >>= next) Q := by
  intro line b behind hr
  rw [EStateM.run_bind] at hr
  cases ht : taking.run line with
  | ok a line' =>
    rw [ht] at hr
    exact hn a (h line a line' ht) line' b behind hr
  | error refusal line' =>
    rw [ht] at hr
    cases hr

/-- What is taken first need not be known. -/
theorem gives_bind {taking : Taking α} {next : α → Taking β} (h : ∀ a, Gives (next a) Q) :
    Gives (taking >>= next) Q :=
  Gives.bind (P := fun _ => True) (fun _ _ _ _ => trivial) fun a _ => h a

private theorem gives_refuse (fault : SyntaxFault) : Gives (refuse fault : Taking α) P :=
  gives_bind fun _ => gives_throw _

private theorem body_gives_legal (labelled : Bool) : Gives (body labelled) Body.Legal := by
  rw [body]
  refine gives_bind fun first => ?_
  split
  · split
    · refine gives_bind fun token => ?_
      split <;> exact gives_refuse _
    · rename_i op modifier _
      split
      · exact gives_refuse _
      · rename_i hop
        refine gives_bind fun _ => gives_bind fun operands => ?_
        split
        · exact gives_throw _
        · rename_i hoperands
          refine gives_pure fun hm => ?_
          exact ⟨by simpa [hm] using hop, by simpa [hm] using hoperands⟩
  · exact gives_refuse _

private theorem statement?_gives_legal (lines : List String) :
    Gives (statement? lines) fun s => ∀ t, s = some t → t.Legal := by
  rw [statement?]
  refine gives_bind fun first => ?_
  split
  · exact gives_pure (by simp)
  · refine gives_bind fun label => gives_bind fun token => ?_
    split
    · exact gives_pure (by simp [Legal])
    · refine (body_gives_legal _).bind fun body hb => gives_bind fun _ => gives_pure ?_
      simpa [Legal] using hb

end Taking

private theorem ofLine?_legal {lines : List String} {tokens : List Token} {s : Statement}
    (h : (ofLine? lines tokens).1 = .ok (some s)) : s.Legal := by
  rw [ofLine?] at h
  dsimp only at h
  split at h
  · rename_i statement line hr
    exact Taking.statement?_gives_legal lines _ _ _ hr s (Except.ok.inj h)
  · cases h

private theorem ofTokens_legal {lines : List String} {tokens : List Token} {ss : List Statement}
    (h : ofTokens lines tokens = .ok ss) : ∀ s ∈ ss, s.Legal := by
  fun_induction ofTokens lines tokens generalizing ss with
  | case1 => cases h; simp
  | case2 => cases h; simp
  | case3 => cases h
  | case4 t tokens _ hl ih => exact ih h
  | case5 t tokens _ s hl ih =>
    obtain ⟨rest, hr, rfl⟩ := Outcome.map_eq_ok_iff.1 h
    intro u hu
    rcases List.mem_cons.1 hu with rfl | hu
    · exact ofLine?_legal hl
    · exact ih hr u hu

/-- All statements of a source text are legal. -/
theorem ofSource_legal {source : String} {ss : List Statement} (h : ofSource source = .ok ss) :
    ∀ s ∈ ss, s.Legal := by
  obtain ⟨tokens, -, ht⟩ := Outcome.bind_eq_ok_iff.1 h
  exact ofTokens_legal ht

private theorem ofLine?_error {lines : List String} {tokens : List Token} {d : Diagnostic}
    (h : (ofLine? lines tokens).1 = .error d) :
    ∃ fault token, d.cause = .grammatical fault token := by
  rw [ofLine?] at h
  dsimp only at h
  split at h
  · cases h
  · cases h
    exact ⟨_, _, rfl⟩

private theorem ofTokens_error {lines : List String} {tokens : List Token} {d : Diagnostic}
    (h : ofTokens lines tokens = .error d) : ∃ fault token, d.cause = .grammatical fault token := by
  fun_induction ofTokens lines tokens with
  | case1 => cases h
  | case2 => cases h
  | case3 t tokens _ e hl =>
    cases h
    exact ofLine?_error hl
  | case4 t tokens _ hl ih => exact ih h
  | case5 t tokens _ s hl ih => exact ih (Outcome.map_eq_error_iff.1 h)

/-- A text without statements has a fault of its characters or of its grammar. -/
theorem ofSource_error {source : String} {d : Diagnostic} (h : ofSource source = .error d) :
    (∃ long, d.cause = .numeral long ∧ Token.ofSource source = .error d) ∨
      (∃ fault column, d.cause = .lexical fault column) ∨
        ∃ fault token, d.cause = .grammatical fault token := by
  cases ht : Token.ofSource source with
  | ok tokens =>
    rw [ofSource, ht] at h
    exact .inr (.inr (ofTokens_error h))
  | error e =>
    rw [ofSource, ht] at h
    cases h
    unfold Token.ofSource Scan.result at ht
    split at ht
    · cases ht
    · rename_i fault p _
      cases ht
      rcases Scan.diagnose_cases (Text.lines source) fault p with ⟨long, -, hd⟩ | ⟨-, hd⟩
      · exact .inl ⟨long, congrArg Diagnostic.cause hd, rfl⟩
      · exact .inr (.inl ⟨fault, p.column, congrArg Diagnostic.cause hd⟩)

end MiniRisc.Statement
