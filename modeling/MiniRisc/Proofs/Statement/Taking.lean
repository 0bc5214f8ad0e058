import MiniRisc.Proofs.Statement.Grammar
/-! What can be taken off a line is what its grammar derives, and whatever is refused is a token of
the line or the one that ends it. -/
namespace MiniRisc.Statement
open Grammar

/-- The tokens of one line: the last of them ends the line, and no other does. -/
structure LineTokens.Closed (line : LineTokens) : Prop where
  inner : ∀ t ∈ line.ahead, t.kind.endsLine = false
  stop : line.stop.kind.endsLine = true

theorem LineTokens.Closed.tail {taken rest : List Token} {stop : Token}
    (h : LineTokens.Closed ⟨taken ++ rest, stop⟩) : LineTokens.Closed ⟨rest, stop⟩ :=
  ⟨fun t ht => h.inner t (List.mem_append_right taken ht), h.stop⟩

theorem LineTokens.Closed.behind {t : Token} {rest : List Token} {stop : Token}
    (h : LineTokens.Closed ⟨t :: rest, stop⟩) : LineTokens.Closed ⟨rest, stop⟩ :=
  ⟨fun u hu => h.inner u (List.mem_cons_of_mem t hu), h.stop⟩

theorem LineTokens.Closed.stop_cases {line : LineTokens} (h : line.Closed) :
    line.stop.kind = .lineEnd ∨ line.stop.kind = .textEnd := by
  have hstop := h.stop
  cases hk : line.stop.kind <;> simp_all [Token.Kind.endsLine]

theorem LineTokens.Closed.kind_ne {line : LineTokens} (h : line.Closed) {t : Token}
    (ht : t ∈ line.ahead) {kind : Token.Kind} (hk : kind.endsLine = true) : t.kind ≠ kind := by
  rintro rfl
  rw [h.inner t ht] at hk
  cases hk

namespace Taking
variable {α β : Type}

/-- Taking succeeds on the tokens that a grammar derives and whatever is behind them. -/
structure Recognizes (taking : Taking α) (G : List Token.Kind → α → Prop) : Prop where
  sound {line behind : LineTokens} {a : α} : line.Closed → taking.run line = .ok a behind →
    ∃ taken, line = ⟨taken ++ behind.ahead, behind.stop⟩ ∧ G (taken.map (·.kind)) a
  complete {taken rest : List Token} {stop : Token} {a : α} :
    LineTokens.Closed ⟨taken ++ rest, stop⟩ → G (taken.map (·.kind)) a →
      taking.run ⟨taken ++ rest, stop⟩ = .ok a ⟨rest, stop⟩
  refusal {line behind : LineTokens} {refusal : Refusal} : line.Closed →
    taking.run line = .error refusal behind → refusal.token ∈ line.ahead ++ [line.stop]

section Combinators
variable {G H : List Token.Kind → α → Prop} {taking : Taking α}

theorem Recognizes.congr (h : Recognizes taking G) (hG : ∀ kinds a, G kinds a ↔ H kinds a) :
    Recognizes taking H := by
  obtain rfl : G = H := funext fun kinds => funext fun a => propext (hG kinds a)
  exact h

private theorem recognizes_pure (a : α) :
    Recognizes (pure a) fun kinds b => kinds = [] ∧ b = a where
  sound := by
    rintro line _ _ - ⟨⟩
    exact ⟨[], rfl, rfl, rfl⟩
  complete := by
    rintro taken rest stop b - ⟨ht, rfl⟩
    obtain rfl := List.map_eq_nil_iff.1 ht
    rfl
  refusal := by
    rintro line _ _ - ⟨⟩

theorem Recognizes.bind {next : α → Taking β} {N : α → List Token.Kind → β → Prop}
    (h : Recognizes taking G) (hn : ∀ a, Recognizes (next a) (N a)) :
    Recognizes (taking >>= next) fun kinds b => ∃ front back a,
      kinds = front ++ back ∧ G front a ∧ N a back b where
  sound := by
    intro line behind b hc hr
    rw [EStateM.run_bind] at hr
    cases ht : taking.run line with
    | ok a line' =>
      rw [ht] at hr
      obtain ⟨taken, rfl, hg⟩ := h.sound hc ht
      have hc' : line'.Closed := hc.tail
      obtain ⟨taken', hl, hb⟩ := (hn a).sound hc' hr
      refine ⟨taken ++ taken', ?_, taken.map (·.kind), taken'.map (·.kind), a,
        List.map_append, hg, hb⟩
      rw [hl, List.append_assoc]
    | error refusal line' =>
      rw [ht] at hr
      cases hr
  complete := by
    rintro taken rest stop b hc ⟨front, back, a, hk, hg, hb⟩
    obtain ⟨taken, taken', rfl, rfl, rfl⟩ := List.map_eq_append_iff.1 hk
    rw [List.append_assoc] at hc ⊢
    rw [EStateM.run_bind, h.complete hc hg]
    exact (hn a).complete hc.tail hb
  refusal := by
    intro line behind refusal hc hr
    rw [EStateM.run_bind] at hr
    cases ht : taking.run line with
    | ok a line' =>
      rw [ht] at hr
      obtain ⟨taken, rfl, -⟩ := h.sound hc ht
      have hc' : line'.Closed := hc.tail
      rw [List.append_assoc]
      exact List.mem_append_right taken ((hn a).refusal hc' hr)
    | error refusal' line' =>
      rw [ht] at hr
      cases hr
      exact h.refusal hc ht

end Combinators

theorem headD_mem (line : LineTokens) :
    line.ahead.headD line.stop ∈ line.ahead ++ [line.stop] := by
  cases h : line.ahead <;> simp

def one (meaning? : Token.Kind → Option α) (fault : SyntaxFault) : Taking α := do
  match meaning? (← current).kind with
  | some a => advance; return a
  | none => refuse fault

abbrev RecognizesOne (taking : Taking α) (Meaning : Token.Kind → α → Prop) : Prop :=
  Recognizes taking fun kinds a => ∃ kind, kinds = [kind] ∧ Meaning kind a

section One
variable {meaning? : Token.Kind → Option α} {fault : SyntaxFault} {Meaning : Token.Kind → α → Prop}

private theorem run_one (line : LineTokens) : (one meaning? fault).run line =
    match meaning? (line.ahead.headD line.stop).kind with
    | some a => .ok a { line with ahead := line.ahead.tail }
    | none => .error ⟨fault, line.ahead.headD line.stop⟩ line := by
  have hcurrent : current.run line = .ok (line.ahead.headD line.stop) line := rfl
  rw [one, EStateM.run_bind, hcurrent]
  dsimp only
  cases meaning? (line.ahead.headD line.stop).kind <;> rfl

private theorem recognizes_one (hm : ∀ kind a, meaning? kind = some a ↔ Meaning kind a)
    (inner : ∀ kind a, Meaning kind a → kind.endsLine = false) :
    RecognizesOne (one meaning? fault) Meaning where
  sound := by
    rintro ⟨ahead, stop⟩ behind a hc hr
    rw [run_one] at hr
    split at hr
    · rename_i b hb
      cases hr
      have hb := (hm _ _).1 hb
      cases ahead with
      | nil => exact absurd (inner _ _ hb) (by simp [hc.stop])
      | cons t rest => exact ⟨[t], rfl, t.kind, rfl, hb⟩
    · cases hr
  complete := by
    rintro taken rest stop a hc ⟨kind, hk, ha⟩
    obtain ⟨t, rfl, rfl⟩ := List.map_eq_singleton_iff.1 hk
    rw [run_one]
    simp [(hm _ _).2 ha]
  refusal := by
    rintro line behind refusal hc hr
    rw [run_one] at hr
    split at hr
    · cases hr
    · cases hr
      exact headD_mem line

/-- A token first, then the rest. -/
theorem Recognizes.after_one {taking : Taking α} {next : α → Taking β}
    {N : α → List Token.Kind → β → Prop} (h : RecognizesOne taking Meaning)
    (hn : ∀ a, Recognizes (next a) (N a)) :
    Recognizes (taking >>= next) fun kinds b => ∃ kind rest a,
      kinds = kind :: rest ∧ Meaning kind a ∧ N a rest b := by
  refine (h.bind hn).congr fun kinds b => ⟨?_, ?_⟩
  · rintro ⟨_, rest, a, rfl, ⟨kind, rfl, hk⟩, hb⟩
    exact ⟨kind, rest, a, rfl, hk, hb⟩
  · rintro ⟨kind, rest, a, rfl, hk, hb⟩
    exact ⟨[kind], rest, a, rfl, ⟨kind, rfl, hk⟩, hb⟩

end One

section Tokens

def source? : Token.Kind → Option Source
  | .integer pattern => some (.immediate pattern)
  | .name word => (Register.ofName? word).map .register
  | _ => none

def mark? (m : Mark) (kind : Token.Kind) : Option Unit := if kind = .mark m then some () else none

def displacement? : Token.Kind → Option Nat
  | .integer pattern => some pattern
  | _ => none

def label? : Token.Kind → Option String
  | .name word => if Vocabulary.isReserved word then none else some word
  | _ => none

theorem register_eq_one : register = one register? .registerExpected := by
  unfold register one
  congr 1
  funext t
  cases register? t.kind <;> rfl

theorem source_eq_one : source = one source? .sourceExpected := by
  unfold source one
  congr 1
  funext t
  cases t.kind with
  | name word => cases hw : Register.ofName? word <;> simp [register?, source?, hw]
  | _ => rfl

theorem mark_eq_one (m : Mark) : mark m = one (mark? m) (.markExpected m) := by
  unfold mark one mark?
  congr 1
  funext t
  split <;> rfl

theorem displacement_eq_one : displacement = one displacement? .displacementExpected := by
  unfold displacement one
  congr 1
  funext t
  cases t.kind <;> rfl

theorem label_eq_one : label = one label? .labelExpected := by
  unfold label one label?
  congr 1
  funext t
  cases t.kind with
  | name word =>
    dsimp only
    split <;> rfl
  | _ => rfl

theorem register?_eq_some_iff {kind : Token.Kind} {r : Register} :
    register? kind = some r ↔ RegisterName kind r := by
  cases kind with
  | name word => exact registerName_iff.symm
  | _ => exact ⟨(nomatch ·), (nomatch ·)⟩

theorem source?_eq_some_iff {kind : Token.Kind} {s : Source} :
    source? kind = some s ↔ SourceToken kind s := by
  constructor
  · intro h
    cases kind with
    | integer pattern =>
      cases h
      exact .literal pattern
    | name word =>
      obtain ⟨r, hr, rfl⟩ := Option.map_eq_some_iff.1 h
      exact .register (registerName_iff.2 hr)
    | _ => cases h
  · rintro (hr | pattern)
    · cases kind with
      | name word => rw [source?, registerName_iff.1 hr, Option.map_some]
      | _ => cases hr
    · rfl

theorem mark?_eq_some_iff {m : Mark} {kind : Token.Kind} {u : Unit} :
    mark? m kind = some u ↔ kind = .mark m := by
  simp [mark?]

theorem displacement?_eq_some_iff {kind : Token.Kind} {d : Nat} :
    displacement? kind = some d ↔ kind = .integer d := by
  cases kind <;> simp [displacement?]

theorem label?_eq_some_iff {kind : Token.Kind} {word : String} :
    label? kind = some word ↔ kind = .name word ∧ ¬ Reserved word := by
  cases kind with
  | name other =>
    simp only [label?, reserved_iff, Option.ite_none_left_eq_some, Option.some.injEq,
      Token.Kind.name.injEq]
    constructor
    · rintro ⟨hn, rfl⟩
      exact ⟨rfl, hn⟩
    · rintro ⟨rfl, hn⟩
      exact ⟨hn, rfl⟩
  | _ => simp [label?]

theorem endsLine_of_registerName {kind : Token.Kind} {r : Register} (h : RegisterName kind r) :
    kind.endsLine = false := by
  cases h <;> rfl

theorem endsLine_of_sourceToken {kind : Token.Kind} {s : Source} (h : SourceToken kind s) :
    kind.endsLine = false := by
  cases h with
  | register hr => exact endsLine_of_registerName hr
  | literal pattern => rfl

private theorem register_recognizes : RecognizesOne register RegisterName := by
  rw [register_eq_one]
  exact recognizes_one (fun _ _ => register?_eq_some_iff) fun _ _ => endsLine_of_registerName

private theorem source_recognizes : RecognizesOne source SourceToken := by
  rw [source_eq_one]
  exact recognizes_one (fun _ _ => source?_eq_some_iff) fun _ _ => endsLine_of_sourceToken

private theorem mark_recognizes (m : Mark) :
    RecognizesOne (mark m) fun kind _ => kind = .mark m := by
  rw [mark_eq_one]
  refine recognizes_one (fun _ _ => mark?_eq_some_iff) ?_
  rintro _ _ rfl
  rfl

private theorem displacement_recognizes :
    RecognizesOne displacement fun kind d => kind = .integer d := by
  rw [displacement_eq_one]
  refine recognizes_one (fun _ _ => displacement?_eq_some_iff) ?_
  rintro _ _ rfl
  rfl

private theorem label_recognizes :
    RecognizesOne label fun kind word => kind = .name word ∧ ¬ Reserved word := by
  rw [label_eq_one]
  refine recognizes_one (fun _ _ => label?_eq_some_iff) ?_
  rintro _ _ ⟨rfl, -⟩
  rfl

end Tokens

section Operands

theorem operands_recognizes : ∀ shape : Shape,
    Recognizes (operands shape) fun kinds os => OperandTokens kinds os
  | .three => by
    refine (register_recognizes.after_one fun target => (mark_recognizes .comma).after_one fun _ =>
      register_recognizes.after_one fun left => (mark_recognizes .comma).after_one fun _ =>
      source_recognizes.after_one fun right => recognizes_pure _).congr fun kinds os => ⟨?_, ?_⟩
    · rintro ⟨t, _, target, rfl, ht, _, _, -, rfl, rfl, l, _, left, rfl, hl, _, _, -, rfl, rfl,
        k, _, right, rfl, hk, rfl, rfl⟩
      exact .three ht hl hk
    · intro h
      cases h with
      | three ht hl hk =>
        exact ⟨_, _, _, rfl, ht, _, _, (), rfl, rfl, _, _, _, rfl, hl, _, _, (), rfl, rfl,
          _, _, _, rfl, hk, rfl, rfl⟩
  | .two => by
    refine (register_recognizes.after_one fun r => (mark_recognizes .comma).after_one fun _ =>
      source_recognizes.after_one fun s => recognizes_pure _).congr fun kinds os => ⟨?_, ?_⟩
    · rintro ⟨t, _, r, rfl, ht, _, _, -, rfl, rfl, k, _, s, rfl, hk, rfl, rfl⟩
      exact .two ht hk
    · intro h
      cases h with
      | two ht hk => exact ⟨_, _, _, rfl, ht, _, _, (), rfl, rfl, _, _, _, rfl, hk, rfl, rfl⟩
  | .address => by
    refine (register_recognizes.after_one fun r => (mark_recognizes .comma).after_one fun _ =>
      displacement_recognizes.after_one fun d => (mark_recognizes .openBracket).after_one fun _ =>
      register_recognizes.after_one fun base => (mark_recognizes .closeBracket).after_one fun _ =>
      recognizes_pure _).congr fun kinds os => ⟨?_, ?_⟩
    · rintro ⟨t, _, r, rfl, ht, _, _, -, rfl, rfl, _, _, d, rfl, rfl, _, _, -, rfl, rfl,
        b, _, base, rfl, hb, _, _, -, rfl, rfl, rfl, rfl⟩
      exact .address ht hb
    · intro h
      cases h with
      | address ht hb =>
        exact ⟨_, _, _, rfl, ht, _, _, (), rfl, rfl, _, _, _, rfl, rfl, _, _, (), rfl, rfl,
          _, _, _, rfl, hb, _, _, (), rfl, rfl, rfl, rfl⟩
  | .branch => by
    refine (label_recognizes.after_one fun word => recognizes_pure _).congr
      fun kinds os => ⟨?_, ?_⟩
    · rintro ⟨_, _, word, rfl, ⟨rfl, free⟩, rfl, rfl⟩
      exact .branch free
    · intro h
      cases h with
      | branch free => exact ⟨_, _, _, rfl, ⟨rfl, free⟩, rfl, rfl⟩
  | .bare => by
    refine (recognizes_pure Operands.bare).congr fun kinds os => ⟨?_, ?_⟩
    · rintro ⟨rfl, rfl⟩
      exact .bare
    · intro h
      cases h
      exact ⟨rfl, rfl⟩

end Operands
end Taking
end MiniRisc.Statement
