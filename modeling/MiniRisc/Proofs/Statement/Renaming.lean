import MiniRisc.Proofs.Statement.Lines
import MiniRisc.Proofs.Token.Renaming
/-! Statements of renamed tokens. They are renamed statements, and where tokens are refused, the
renamed ones are refused at the same token for the same reason. -/
namespace MiniRisc

section Renamed
variable (r : Renaming)

def Operands.renamed {shape : Shape} : Operands shape → Operands shape
  | branch label => branch (r.rename label)
  | operands => operands

def Statement.Body.renamed (b : Statement.Body) : Statement.Body :=
  { b with operands := b.operands.renamed r }

def Statement.renamed (lines : List String) (s : Statement) : Statement where
  line := s.line
  text := Text.trim (Text.lineAt lines s.line)
  label := s.label.map r.rename
  body := s.body.map (Statement.Body.renamed r)

def Diagnostic.Cause.renamed : Diagnostic.Cause → Diagnostic.Cause
  | grammatical fault token => grammatical (fault.renamed r) (token.renamed r)
  | duplicateLabel name => duplicateLabel (r.rename name)
  | undefinedLabel name => undefinedLabel (r.rename name)
  | cause => cause

/-- The diagnostic of renamed tokens, with its line as another text has it: the whole of it for a
token that does not fit, and else trimmed. -/
def Diagnostic.renamed (lines : List String) (d : Diagnostic) : Diagnostic where
  cause := d.cause.renamed r
  line := d.line
  lineText :=
    match d.cause with
    | .grammatical _ _ => Text.lineAt lines d.line
    | _ => Text.trim (Text.lineAt lines d.line)

private theorem Operands.endsWithImmediate_renamed {shape : Shape} (operands : Operands shape) :
    (operands.renamed r).endsWithImmediate = operands.endsWithImmediate := by
  cases operands <;> rfl

end Renamed

namespace Statement
variable (r : Renaming)

def LineTokens.renamed (line : LineTokens) : LineTokens :=
  ⟨line.ahead.map (Token.renamed r), line.stop.renamed r⟩

def Refusal.renamed (refusal : Refusal) : Refusal :=
  ⟨refusal.fault.renamed r, refusal.token.renamed r⟩

namespace Taking
variable {α β γ δ : Type}

def renamed (f : α → β) :
    EStateM.Result Refusal LineTokens α → EStateM.Result Refusal LineTokens β
  | .ok a behind => .ok (f a) (behind.renamed r)
  | .error refusal behind => .error (refusal.renamed r) (behind.renamed r)

/-- Of renamed tokens the second taking takes what the first takes of the tokens, up to a change,
and it refuses what the first refuses. -/
def Renames (f : α → β) (taking : Taking α) (taking' : Taking β) : Prop :=
  ∀ line, taking'.run (line.renamed r) = renamed r f (taking.run line)

section Combinators
variable {r} {f : α → β} {g : γ → δ} {taking : Taking α} {taking' : Taking β}

private theorem renames_pure {a : α} {b : β} (h : f a = b) : Renames r f (pure a) (pure b) :=
  fun _ => h ▸ rfl

theorem Renames.bind {next : α → Taking γ} {next' : β → Taking δ} (h : Renames r f taking taking')
    (hn : ∀ a, Renames r g (next a) (next' (f a))) :
    Renames r g (taking >>= next) (taking' >>= next') := by
  intro line
  rw [EStateM.run_bind, EStateM.run_bind, h line]
  cases taking.run line with
  | ok a behind => exact hn a behind
  | error refusal behind => rfl

private theorem headD_renamed (tokens : List Token) (stop : Token) :
    (tokens.map (Token.renamed r)).headD (stop.renamed r) = (tokens.headD stop).renamed r := by
  cases tokens <;> rfl

private theorem renames_current : Renames r (Token.renamed r) current current := fun line =>
  congrArg (EStateM.Result.ok · _) (headD_renamed line.ahead line.stop)

private theorem renames_following : Renames r (Token.renamed r) following following :=
  fun line => by
  refine congrArg (EStateM.Result.ok · _) ?_
  rw [← headD_renamed, List.map_tail]
  rfl

private theorem renames_advance : Renames r id advance advance := fun line => by
  refine congrArg (EStateM.Result.ok ()) ?_
  exact congrArg (LineTokens.mk · _) List.map_tail.symm

private theorem renames_refuse {fault fault' : SyntaxFault} (h : fault.renamed r = fault') :
    Renames r f (refuse fault) (refuse fault') :=
  h ▸ renames_current.bind fun _ _ => rfl

private theorem renames_one {meaning? : Token.Kind → Option α} {meaning?' : Token.Kind → Option β}
    {fault : SyntaxFault} (h : ∀ kind, meaning?' (kind.renamed r) = (meaning? kind).map f)
    (hf : fault.renamed r = fault) : Renames r f (one meaning? fault) (one meaning?' fault) := by
  refine renames_current.bind fun t => ?_
  rw [Token.kind_renamed, h]
  cases meaning? t.kind with
  | none => exact renames_refuse hf
  | some a => exact renames_advance.bind fun _ => renames_pure rfl

end Combinators

section Tokens

private theorem renames_register : Renames r id register register := by
  rw [register_eq_one]
  refine renames_one (fun kind => ?_) rfl
  rw [Option.map_id]
  cases kind with
  | name word => exact r.ofName?_rename word
  | _ => rfl

private theorem renames_source : Renames r id source source := by
  rw [source_eq_one]
  refine renames_one (fun kind => ?_) rfl
  rw [Option.map_id]
  cases kind with
  | name word => exact congrArg (Option.map Source.register) (r.ofName?_rename word)
  | _ => rfl

private theorem renames_mark (m : Mark) : Renames r id (mark m) (mark m) := by
  rw [mark_eq_one]
  refine renames_one (fun kind => ?_) rfl
  rw [Option.map_id]
  exact if_congr (Token.Kind.renamed_eq_mark_iff r) rfl rfl

private theorem renames_displacement : Renames r id displacement displacement := by
  rw [displacement_eq_one]
  refine renames_one (fun kind => ?_) rfl
  cases kind <;> rfl

private theorem renames_label : Renames r r.rename label label := by
  rw [label_eq_one]
  refine renames_one (fun kind => ?_) rfl
  cases kind with
  | name word =>
    rw [Token.Kind.renamed, label?, label?, r.isReserved_rename]
    split <;> rfl
  | _ => rfl

private theorem renames_operands : ∀ shape : Shape,
    Renames r (Operands.renamed r) (operands shape) (operands shape)
  | .three => (renames_register r).bind fun _ => (renames_mark r .comma).bind fun _ =>
    (renames_register r).bind fun _ => (renames_mark r .comma).bind fun _ =>
    (renames_source r).bind fun _ => renames_pure rfl
  | .two => (renames_register r).bind fun _ => (renames_mark r .comma).bind fun _ =>
    (renames_source r).bind fun _ => renames_pure rfl
  | .address => (renames_register r).bind fun _ => (renames_mark r .comma).bind fun _ =>
    (renames_displacement r).bind fun _ => (renames_mark r .openBracket).bind fun _ =>
    (renames_register r).bind fun _ => (renames_mark r .closeBracket).bind fun _ =>
    renames_pure rfl
  | .branch => (renames_label r).bind fun _ => renames_pure rfl
  | .bare => renames_pure rfl

end Tokens

private theorem renames_body (labelled : Bool) :
    Renames r (Statement.Body.renamed r) (body labelled) (body labelled) := by
  refine renames_current.bind fun first => ?_
  rw [Token.kind_renamed]
  cases hk : first.kind with
  | name word =>
    simp only [Token.Kind.renamed, r.splitMnemonic?_rename]
    cases hs : Vocabulary.splitMnemonic? word with
    | none =>
      dsimp only
      cases labelled with
      | true => exact renames_refuse rfl
      | false =>
        refine renames_following.bind fun next => ?_
        rw [Token.kind_renamed, Token.Kind.endsLine_renamed]
        split
        · exact renames_refuse rfl
        · exact renames_refuse rfl
    | some mnemonic =>
      dsimp only
      split
      · exact renames_refuse rfl
      · refine renames_advance.bind fun _ => (renames_operands r _).bind fun operands => ?_
        rw [Operands.endsWithImmediate_renamed]
        split
        · exact fun _ => rfl
        · exact renames_pure rfl
  | _ => exact renames_refuse rfl

private theorem renames_definition? : Renames r (Option.map r.rename) definition? definition? := by
  refine renames_current.bind fun first => ?_
  rw [Token.kind_renamed]
  cases first.kind with
  | name word =>
    refine renames_following.bind fun next => ?_
    simp only [Token.kind_renamed, Token.Kind.renamed_eq_mark_iff, r.isReserved_rename]
    split
    · split
      · exact renames_refuse rfl
      · exact renames_advance.bind fun _ => renames_advance.bind fun _ => renames_pure rfl
    · exact renames_pure rfl
  | _ => exact renames_pure rfl

private theorem renames_finish : Renames r id finish finish := by
  refine renames_current.bind fun t => ?_
  dsimp only
  rw [Token.kind_renamed, Token.Kind.endsLine_renamed]
  split
  · exact renames_pure rfl
  · exact renames_refuse rfl

private theorem renames_statement? (lines lines' : List String) :
    Renames r (Option.map (Statement.renamed r lines')) (statement? lines) (statement? lines') := by
  refine renames_current.bind fun first => ?_
  rw [Token.kind_renamed, Token.Kind.endsLine_renamed]
  split
  · exact renames_pure rfl
  · refine (renames_definition? r).bind fun label => renames_current.bind fun next => ?_
    rw [Option.isSome_map, Token.kind_renamed, Token.Kind.endsLine_renamed]
    split
    · exact renames_pure rfl
    · exact (renames_body r _).bind fun body => (renames_finish r).bind fun _ => renames_pure rfl

end Taking

section Lines
variable (lines lines' : List String) (tokens : List Token)

private theorem splitLine_renamed : splitLine (tokens.map (Token.renamed r)) =
    ((splitLine tokens).1.map (Token.renamed r), (splitLine tokens).2.map (Token.renamed r)) := by
  have hends : (fun t : Token => !t.kind.endsLine) ∘ Token.renamed r = (!·.kind.endsLine) :=
    funext fun t => by simp
  rw [splitLine, splitLine, List.takeWhile_map, List.dropWhile_map, hends]

private theorem behind_renamed :
    behind (tokens.map (Token.renamed r)) = (behind tokens).map (Token.renamed r) := by
  cases tokens with
  | nil => rfl
  | cons stop rest =>
    rw [List.map_cons, behind, behind, Token.kind_renamed]
    simp only [Token.Kind.renamed_eq_textEnd_iff]
    split <;> rfl

private theorem ofLine?_renamed : (ofLine? lines' (tokens.map (Token.renamed r))).1 =
    ((ofLine? lines tokens).1.map (Option.map (Statement.renamed r lines'))).mapError
      (Diagnostic.renamed r lines') := by
  have hstop : ((splitLine tokens).2.map (Token.renamed r)).headD ⟨.textEnd, {}⟩ =
      ((splitLine tokens).2.headD ⟨.textEnd, {}⟩).renamed r :=
    Taking.headD_renamed (splitLine tokens).2 ⟨.textEnd, {}⟩
  have hrun := Taking.renames_statement? r lines lines'
    ⟨(splitLine tokens).1, (splitLine tokens).2.headD ⟨.textEnd, {}⟩⟩
  rw [ofLine?, ofLine?, splitLine_renamed]
  dsimp only [LineTokens.renamed] at hrun ⊢
  rw [hstop, hrun]
  cases (Taking.statement? lines).run _ <;> rfl

theorem ofTokens_renamed : ofTokens lines' (tokens.map (Token.renamed r)) =
    ((ofTokens lines tokens).map (List.map (Statement.renamed r lines'))).mapError
      (Diagnostic.renamed r lines') := by
  fun_induction ofTokens lines tokens with
  | case1 =>
    rw [List.map_nil, ofTokens]
    rfl
  | case2 t tokens ht =>
    have ht' : (t.renamed r).kind = .textEnd := (Token.Kind.renamed_eq_textEnd_iff r).2 ht
    rw [List.map_cons, ofTokens, dif_pos ht']
    rfl
  | case3 t tokens ht d hd =>
    have ht' : (t.renamed r).kind ≠ .textEnd := mt (Token.Kind.renamed_eq_textEnd_iff r).1 ht
    rw [List.map_cons, ofTokens_cons ht', ← List.map_cons, ofLine?_renamed r lines, hd]
    rfl
  | case4 t tokens ht hs ih =>
    have ht' : (t.renamed r).kind ≠ .textEnd := mt (Token.Kind.renamed_eq_textEnd_iff r).1 ht
    rw [List.map_cons, ofTokens_cons ht', ← List.map_cons, ofLine?_renamed r lines, hs,
      splitLine_renamed, behind_renamed, ih]
    cases ofTokens lines (behind _) <;> rfl
  | case5 t tokens ht s hs ih =>
    have ht' : (t.renamed r).kind ≠ .textEnd := mt (Token.Kind.renamed_eq_textEnd_iff r).1 ht
    rw [List.map_cons, ofTokens_cons ht', ← List.map_cons, ofLine?_renamed r lines, hs,
      splitLine_renamed, behind_renamed, ih]
    cases ofTokens lines (behind _) <;> rfl

end Lines
end Statement
end MiniRisc
