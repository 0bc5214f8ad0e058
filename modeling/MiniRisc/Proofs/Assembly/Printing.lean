import MiniRisc.Proofs.Assembly.Resolution
import MiniRisc.Proofs.Statement.Spelling
/-! Instructions as they are printed: the text of an instruction of a program is a line that is
resolved to the same instruction. -/
namespace MiniRisc
open Grammar

def Source.masked : Source → Source
  | register r => .register r
  | immediate pattern => .immediate (pattern % 2 ^ 16)

def Operands.masked {shape : Shape} : Operands shape → Operands shape
  | three target left right => .three target left right.masked
  | two register source => .two register source.masked
  | address register displacement base => .address register (displacement % 2 ^ 16) base
  | branch label => .branch label
  | bare => .bare

private theorem Operands.endsWithImmediate_masked {shape : Shape} (operands : Operands shape) :
    operands.masked.endsWithImmediate = operands.endsWithImmediate := by
  cases operands with
  | three target left right => cases right <;> rfl
  | two register source => cases source <;> rfl
  | _ => rfl

namespace Assembly
variable {labels : LabelTable} {op : Opcode} {modifier : Modifier} {line : Int} {shape : Shape}

private theorem withSource_masked (o : Operation) (modifier : Modifier) (source : Source) :
    withSource o modifier source.masked = withSource o modifier source := by
  cases source with
  | register r => rfl
  | immediate pattern => simp [Source.masked, withSource]

@[simp] theorem op_withSource (o : Operation) (modifier : Modifier) (source : Source) :
    (withSource o modifier source).op = o.op := by
  cases source <;> rfl

@[simp] theorem rd_withSource (o : Operation) (modifier : Modifier) (source : Source) :
    (withSource o modifier source).rd = o.rd := by
  cases source <;> rfl

@[simp] theorem rs1_withSource (o : Operation) (modifier : Modifier) (source : Source) :
    (withSource o modifier source).rs1 = o.rs1 := by
  cases source <;> rfl

private theorem resolveOperands_masked (labels : LabelTable) (op : Opcode) (modifier : Modifier)
    (line : Int) (operands : Operands shape) :
    resolveOperands labels op modifier line operands.masked =
      resolveOperands labels op modifier line operands := by
  cases operands with
  | three target left right => simp only [Operands.masked, resolveOperands, withSource_masked]
  | two register source => simp only [Operands.masked, resolveOperands, withSource_masked]
  | address register displacement base => simp [Operands.masked, resolveOperands]
  | _ => rfl

end Assembly

section Words

private theorem isWord_register (r : Register) : IsWord r.name := by
  have table : (List.finRange 16).map (fun r : Register => decide (IsWord r.name)) =
      (List.finRange 16).map fun _ => true := by cbv
  exact of_decide_eq_true (List.map_inj_left.1 table r (List.mem_finRange r))

private theorem isWord_mnemonic (op : Opcode) (modifier : Modifier) :
    IsWord (op.mnemonic ++ modifier.suffix) := by
  cases op <;> cases modifier <;> decide

private theorem registerName_name (r : Register) : RegisterName (.name r.name) r := by
  rw [Register.name]
  split
  · rename_i hr
    subst hr
    exact .stackPointer
  · exact .numbered r

private theorem spells_register (r : Register) : Spells (.name r.name) r.name.toList :=
  spells_name (isWord_register r)

end Words

namespace Instruction
variable {i : Instruction}

/-- The text of an immediate is a literal that the instruction keeps the same bits of. -/
theorem spells_immediateText (modifier : Modifier) {imm : Nat} (h : imm < 2 ^ 16) :
    ∃ pattern, Spells (.integer pattern) (immediateText modifier imm).toList ∧
      pattern % 2 ^ 16 = imm := by
  cases modifier with
  | signed =>
    have hvalue := Int.bmod_def (imm : Int) (2 ^ 16)
    simp only [immediateText]
    generalize (imm : Int).bmod (2 ^ 16) = value at hvalue ⊢
    -- A negative value is a literal of 32 bits, whose low half are the bits of the immediate.
    have hcases : value = imm ∨ value = imm - 2 ^ 16 := by
      split at hvalue <;> omega
    refine ⟨_, spells_decimal ?_ ?_, ?_⟩
    · rw [lowestLiteral]
      omega
    · rw [highestLiteral]
      omega
    · omega
  | unsigned | high =>
    have himm : ((imm : Int) % 2 ^ 16).toNat = imm := by omega
    have hhigh : (imm : Int) ≤ highestLiteral := by
      rw [highestLiteral]
      omega
    refine ⟨imm, ?_, Nat.mod_eq_of_lt h⟩
    simp only [immediateText, himm]
    exact spells_hex hhigh

/-- The text of a second source is read as a source with the same bits. -/
theorem spells_sourceText {o : Operation} {modifier : Modifier} {source : Source}
    (hi : i.toOperation = Assembly.withSource o modifier source) (ho : o.imm = none) :
    ∃ text kind source', i.sourceText = .ok text ∧ Spells kind text.toList ∧
      SourceToken kind source' ∧ source'.masked = source.masked := by
  cases source with
  | register r =>
    have himm : i.imm = none := by rw [hi]; exact ho
    have hrs2 : i.rs2 = some (r.val : Int) := by rw [hi]; rfl
    refine ⟨r.name, _, .register r, ?_, spells_register r, .register (registerName_name r), rfl⟩
    rw [sourceText, himm, hrs2]
    exact registerName_val r
  | immediate pattern =>
    have himm : i.imm = some ((pattern % 2 ^ 16 : Nat) : Int) := by rw [hi]; rfl
    have hmodifier : i.modifier = modifier := by rw [hi]; rfl
    obtain ⟨pattern', hspells, hp⟩ :=
      spells_immediateText modifier (Nat.mod_lt pattern (by decide : 2 ^ 16 > 0))
    refine ⟨_, _, .immediate pattern', ?_, hspells, .literal pattern', ?_⟩
    · rw [sourceText, himm, hmodifier]
    · rw [Source.masked, Source.masked, hp]

private theorem spells_displacementText {displacement : Nat}
    (hi : i.imm = some ((displacement % 2 ^ 16 : Nat) : Int)) :
    ∃ text pattern, i.displacementText = .ok text ∧ Spells (.integer pattern) text.toList ∧
      pattern % 2 ^ 16 = displacement % 2 ^ 16 := by
  obtain ⟨pattern, hspells, hp⟩ :=
    spells_immediateText .signed (Nat.mod_lt displacement (by decide : 2 ^ 16 > 0))
  exact ⟨_, pattern, by rw [displacementText, hi], hspells, hp⟩

section Render
variable {target left source base displacement : String}

private theorem render_three (hs : i.op.shape = .three) (ht : registerName i.rd = .ok target)
    (hl : registerName i.rs1 = .ok left) (hk : i.sourceText = .ok source) :
    i.render = .ok (i.mnemonic ++ (" " ++ target ++ ", " ++ left ++ ", " ++ source)) := by
  simp only [render, hs, ht, hl, hk, String.append_assoc]
  rfl

private theorem render_two (hs : i.op.shape = .two) (ht : registerName i.rd = .ok target)
    (hl : registerName (if i.op = .cmp then i.rs1 else i.rd) = .ok left)
    (hk : i.sourceText = .ok source) :
    i.render = .ok (i.mnemonic ++ (" " ++ left ++ ", " ++ source)) := by
  by_cases hop : i.op = .cmp
  · rw [if_pos hop] at hl
    simp only [render, ht, hl, hk, hop, ↓reduceIte, String.append_assoc]
    rfl
  · rw [if_neg hop, ht] at hl
    cases hl
    simp only [render, hs, ht, hk, hop, ↓reduceIte, String.append_assoc]
    rfl

private theorem render_address (hs : i.op.shape = .address) (ht : registerName i.rd = .ok target)
    (hd : i.displacementText = .ok displacement) (hb : registerName i.rs1 = .ok base) :
    i.render =
      .ok (i.mnemonic ++ (" " ++ target ++ ", " ++ displacement ++ "[" ++ base ++ "]")) := by
  simp only [render, hs, ht, hd, hb, String.append_assoc]
  rfl

private theorem render_branch (hs : i.op.shape = .branch) (ht : registerName i.rd = .ok target) :
    i.render = .ok (i.mnemonic ++ (" " ++ i.targetText)) := by
  simp only [render, hs, ht, String.append_assoc]
  rfl

private theorem render_bare (hs : i.op.shape = .bare) (ht : registerName i.rd = .ok target) :
    i.render = .ok (i.mnemonic ++ "") := by
  simp only [render, hs, ht, String.append_empty]
  rfl

end Render

/-- An instruction is printed with operands that are read as these, up to the bits of literals that
it does not keep. -/
def Prints (i : Instruction) {shape : Shape} (operands : Operands shape) : Prop :=
  ∃ (rest : String) (kinds : List Token.Kind) (operands' : Operands shape),
    i.render = .ok (i.mnemonic ++ rest) ∧ Lexeme.StopsAt Lexeme.continuesName rest.toList ∧
      Spelled rest.toList kinds ∧ OperandTokens kinds operands' ∧
      operands'.masked = operands.masked

end Instruction

namespace Spelled
variable {kind : Token.Kind} {word text : List Char} {kinds : List Token.Kind}

theorem last (h : Spells kind word) : Spelled word [kind] := by
  have hend : Lexeme.StopsAt Lexeme.continuesName [] := fun _ hc => by cases hc
  have hlast := Spelled.word h hend .nil
  rwa [List.append_nil] at hlast

/-- A token, a comma and a space. -/
theorem list (h : Spells kind word) (rest : Spelled text kinds) :
    Spelled (word ++ ',' :: ' ' :: text) (kind :: .mark .comma :: kinds) := by
  refine .word h ?_ (.mark .comma (.space rest))
  rintro _ ⟨⟩
  rfl

end Spelled

namespace Assembly
open Instruction
variable {labels : LabelTable} {op : Opcode} {modifier : Modifier} {line : Int} {shape : Shape}
  {i : Instruction}

theorem stopsAt_cons {c : Char} {text : List Char} (h : Lexeme.continuesName c = false) :
    Lexeme.StopsAt Lexeme.continuesName (c :: text) := by
  rintro _ ⟨⟩
  exact h

private theorem prints_three (hs : op.shape = .three) (modifier : Modifier) (line : Int)
    (target left : Register) (right : Source) :
    Instruction.Prints
      { withSource { op, rd := target.val, rs1 := left.val } modifier right with line }
      (.three target left right) := by
  obtain ⟨text, kind, right', htext, hspells, hkind, hmasked⟩ := spells_sourceText
    (i := { withSource { op, rd := target.val, rs1 := left.val } modifier right with line }) rfl rfl
  have hrest : (" " ++ target.name ++ ", " ++ left.name ++ ", " ++ text).toList =
      ' ' :: (target.name.toList ++ ',' :: ' ' ::
        (left.name.toList ++ ',' :: ' ' :: text.toList)) := by
    simp [String.toList_append]
  have hrender := render_three (by simpa using hs) (by simpa using registerName_val target)
    (by simpa using registerName_val left) htext
  refine ⟨_, _, .three target left right', hrender, ?_, ?_,
    .three (registerName_name target) (registerName_name left) hkind, ?_⟩
  · rw [hrest]
    exact stopsAt_cons rfl
  · rw [hrest]
    exact .space (.list (spells_register target) (.list (spells_register left) (.last hspells)))
  · rw [Operands.masked, Operands.masked, hmasked]

private theorem prints_two {o : Operation} (hs : o.op.shape = .two) (ho : o.imm = none)
    (modifier : Modifier) (line : Int) (target : Register) {register : Register} (source : Source)
    (ht : o.rd = target.val) (hl : (if o.op = .cmp then o.rs1 else o.rd) = register.val) :
    Instruction.Prints { withSource o modifier source with line } (.two register source) := by
  obtain ⟨text, kind, source', htext, hspells, hkind, hmasked⟩ :=
    spells_sourceText (i := { withSource o modifier source with line }) rfl ho
  have hrest : (" " ++ register.name ++ ", " ++ text).toList =
      ' ' :: (register.name.toList ++ ',' :: ' ' :: text.toList) := by
    simp [String.toList_append]
  have hrender := render_two (by simpa using hs) (by simpa [ht] using registerName_val target)
    (by simpa [hl] using registerName_val register) htext
  refine ⟨_, _, .two register source', hrender, ?_, ?_,
    .two (registerName_name register) hkind, ?_⟩
  · rw [hrest]
    exact stopsAt_cons rfl
  · rw [hrest]
    exact .space (.list (spells_register register) (.last hspells))
  · rw [Operands.masked, Operands.masked, hmasked]

private theorem prints_address {register base : Register} {displacement : Nat}
    (hs : i.op.shape = .address) (hrd : i.rd = register.val) (hrs1 : i.rs1 = base.val)
    (himm : i.imm = some ((displacement % 2 ^ 16 : Nat) : Int)) :
    i.Prints (.address register displacement base) := by
  obtain ⟨text, pattern, htext, hspells, hpattern⟩ := spells_displacementText himm
  have hrender := render_address hs (hrd ▸ registerName_val register) htext
    (hrs1 ▸ registerName_val base)
  have hrest : (" " ++ register.name ++ ", " ++ text ++ "[" ++ base.name ++ "]").toList =
      ' ' :: (register.name.toList ++ ',' :: ' ' ::
        (text.toList ++ '[' :: (base.name.toList ++ [']']))) := by
    simp [String.toList_append]
  have hbase : Spelled (base.name.toList ++ [']']) [.name base.name, .mark .closeBracket] :=
    .word (spells_register base) (stopsAt_cons rfl) (.mark .closeBracket .nil)
  refine ⟨_, _, .address register pattern base, hrender, ?_, ?_,
    .address (registerName_name register) (registerName_name base), ?_⟩
  · rw [hrest]
    exact stopsAt_cons rfl
  · rw [hrest]
    exact .space (.list (spells_register register)
      (.word hspells (stopsAt_cons rfl) (.mark .openBracket hbase)))
  · rw [Operands.masked, Operands.masked, hpattern]

private theorem prints_branch (hs : op.shape = .branch) (line : Int) (index : Nat) {name : String}
    (hw : IsWord name) (hn : ¬ Reserved name) :
    Instruction.Prints { op, imm := some (index : Int), line, label := some name }
      (.branch name) := by
  have hne : name ≠ "" := by
    rintro rfl
    exact absurd hw (by decide)
  have hrender := render_branch (i := { op, imm := some (index : Int), line, label := some name })
    hs (registerName_val 0)
  simp only [targetText, if_neg hne] at hrender
  have hrest : (" " ++ name).toList = ' ' :: name.toList := by
    simp [String.toList_append]
  refine ⟨_, _, .branch name, hrender, ?_, ?_, .branch hn, rfl⟩
  · rw [hrest]
    exact stopsAt_cons rfl
  · rw [hrest]
    exact .space (.last (spells_name hw))

private theorem prints_bare (hs : op.shape = .bare) (line : Int) :
    Instruction.Prints { op, line } .bare := by
  have hrender := render_bare (i := { op, line }) hs (registerName_val 0)
  exact ⟨_, _, .bare, hrender, fun _ hc => (by cases hc), .nil, .bare, rfl⟩

/-- A branch that is resolved has the index of its label. -/
theorem branch_of_resolved {name : String}
    (h : resolveOperands labels op modifier line (.branch name) = .ok i) :
    ∃ index : Nat, labels.lookup name = some index ∧
      i = { op, imm := some (index : Int), line, label := some name } := by
  rw [resolveOperands_of_reference rfl] at h
  cases hl : labels.lookup name with
  | none =>
    rw [hl] at h
    cases h
  | some index =>
    rw [hl] at h
    exact ⟨index, rfl, (Except.ok.inj h).symm⟩

/-- Resolved operands are printed as they are read. -/
theorem prints_of_resolved {operands : Operands shape} (hs : op.shape = shape)
    (hw : ∀ name, operands.reference? = some name → IsWord name ∧ ¬ Reserved name)
    (h : resolveOperands labels op modifier line operands = .ok i) : i.Prints operands := by
  cases operands with
  | three target left right =>
    obtain rfl := Except.ok.inj h
    exact prints_three hs modifier line target left right
  | two register source =>
    obtain rfl := Except.ok.inj h
    by_cases hop : op = .cmp
    · rw [if_pos hop]
      exact prints_two hs rfl modifier line 0 source rfl (by rw [if_pos hop])
    · rw [if_neg hop]
      exact prints_two hs rfl modifier line register source rfl (by rw [if_neg hop])
  | address register displacement base =>
    obtain rfl := Except.ok.inj h
    exact prints_address hs rfl rfl rfl
  | branch name =>
    obtain ⟨hword, hfree⟩ := hw name rfl
    obtain ⟨index, -, rfl⟩ := branch_of_resolved h
    exact prints_branch hs line index hword hfree
  | bare =>
    obtain rfl := Except.ok.inj h
    exact prints_bare hs line

section Resolved
variable {operands : Operands shape}

theorem resolveOperands_line (h : resolveOperands labels op modifier line operands = .ok i)
    (line' : Int) :
    resolveOperands labels op modifier line' operands = .ok { i with line := line' } := by
  cases operands with
  | branch name =>
    obtain ⟨index, hl, rfl⟩ := branch_of_resolved h
    rw [resolveOperands_of_reference rfl, hl]
  | _ =>
    cases h
    rfl

theorem label_of_resolved (h : resolveOperands labels op modifier line operands = .ok i) :
    i.label = operands.reference? := by
  cases operands with
  | branch name =>
    obtain ⟨index, -, rfl⟩ := branch_of_resolved h
    rfl
  | _ =>
    cases h
    rfl

/-- A modifier that is legal is kept. -/
theorem mnemonic_of_resolved (legal : modifier ≠ .signed → operands.endsWithImmediate)
    (h : resolveOperands labels op modifier line operands = .ok i) :
    i.mnemonic = op.mnemonic ++ modifier.suffix := by
  have hsigned (he : operands.endsWithImmediate = false) : modifier = .signed := by
    cases modifier with
    | signed => rfl
    | _ => simp [he] at legal
  cases operands with
  | three target left right =>
    cases h
    cases right with
    | register r =>
      rw [hsigned rfl]
      rfl
    | immediate pattern => rfl
  | two register source =>
    cases h
    cases source with
    | register r =>
      rw [hsigned rfl]
      simp only [withSource]
      split <;> rfl
    | immediate pattern =>
      simp only [withSource]
      split <;> rfl
  | branch name =>
    obtain ⟨index, -, rfl⟩ := branch_of_resolved h
    rw [hsigned rfl]
    rfl
  | _ =>
    cases h
    rw [hsigned rfl]
    rfl

end Resolved

/-- A text that an instruction has, and the body that it is read as: it is resolved to the same
instruction on every line. -/
structure Printed (labels : LabelTable) (i : Instruction) (text : String)
    (b : Statement.Body) : Prop where
  render : i.render = .ok text
  reads : Statement.LineReads text (none, some b)
  resolves (line : Int) :
    resolveOperands labels b.op b.modifier line b.operands = .ok { i with line }

/-- The instruction of a legal body is printed. -/
theorem exists_printed {b : Statement.Body} (legal : b.Legal)
    (hw : ∀ name, b.operands.reference? = some name → IsWord name ∧ ¬ Reserved name)
    (h : resolveOperands labels b.op b.modifier line b.operands = .ok i) :
    ∃ text b', Printed labels i text b' := by
  obtain ⟨rest, kinds, operands, hrender, hstop, hspelled, htokens, hmasked⟩ :=
    prints_of_resolved rfl hw h
  have hmnemonic := mnemonic_of_resolved (fun hm => (legal hm).2) h
  have hresolved : resolveOperands labels b.op b.modifier line operands = .ok i := by
    rw [← resolveOperands_masked, hmasked, resolveOperands_masked]
    exact h
  have hlegal : Statement.Body.Legal ⟨b.op, b.modifier, operands⟩ := by
    intro hm
    have hlast : operands.endsWithImmediate = b.operands.endsWithImmediate := by
      rw [← Operands.endsWithImmediate_masked, hmasked, Operands.endsWithImmediate_masked]
    exact ⟨(legal hm).1, hlast.trans (legal hm).2⟩
  rw [hmnemonic] at hrender
  refine ⟨_, ⟨b.op, b.modifier, operands⟩, hrender, ⟨_, ?_, .instruction (.mk htokens hlegal)⟩,
    resolveOperands_line hresolved⟩
  rw [String.toList_append]
  exact .word (spells_name (isWord_mnemonic b.op b.modifier)) hstop hspelled

end Assembly
end MiniRisc
