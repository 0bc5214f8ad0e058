import Mathlib
import MiniRisc.Proofs.Statement.Legal
/-! The grammar of a line of an assembly program, over the kinds of its tokens:

    line        ::=  [label ":"] [instruction]
    instruction ::=  mnemonic operands

A mnemonic may have the letter of a modifier. The operands are those of its shape, with commas
between them. A label is any name without a meaning of its own. -/
namespace MiniRisc
namespace Grammar

inductive RegisterName : Token.Kind → Register → Prop
  | numbered (r : Register) : RegisterName (.name r.numbered) r
  | stackPointer : RegisterName (.name "sp") 14

inductive SourceToken : Token.Kind → Source → Prop
  | register {kind : Token.Kind} {r : Register} (name : RegisterName kind r) :
      SourceToken kind (.register r)
  | literal (pattern : Nat) : SourceToken (.integer pattern) (.immediate pattern)

inductive Reserved : String → Prop
  | register {word : String} {r : Register} (name : RegisterName (.name word) r) : Reserved word
  | mnemonic (op : Opcode) (modifier : Modifier) : Reserved (op.mnemonic ++ modifier.suffix)

inductive OperandTokens : List Token.Kind → {shape : Shape} → Operands shape → Prop
  | three {t l k : Token.Kind} {target left : Register} {right : Source}
      (ht : RegisterName t target) (hl : RegisterName l left) (hk : SourceToken k right) :
      OperandTokens [t, .mark .comma, l, .mark .comma, k] (.three target left right)
  | two {t k : Token.Kind} {register : Register} {source : Source}
      (ht : RegisterName t register) (hk : SourceToken k source) :
      OperandTokens [t, .mark .comma, k] (.two register source)
  | address {t b : Token.Kind} {register base : Register} {displacement : Nat}
      (ht : RegisterName t register) (hb : RegisterName b base) :
      OperandTokens [t, .mark .comma, .integer displacement, .mark .openBracket, b,
        .mark .closeBracket] (.address register displacement base)
  | branch {word : String} (free : ¬ Reserved word) : OperandTokens [.name word] (.branch word)
  | bare : OperandTokens [] .bare

/-- A mnemonic with its operands. With the letter of a modifier the operation must be one that
takes it, and the last operand a literal. -/
inductive InstructionTokens : List Token.Kind → Statement.Body → Prop
  | mk {op : Opcode} {modifier : Modifier} {kinds : List Token.Kind} {operands : Operands op.shape}
      (tokens : OperandTokens kinds operands)
      (legal : Statement.Body.Legal ⟨op, modifier, operands⟩) :
      InstructionTokens (.name (op.mnemonic ++ modifier.suffix) :: kinds) ⟨op, modifier, operands⟩

/-- A line that is not empty: a label, an instruction, or both. -/
inductive Line : List Token.Kind → Option String → Option Statement.Body → Prop
  | label {word : String} (free : ¬ Reserved word) :
      Line [.name word, .mark .colon] (some word) none
  | instruction {kinds : List Token.Kind} {body : Statement.Body}
      (hb : InstructionTokens kinds body) : Line kinds none (some body)
  | both {word : String} {kinds : List Token.Kind} {body : Statement.Body}
      (free : ¬ Reserved word) (hb : InstructionTokens kinds body) :
      Line (.name word :: .mark .colon :: kinds) (some word) (some body)

/-- The tokens of a line with its statement, which has the number and the text of the line that the
first token is on. An empty line has none. -/
inductive Row (lines : List String) : List Token → Option Statement → Prop
  | empty : Row lines [] none
  | line {first : Token} {rest : List Token} {label : Option String}
      {body : Option Statement.Body} (h : Line ((first :: rest).map (·.kind)) label body) :
      Row lines (first :: rest)
        (some ⟨first.place.line, Text.trim (Text.lineAt lines first.place.line), label, body⟩)

section Words
variable {word : String} {r : Register} {op : Opcode} {modifier : Modifier}

private theorem ofName?_numbered (r : Register) : Register.ofName? r.numbered = some r := by
  have table : (List.finRange 16).map (fun r : Register => Register.ofName? r.numbered) =
      (List.finRange 16).map some := by cbv
  exact List.map_inj_left.1 table r (List.mem_finRange r)

theorem registerName_iff : RegisterName (.name word) r ↔ Register.ofName? word = some r := by
  constructor
  · rintro (_ | _)
    · exact ofName?_numbered r
    · decide
  · intro h
    obtain ⟨front, back, hn, -⟩ := List.lookup_eq_some_iff.1 h
    have hm : (word, r) ∈ Register.names := hn ▸ by simp
    rcases List.mem_append.1 hm with hm | hm
    · obtain ⟨_, -, h⟩ := List.mem_map.1 hm
      cases h
      exact .numbered r
    · cases List.mem_singleton.1 hm
      exact .stackPointer

theorem splitMnemonic?_mnemonic (op : Opcode) (modifier : Modifier) :
    Vocabulary.splitMnemonic? (op.mnemonic ++ modifier.suffix) = some (op, modifier) := by
  cases op <;> cases modifier <;> decide

private theorem stem_append {letter : Char} (h : word.toList.getLast? = some letter) :
    String.ofList word.toList.dropLast ++ String.singleton letter = word := by
  obtain ⟨stem, hs⟩ := List.getLast?_eq_some_iff.1 h
  apply String.toList_injective
  rw [String.toList_append, String.toList_ofList, String.toList_singleton, hs, List.dropLast_concat]

theorem splitMnemonic?_eq_some_iff :
    Vocabulary.splitMnemonic? word = some (op, modifier) ↔
      word = op.mnemonic ++ modifier.suffix := by
  refine ⟨fun h => ?_, fun h => h ▸ splitMnemonic?_mnemonic op modifier⟩
  rw [Vocabulary.splitMnemonic?] at h
  split at h
  · rename_i hop
    cases h
    rw [Opcode.ofMnemonic?_eq_some_iff.1 hop]
    exact String.append_empty.symm
  · dsimp only at h
    split at h
    · rename_i hlast
      obtain ⟨_, hop, h⟩ := Option.map_eq_some_iff.1 h
      cases h
      rw [← stem_append hlast, Opcode.ofMnemonic?_eq_some_iff.1 hop]
      rfl
    · rename_i hlast
      obtain ⟨_, hop, h⟩ := Option.map_eq_some_iff.1 h
      cases h
      rw [← stem_append hlast, Opcode.ofMnemonic?_eq_some_iff.1 hop]
      rfl
    · cases h

theorem reserved_iff : Reserved word ↔ Vocabulary.isReserved word := by
  rw [Vocabulary.isReserved, Bool.or_eq_true, Option.isSome_iff_exists, Option.isSome_iff_exists]
  constructor
  · rintro (⟨hr⟩ | ⟨op, modifier⟩)
    · exact .inl ⟨_, registerName_iff.1 hr⟩
    · exact .inr ⟨_, splitMnemonic?_mnemonic op modifier⟩
  · rintro (⟨r, hr⟩ | ⟨⟨op, modifier⟩, hs⟩)
    · exact .register (registerName_iff.2 hr)
    · exact splitMnemonic?_eq_some_iff.1 hs ▸ .mnemonic op modifier

end Words
end Grammar
end MiniRisc
