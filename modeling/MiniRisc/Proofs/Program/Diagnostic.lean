import MiniRisc.Proofs.Assembly.Resolution
import MiniRisc.Proofs.Statement.Located
import MiniRisc.Proofs.Token.Overlong
/-! Diagnostics of source texts: the line that one is about is a line of the text, and what it names
is there, unless it is about a literal that is too long. -/
namespace MiniRisc

namespace Diagnostic

/-- A diagnostic is right about a line of a source text. A fault of the characters is at a malformed
text that begins on the line, at the column told. A token that is refused is one of the text, and on
the line. A label that is defined again or not at all is told with the trimmed line. -/
def IsAbout (source line : String) (d : Diagnostic) : Prop :=
  match d.cause with
  | .lexical fault column =>
    d.lineText = line ∧ 1 ≤ column ∧ column ≤ line.length ∧
      ∃ front c cs, Text.foldNewlines source.toList = front ++ c :: cs ∧
        Place.mk d.line column = .behind front ∧
        line.toList[(column - 1).toNat]? = some c ∧ Lexeme.Malformed fault (c :: cs)
  | .grammatical _ token =>
    d.lineText = line ∧ d.line = token.place.line ∧ token.StandsOn line ∧
      ∃ tokens, Token.ofSource source = .ok tokens ∧ token ∈ tokens
  | .duplicateLabel _ | .undefinedLabel _ => d.lineText = Text.trim line
  | .numeral _ | .other _ => False

/-- A diagnostic is about a line that the source text has. -/
structure Located (source : String) (d : Diagnostic) : Prop where
  first : 1 ≤ d.line
  last : d.line ≤ (Text.lines source).length
  about : d.IsAbout source (Text.lineAt (Text.lines source) d.line)

end Diagnostic

namespace Program
open Assembly

section Located
variable {source : String} {d : Diagnostic} {ss : List Statement}

private theorem located_of_malformed {fault : LexicalFault} {front cs : List Char} {c : Char}
    (htext : Text.foldNewlines source.toList = front ++ c :: cs) (hc : c ≠ '\n')
    (hm : Lexeme.Malformed fault (c :: cs))
    (hd : d = .lexical fault (.behind front)
      (Text.lineAt (Text.lines source) (Place.behind front).line)) : d.Located source := by
  subst hd
  obtain ⟨hlow, hhigh⟩ := line_behind htext
  obtain ⟨hfirst, hlast, hchar⟩ := char_behind htext hc
  exact ⟨hlow, hhigh, rfl, hfirst, hlast, front, c, cs, htext, rfl, hchar, hm⟩

private theorem located_of_refused {tokens : List Token} {token : Token} (fault : SyntaxFault)
    (ht : Token.ofSource source = .ok tokens) (hm : token ∈ tokens)
    (hd : d = .grammatical fault token (Text.lineAt (Text.lines source) token.place.line)) :
    d.Located source := by
  subst hd
  obtain ⟨hlow, hhigh, hstands⟩ := standsOn_of_mem ht hm
  exact ⟨hlow, hhigh, rfl, rfl, hstands, tokens, ht, hm⟩

/-- What labels are told to be wrong with is a statement. -/
theorem exists_statement_of_fails (h : Fails ss d) :
    (∃ name, d.cause = .duplicateLabel name ∨ d.cause = .undefinedLabel name) ∧
      ∃ s ∈ ss, d.line = s.line ∧ d.lineText = s.text := by
  cases h with
  | @duplicate front s back name hs => exact ⟨⟨name, .inl rfl⟩, s, by simp [hs], rfl, rfl⟩
  | @undefined front s back name _ hs => exact ⟨⟨name, .inr rfl⟩, s, by simp [hs], rfl, rfl⟩

private theorem located_of_fails (hs : Statement.ofSource source = .ok ss) (h : Fails ss d) :
    d.Located source := by
  obtain ⟨⟨name, hcause⟩, s, hm, hline, htext⟩ := exists_statement_of_fails h
  obtain ⟨tokens, first, hfirst, ht, hbegin, htrim⟩ := Statement.ofSource_beginsAt hs s hm
  obtain ⟨hlow, hhigh, -⟩ := standsOn_of_mem ht hfirst
  have hline := hline.trans hbegin
  have htext := htext.trans htrim
  refine ⟨hline ▸ hlow, hline ▸ hhigh, ?_⟩
  rw [← hline] at htext
  rcases hcause with hcause | hcause <;> rw [Diagnostic.IsAbout, hcause] <;> exact htext

/-- If a source text is no program, the diagnostic is about one of its lines, or it tells nothing
but that a literal of the text has too many digits. If it is about a line it begins with the number
of that line, and tells the line as it stands in the text, or trimmed where it is about a label. The
column of a fault of the characters is that of the first character of what cannot be read, and the
token that a fault of the grammar names stands on the line or ends it. -/
theorem ofSource_diagnostic (h : ofSource source = .error d) :
    (∃ long, d = { cause := .numeral long } ∧ Token.Overlong source long) ∨
      d.Located source ∧
        d.message = "Line " ++ Text.decimal d.line ++ ": " ++ d.cause.message := by
  have message (hlocated : d.Located source) :
      d.message = "Line " ++ Text.decimal d.line ++ ": " ++ d.cause.message := by
    have hfirst := hlocated.first
    rw [Diagnostic.message, if_neg (by omega)]
  rcases Outcome.bind_eq_error_iff.1 h with hs | ⟨ss, hs, hp⟩
  · rcases Statement.ofSource_refused hs with ht | ⟨tokens, fault, token, hm, ht, hd⟩
    · rcases ofSource_malformed ht with hlong | ⟨fault, front, c, cs, -, htext, hc, hm, hd⟩
      · exact .inl hlong
      · have hlocated := located_of_malformed htext hc hm hd
        exact .inr ⟨hlocated, message hlocated⟩
    · have hlocated := located_of_refused fault ht hm hd
      exact .inr ⟨hlocated, message hlocated⟩
  · have hlocated := located_of_fails hs (program_error_iff.1 hp)
    exact .inr ⟨hlocated, message hlocated⟩

end Located

theorem ofSource_diagnostic_unterminated :
    ofSource "mov r1, 1\n add /* r1\n*\n/" =
      .error ⟨.lexical .unterminatedComment 6, 2, " add /* r1"⟩ ∧
    Diagnostic.IsAbout "mov r1, 1\n add /* r1\n*\n/" " add /* r1"
      ⟨.lexical .unterminatedComment 6, 2, " add /* r1"⟩ := by
  have h : ofSource "mov r1, 1\n add /* r1\n*\n/" =
      .error ⟨.lexical .unterminatedComment 6, 2, " add /* r1"⟩ := by cbv
  have hline : Text.lineAt (Text.lines "mov r1, 1\n add /* r1\n*\n/") 2 = " add /* r1" := by cbv
  rcases ofSource_diagnostic h with ⟨long, hlong, -⟩ | ⟨hlocated, -⟩
  · cases hlong
  · exact ⟨h, hline ▸ hlocated.about⟩

/-- The diagnostic of a literal of 5000 octal digits is about no line. -/
theorem diagnostic_farOctal :
    ofSource (String.ofList (['0', 'o'] ++ List.replicate 5000 '7')) =
      .error { cause := .numeral .writing } ∧
    ¬ Diagnostic.Located (String.ofList (['0', 'o'] ++ List.replicate 5000 '7'))
      { cause := .numeral .writing } := by
  have hread := Token.ofSource_replicate List.mem_cons_self .octal (by decide)
    (show Text.isDigitOf 8 '7' = true by decide) (by decide) (show 10 ^ 43 < 8 ^ 50 by decide)
  rw [List.nil_append] at hread
  exact ⟨ofSource_of_unread hread, fun hlocated => hlocated.about⟩

end Program
end MiniRisc
