import MiniRisc.Assembly.Basic
import MiniRisc.Proofs.Text.Endings
/-! Programs of texts whose lines end differently. A text is read only with its endings folded, so
it does not matter how its lines end. -/
namespace MiniRisc

section Folded
variable {source source' : String}

private theorem Token.ofSource_congr
    (h : Text.foldNewlines source.toList = Text.foldNewlines source'.toList) :
    ofSource source = ofSource source' := by
  rw [ofSource, ofSource, Scan.ofSource, Scan.ofSource, Text.lines, Text.lines, h]

private theorem Statement.ofSource_congr
    (h : Text.foldNewlines source.toList = Text.foldNewlines source'.toList) :
    ofSource source = ofSource source' := by
  rw [ofSource, ofSource, Token.ofSource_congr h, Text.lines, Text.lines, h]

private theorem Program.ofSource_congr
    (h : Text.foldNewlines source.toList = Text.foldNewlines source'.toList) :
    ofSource source = ofSource source' := by
  rw [ofSource, ofSource, Statement.ofSource_congr h]

end Folded

/-- However the lines of a text end, they are the lines of the text, and folding the endings, which
is replacing the pairs and then the carriage returns that are left, leaves nothing to fold. The text
is the same program as with a line feed between each two lines, with the same lines and labels, or
no program for the same reason at the same place. -/
theorem Program.endings_unseen (t : Text.Lined) :
    Text.lines t.source = t.lines ∧
    Text.foldNewlines t.source.toList =
      Text.replaceAll ['\r'] ['\n'] (Text.replaceAll ['\r', '\n'] ['\n'] t.source.toList) ∧
    Text.foldNewlines (Text.foldNewlines t.source.toList) = Text.foldNewlines t.source.toList ∧
    ofSource t.source = ofSource ("\n".intercalate t.lines) := by
  refine ⟨t.lines_source, Text.foldNewlines_eq_replaceAll _, Text.foldNewlines_foldNewlines _, ?_⟩
  refine ofSource_congr ?_
  have hjoined : ("\n".intercalate t.lines).toList =
      ['\n'].intercalate (t.lines.map String.toList) := String.toList_intercalate
  rw [hjoined, ← t.foldNewlines_source, Text.foldNewlines_foldNewlines]

end MiniRisc
