import MiniRisc.Text.Line
import MiniRisc.Token.Basic
/-! Places in a text, and the lines that they are on. -/
namespace MiniRisc

namespace Text

def lastLine (text : List Char) : List Char := (text.reverse.takeWhile (· ≠ '\n')).reverse

section Lines
variable {c : Char} {text : List Char}

private theorem mem_reverse_ne (h : '\n' ∉ text) :
    ∀ d ∈ text.reverse, decide (d ≠ '\n') = true := by
  intro d hd
  rw [decide_eq_true_eq]
  rintro rfl
  exact h (List.mem_reverse.1 hd)

theorem lastLine_of_not_mem (h : '\n' ∉ text) : lastLine text = text := by
  have htake : (text.reverse ++ []).takeWhile (· ≠ '\n') = text.reverse ++ [] :=
    List.takeWhile_append_of_pos (mem_reverse_ne h)
  rw [List.append_nil] at htake
  rw [lastLine, htake, List.reverse_reverse]

private theorem lastLine_cons_of_mem (h : '\n' ∈ text) : lastLine (c :: text) = lastLine text := by
  rw [lastLine, lastLine, List.reverse_cons, List.takeWhile_append, if_neg]
  intro hlength
  have htake := (List.takeWhile_sublist (· ≠ '\n')).eq_of_length hlength
  have hall := List.all_takeWhile (p := (· ≠ '\n')) (l := text.reverse)
  rw [htake] at hall
  simpa using List.all_eq_true.1 hall '\n' (List.mem_reverse.2 h)

private theorem lastLine_lineFeed (text : List Char) : lastLine ('\n' :: text) = lastLine text := by
  by_cases h : '\n' ∈ text
  · exact lastLine_cons_of_mem h
  · rw [lastLine_of_not_mem h, lastLine, List.reverse_cons,
      List.takeWhile_append_of_pos (mem_reverse_ne h)]
    simp

private theorem head?_splitLines (text : List Char) :
    (splitLines text).head? = some (text.takeWhile (· ≠ '\n')) := by
  induction text with
  | nil => rfl
  | cons c rest ih =>
    by_cases hc : c = '\n'
    · simp [splitLines, hc]
    · simp [splitLines, hc, ih]

/-- The line that a text is cut on. -/
theorem getElem?_splitLines (front back : List Char) :
    (splitLines (front ++ back))[front.count '\n']? =
      some (lastLine front ++ back.takeWhile (· ≠ '\n')) := by
  induction front with
  | nil => rw [List.nil_append, List.count_nil, ← List.head?_eq_getElem?, head?_splitLines]; rfl
  | cons c front ih =>
    by_cases hc : c = '\n'
    · subst hc
      rw [List.cons_append, splitLines, if_pos rfl, List.count_cons_self,
        List.getElem?_cons_succ, ih, lastLine_lineFeed]
    · rw [List.cons_append, splitLines, if_neg hc, List.count_cons_of_ne hc]
      by_cases hm : '\n' ∈ front
      · rw [lastLine_cons_of_mem hm, ← ih]
        obtain ⟨k, hk⟩ := Nat.exists_eq_succ_of_ne_zero (Nat.ne_of_gt (List.count_pos_iff.2 hm))
        rw [hk]
        cases splitLines (front ++ back) <;> rfl
      · have hm' : '\n' ∉ c :: front := by
          rw [List.mem_cons, not_or]
          exact ⟨fun he => hc he.symm, hm⟩
        rw [lastLine_of_not_mem hm] at ih
        rw [lastLine_of_not_mem hm']
        rw [List.count_eq_zero.2 hm] at ih ⊢
        cases hs : splitLines (front ++ back) with
        | nil => simp [hs] at ih
        | cons line rest =>
          rw [hs] at ih
          cases ih
          rfl

end Lines
end Text

namespace Place

/-- The place behind a text: a line further for each line feed, and a column for each character
behind the last. -/
def behind (text : List Char) : Place :=
  ⟨1 + text.count '\n', 1 + (Text.lastLine text).length⟩

theorem line_after (p : Place) (text : List Char) :
    (p.after text).line = p.line + text.count '\n' := by
  induction text generalizing p with
  | nil => simp [after]
  | cons c rest ih =>
    have hafter : p.after (c :: rest) = (p.step c).after rest := rfl
    rw [hafter, ih, step]
    by_cases hc : c = '\n'
    · simp [hc]; omega
    · simp [hc]

theorem column_after (p : Place) (text : List Char) : (p.after text).column =
    if '\n' ∈ text then 1 + ((Text.lastLine text).length : Int) else p.column + text.length := by
  induction text generalizing p with
  | nil => simp [after]
  | cons c rest ih =>
    have hafter : p.after (c :: rest) = (p.step c).after rest := rfl
    rw [hafter, ih, step]
    by_cases hm : '\n' ∈ rest
    · rw [if_pos hm, if_pos (List.mem_cons_of_mem c hm), Text.lastLine_cons_of_mem hm]
    · rw [if_neg hm]
      by_cases hc : c = '\n'
      · rw [if_pos hc, hc, if_pos List.mem_cons_self, Text.lastLine_lineFeed,
          Text.lastLine_of_not_mem hm]
      · have hm' : '\n' ∉ c :: rest := by
          rw [List.mem_cons, not_or]
          exact ⟨fun he => hc he.symm, hm⟩
        rw [if_neg hc, if_neg hm', List.length_cons]
        dsimp only
        omega

theorem after_eq_behind (text : List Char) : ({} : Place).after text = behind text := by
  have hline := line_after {} text
  have hcolumn := column_after {} text
  have hlast : (if '\n' ∈ text then 1 + ((Text.lastLine text).length : Int)
      else 1 + text.length) = 1 + (Text.lastLine text).length := by
    split
    · rfl
    · rename_i hm
      rw [Text.lastLine_of_not_mem hm]
  rw [hlast] at hcolumn
  cases h : ({} : Place).after text
  rw [h] at hline hcolumn
  rw [behind, ← hline, ← hcolumn]

end Place
end MiniRisc
