import Mathlib
import MiniRisc.Proofs.Token.Append
/-! Lines with endings of any kind between them. Folding the endings is replacing the pairs and then
the carriage returns that are left, and the lines of the text are those that it was made of. -/
namespace MiniRisc.Text

def replaceAll (old new : List Char) : List Char → List Char
  | [] => []
  | c :: rest =>
    if old <+: c :: rest then new ++ replaceAll old new (rest.drop (old.length - 1))
    else c :: replaceAll old new rest
termination_by text => text.length
decreasing_by all_goals simp

inductive Ending
  | lineFeed | pair | carriageReturn
  deriving DecidableEq, Repr

def Ending.chars : Ending → List Char
  | lineFeed => ['\n'] | pair => ['\r', '\n'] | carriageReturn => ['\r']

/-- Whether a line with the ending before it keeps that ending apart from the next. A carriage
return and a line feed with nothing between them are one. -/
def Apart (line behind : Ending × String) : Prop :=
  line.1 = .carriageReturn → line.2 = "" → behind.1 ≠ .lineFeed

/-- A text of lines, of which a text has one at least: the first, and each other with the ending
before it. -/
structure Lined where
  first : String
  rest : List (Ending × String)
  inner : ∀ line ∈ first :: rest.map Prod.snd, '\n' ∉ line.toList ∧ '\r' ∉ line.toList
  apart : rest.IsChain Apart

namespace Lined

def lines (t : Lined) : List String := t.first :: t.rest.map Prod.snd

def charsOf (rest : List (Ending × String)) : List Char :=
  rest.flatMap fun e => e.1.chars ++ e.2.toList

def source (t : Lined) : String := String.ofList (t.first.toList ++ charsOf t.rest)

end Lined

section Replacing
variable {old new : List Char} {c : Char} {rest text : List Char}

private theorem replaceAll_of_opens (h : old <+: c :: rest) : replaceAll old new (c :: rest) =
    new ++ replaceAll old new (rest.drop (old.length - 1)) := by
  rw [replaceAll, if_pos h]

private theorem replaceAll_of_not_opens (h : ¬ old <+: c :: rest) :
    replaceAll old new (c :: rest) = c :: replaceAll old new rest := by
  rw [replaceAll, if_neg h]

/-- Endings are folded in two goes over a text, in this order. -/
theorem foldNewlines_eq_replaceAll (text : List Char) :
    foldNewlines text = replaceAll ['\r'] ['\n'] (replaceAll ['\r', '\n'] ['\n'] text) := by
  fun_induction foldNewlines text with
  | case1 => simp only [replaceAll]
  | case2 rest ih =>
    have hpair : ['\r', '\n'] <+: '\r' :: '\n' :: rest := ⟨rest, rfl⟩
    have hfeed : ¬ ['\r'] <+: '\n' :: replaceAll ['\r', '\n'] ['\n'] rest := by
      simp [List.cons_prefix_cons]
    rw [replaceAll_of_opens hpair, ih]
    exact (replaceAll_of_not_opens hfeed).symm
  | case3 c rest hc ih =>
    have hpair : ¬ ['\r', '\n'] <+: c :: rest := by
      rintro ⟨behind, he⟩
      obtain ⟨rfl, rfl⟩ := List.cons.inj he
      exact hc behind rfl rfl
    rw [replaceAll_of_not_opens hpair, ih]
    by_cases hr : c = '\r'
    · subst hr
      have hsingle : ['\r'] <+: '\r' :: replaceAll ['\r', '\n'] ['\n'] rest := ⟨_, rfl⟩
      rw [if_pos rfl, replaceAll_of_opens hsingle]
      rfl
    · rw [if_neg hr, replaceAll_of_not_opens]
      simpa using fun he => hr he.symm

end Replacing

section Folding
variable {line text : List Char} {e : Ending}

/-- No carriage return is left. -/
theorem return_not_mem_foldNewlines (text : List Char) : '\r' ∉ foldNewlines text := by
  fun_induction foldNewlines text with
  | case1 => simp
  | case2 rest ih => simpa using ih
  | case3 c rest hc ih =>
    rw [List.mem_cons, not_or]
    refine ⟨?_, ih⟩
    split
    · decide
    · rename_i hr
      exact fun he => hr he.symm

theorem foldNewlines_foldNewlines (text : List Char) :
    foldNewlines (foldNewlines text) = foldNewlines text :=
  foldNewlines_of_not_mem (return_not_mem_foldNewlines text)

private theorem foldNewlines_line_append (h : '\r' ∉ line) (text : List Char) :
    foldNewlines (line ++ text) = line ++ foldNewlines text := by
  rw [foldNewlines_append fun hl => absurd (List.mem_of_getLast? hl) h, foldNewlines_of_not_mem h]

private theorem foldNewlines_ending_append (h : e = .carriageReturn → text.head? ≠ some '\n') :
    foldNewlines (e.chars ++ text) = '\n' :: foldNewlines text := by
  cases e with
  | lineFeed => exact foldNewlines_cons (by simp)
  | pair =>
    have hpair : Ending.pair.chars ++ text = '\r' :: '\n' :: text := rfl
    rw [hpair, foldNewlines]
  | carriageReturn => exact foldNewlines_cons fun _ => h rfl

end Folding

private theorem splitLines_eq_splitOn (text : List Char) : splitLines text = text.splitOn '\n' := by
  rw [List.splitOn_eq_splitOnP]
  induction text with
  | nil => rfl
  | cons c rest ih => rw [splitLines, ih, List.splitOnP_cons_eq_if_modifyHead]; simp

namespace Lined
variable {first line : String} {e : Ending} {rest : List (Ending × String)}

/-- Only a line feed that ends an empty line is the first character of lines. -/
theorem head?_ne_lineFeed (hl : '\n' ∉ line.toList)
    (h : line = "" → ∀ behind, rest.head? = some behind → behind.1 ≠ .lineFeed) :
    (line.toList ++ charsOf rest).head? ≠ some '\n' := by
  intro hh
  cases hline : line.toList with
  | cons c cs =>
    rw [hline] at hh hl
    cases hh
    exact hl List.mem_cons_self
  | nil =>
    rw [hline, List.nil_append] at hh
    cases rest with
    | nil => cases hh
    | cons behind rest =>
      obtain ⟨e, text⟩ := behind
      have hne := h (String.toList_eq_nil_iff.1 hline) _ rfl
      cases e with
      | lineFeed => exact hne rfl
      | pair | carriageReturn => cases hh

/-- The folded text has a line feed between each two lines. -/
theorem foldNewlines_chars
    (inner : ∀ line ∈ first :: rest.map Prod.snd, '\n' ∉ line.toList ∧ '\r' ∉ line.toList)
    (apart : rest.IsChain Apart) :
    foldNewlines (first.toList ++ charsOf rest) =
      ['\n'].intercalate ((first :: rest.map Prod.snd).map String.toList) := by
  induction rest generalizing first with
  | nil =>
    have hfirst := (inner first List.mem_cons_self).2
    simpa [charsOf] using foldNewlines_of_not_mem hfirst
  | cons e rest ih =>
    obtain ⟨hfirst, hrest⟩ := List.forall_mem_cons.1 inner
    obtain ⟨hhead, htail⟩ := List.isChain_cons.1 apart
    have hnext : e.1 = .carriageReturn → (e.2.toList ++ charsOf rest).head? ≠ some '\n' :=
      fun he => head?_ne_lineFeed (hrest e.2 List.mem_cons_self).1 fun hline behind hb =>
        hhead behind hb he hline
    have hchars : charsOf (e :: rest) = e.1.chars ++ (e.2.toList ++ charsOf rest) := by
      simp [charsOf]
    rw [hchars, foldNewlines_line_append hfirst.2, foldNewlines_ending_append hnext, ih hrest htail]
    simp [List.intercalate_cons_cons]

variable (t : Lined)

private theorem toList_source : t.source.toList = t.first.toList ++ charsOf t.rest :=
  String.toList_ofList

theorem foldNewlines_source :
    foldNewlines t.source.toList = ['\n'].intercalate (t.lines.map String.toList) := by
  rw [toList_source, foldNewlines_chars t.inner t.apart, lines]

/-- The lines of the text are those that it was made of. -/
theorem lines_source : Text.lines t.source = t.lines := by
  have hfree : ∀ line ∈ t.lines.map String.toList, '\n' ∉ line := by
    intro line hl
    obtain ⟨line, hm, rfl⟩ := List.mem_map.1 hl
    exact (t.inner line hm).1
  rw [Text.lines, foldNewlines_source, splitLines_eq_splitOn,
    List.splitOn_intercalate '\n' hfree (by simp [lines]), List.map_map]
  simp [Function.comp_def]

end Lined
end MiniRisc.Text
