import MiniRisc.Text.Line
/-! Lines of a text have no line feeds, and neither has what is left of one that is trimmed. -/
namespace MiniRisc.Text
variable {c : Char} {text : List Char}

private theorem lineFeed_not_mem_splitLines (text : List Char) :
    ∀ line ∈ splitLines text, '\n' ∉ line := by
  induction text with
  | nil => simp [splitLines]
  | cons c rest ih =>
    rw [splitLines]
    split
    · simpa using ih
    · rename_i hc
      cases hs : splitLines rest with
      | nil => simp
      | cons line others =>
        rw [hs] at ih
        intro l hl
        rcases List.mem_cons.1 hl with rfl | hl
        · rw [List.mem_cons, not_or]
          exact ⟨fun he => hc he.symm, ih line List.mem_cons_self⟩
        · exact ih l (List.mem_cons_of_mem _ hl)

theorem lineFeed_not_mem_lineAt (source : String) (n : Int) :
    '\n' ∉ (lineAt (lines source) n).toList := by
  rw [lineAt, lines]
  split
  · rw [List.getD_eq_getElem?_getD, List.getElem?_map]
    cases h : (splitLines (foldNewlines source.toList))[(n - 1).toNat]? with
    | none => simp
    | some line =>
      rw [Option.map_some, Option.getD_some, String.toList_ofList]
      exact lineFeed_not_mem_splitLines _ line (List.mem_of_getElem? h)
  · simp

private theorem mem_of_mem_trimEnd (h : c ∈ trimEnd text) : c ∈ text := by
  induction text with
  | nil => cases h
  | cons d rest ih =>
    rw [trimEnd] at h
    split at h
    · split at h
      · cases h
      · rw [List.mem_singleton.1 h]
        exact List.mem_cons_self
    · rcases List.mem_cons.1 h with rfl | h
      · exact List.mem_cons_self
      · exact List.mem_cons_of_mem _ (ih h)

theorem mem_of_mem_trim {line : String} (h : c ∈ (trim line).toList) : c ∈ line.toList := by
  rw [trim, String.toList_ofList, trimChars] at h
  exact (List.dropWhile_sublist _).subset (mem_of_mem_trimEnd h)

end MiniRisc.Text
