import EditHistory.Text.Blank
import Mathlib.Data.List.TakeWhile

/-! White space at the ends of a text. Trimming takes it away and nothing else, and what neither starts
nor ends with any stays as it is. -/
namespace EditHistory

/-- A text without white space at its ends is left as it is. -/
theorem trim_eq_of_ends {cs : List Char} (hfirst : ∀ c ∈ cs.head?, isBlank c = false)
    (hlast : ∀ c ∈ cs.getLast?, isBlank c = false) : trim cs = cs := by
  have hstart {xs : List Char} (hxs : ∀ c ∈ xs.head?, isBlank c = false) : xs.dropWhile isBlank = xs := by
    cases xs with
    | nil => rfl
    | cons c xs => simp [hxs c rfl]
  rw [trim, trimStart, hstart hfirst, trimEnd, hstart (by simpa using hlast), List.reverse_reverse]

/-- Without white space there is nothing to trim. -/
theorem trim_eq_self {cs : List Char} (h : ∀ c ∈ cs, isBlank c = false) : trim cs = cs :=
  trim_eq_of_ends (fun c hc => h c (List.mem_of_mem_head? hc))
    fun c hc => h c (List.mem_of_getLast? hc)

theorem trimEnd_append {cs after : List Char} (hafter : ∀ c ∈ after, isBlank c = true) :
    trimEnd (cs ++ after) = trimEnd cs := by
  have hreversed : ∀ c ∈ after.reverse, isBlank c = true := by simpa using hafter
  rw [trimEnd, List.reverse_append, List.dropWhile_append_of_pos hreversed, trimEnd]

/-- White space at the end does not count. -/
theorem trim_append {cs after : List Char} (hafter : ∀ c ∈ after, isBlank c = true) :
    trim (cs ++ after) = trim cs := by
  rw [trim, trimStart, List.dropWhile_append]
  split
  · rename_i hblank
    rw [trim, trimStart, List.isEmpty_iff.mp hblank, List.dropWhile_eq_nil_iff.mpr hafter]
  · exact trimEnd_append hafter

/-- White space in front does not count either. -/
theorem trim_blank_append {before cs : List Char} (hbefore : ∀ c ∈ before, isBlank c = true) :
    trim (before ++ cs) = trim cs := by
  rw [trim, trimStart, List.dropWhile_append_of_pos hbefore, trim, trimStart]

/-- What is trimmed away is white space at both ends. -/
theorem exists_eq_trim (s : List Char) : ∃ before after : List Char,
    s = before ++ (trim s ++ after) ∧ (∀ c ∈ before, isBlank c = true) ∧ ∀ c ∈ after, isBlank c = true := by
  have hstart (cs : List Char) : ∀ c ∈ cs.takeWhile isBlank, isBlank c = true :=
    fun c hc => List.mem_takeWhile_imp hc
  refine ⟨s.takeWhile isBlank, ((trimStart s).reverse.takeWhile isBlank).reverse, ?_, hstart s, ?_⟩
  · have hend : trim s ++ ((trimStart s).reverse.takeWhile isBlank).reverse = trimStart s := by
      rw [trim, trimEnd, ← List.reverse_append, List.takeWhile_append_dropWhile, List.reverse_reverse]
    rw [hend, trimStart, List.takeWhile_append_dropWhile]
  · intro c hc
    exact hstart _ c (List.mem_reverse.mp hc)

end EditHistory
