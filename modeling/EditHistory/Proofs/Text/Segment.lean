import EditHistory.Text.Basic
import EditHistory.Proofs.Sum

/-! Segments of a text, how adjacent ones join, and what is left of a text without some of its
segments. -/
namespace EditHistory
namespace Text

theorem getElem?_segment (t : Text) (start length k : Nat) :
    (t.segment start length)[k]? = if k < length then t[start + k]? else none := by
  simp only [segment, List.getElem?_take, List.getElem?_drop]

theorem length_segment {t : Text} {start length : Nat} (h : start + length ≤ t.length) :
    (t.segment start length).length = length := by
  simp only [segment, List.length_take, List.length_drop]
  omega

@[simp] theorem segment_zero_right (t : Text) (start : Nat) : t.segment start 0 = [] := by
  simp [segment]

theorem segment_append_segment (t : Text) (start m n : Nat) :
    t.segment start m ++ t.segment (start + m) n = t.segment start (m + n) := by
  simp only [segment, List.take_add, List.drop_drop]

theorem take_append_segment (t : Text) (start n : Nat) :
    t.take start ++ t.segment start n = t.take (start + n) := by
  simp only [segment, List.take_add]

theorem segment_append_of_le {t : Text} {start length : Nat} (h : start + length ≤ t.length)
    (u : Text) : (t ++ u).segment start length = t.segment start length := by
  have hrest : length ≤ (t.drop start).length := by
    rw [List.length_drop]
    omega
  rw [segment, segment, List.drop_append_of_le_length (by omega), List.take_append_of_le_length hrest]

/-- From `start` on, the text reads `u`. -/
def Reads (t : Text) (start : Nat) (u : Text) : Prop :=
  start + u.length ≤ t.length ∧ t.segment start u.length = u

theorem Reads.append {t u : Text} {start : Nat} (h : t.Reads start u) (v : Text) :
    (t ++ v).Reads start u := by
  refine ⟨?_, ?_⟩
  · have hin := h.1
    rw [List.length_append]
    omega
  · rw [segment_append_of_le h.1, h.2]

theorem reads_end (t u : Text) : (t ++ u).Reads t.length u := by
  refine ⟨Nat.le_of_eq List.length_append.symm, ?_⟩
  simp [segment]

/-- A stretch of positions in a text. -/
structure Span where
  start : Nat
  length : Nat

def Span.stop (s : Span) : Nat := s.start + s.length

def Span.covers (s : Span) (i : Nat) : Bool := s.start ≤ i && i < s.stop

theorem Span.covers_iff {s : Span} {i : Nat} : s.covers i = true ↔ s.start ≤ i ∧ i < s.stop := by
  rw [covers, Bool.and_eq_true, decide_eq_true_eq, decide_eq_true_eq]

def covered (spans : List Span) (i : Nat) : Bool := spans.any (·.covers i)

/-- The units that no span covers. -/
def without (t : Text) (spans : List Span) : Text :=
  (t.zipIdx.filter fun x => !covered spans x.2).map Prod.fst

/-- Spans in a text, one behind the other, and what is left of the text without them. -/
structure Leaves (t : Text) (spans : List Span) (kept : Text) : Prop where
  stop_le : ∀ s ∈ spans, s.stop ≤ t.length
  ascending : spans.Pairwise fun s s' => s.stop ≤ s'.start
  without_eq : t.without spans = kept
  length_eq : t.length = kept.length + sumOf Span.length spans

theorem leaves_nil : Leaves [] [] [] := ⟨nofun, .nil, rfl, rfl⟩

variable {t kept : Text} {spans : List Span} {i : Nat}

theorem covered_eq_false (h : ∀ s ∈ spans, s.stop ≤ i) : covered spans i = false := by
  rw [covered, List.any_eq_false]
  intro s hs hcovers
  exact Nat.not_le.mpr (Span.covers_iff.mp hcovers).2 (h s hs)

theorem covered_concat (spans : List Span) (s : Span) (i : Nat) :
    covered (spans ++ [s]) i = (covered spans i || s.covers i) := by
  simp [covered]

theorem without_append (t u : Text) (spans : List Span) : (t ++ u).without spans =
    t.without spans ++ ((u.zipIdx t.length).filter fun x => !covered spans x.2).map Prod.fst := by
  rw [without, without, List.zipIdx_append, List.filter_append, List.map_append, Nat.zero_add]

/-- What comes behind all the spans stays. -/
theorem without_append_of_le (h : ∀ s ∈ spans, s.stop ≤ t.length) (u : Text) :
    (t ++ u).without spans = t.without spans ++ u := by
  have hall : ∀ x ∈ u.zipIdx t.length, (!covered spans x.2) = true := by
    intro x hx
    have hbehind := List.le_snd_of_mem_zipIdx hx
    rw [covered_eq_false fun s hs => Nat.le_trans (h s hs) hbehind, Bool.not_false]
  rw [without_append, List.filter_eq_self.mpr hall, List.zipIdx_map_fst]

/-- A span of all that comes behind leaves nothing of it. -/
theorem without_append_span (t u : Text) (spans : List Span) :
    (t ++ u).without (spans ++ [⟨t.length, u.length⟩]) = t.without spans := by
  let last : Span := ⟨t.length, u.length⟩
  have hbefore : ∀ x ∈ t.zipIdx, (!covered (spans ++ [last]) x.2) = !covered spans x.2 := by
    intro x hx
    have hlt : x.2 < t.length := by simpa using List.snd_lt_of_mem_zipIdx hx
    have hfree : last.covers x.2 = false :=
      Bool.eq_false_iff.mpr fun hcovers => Nat.not_le.mpr hlt (Span.covers_iff.mp hcovers).1
    rw [covered_concat, hfree, Bool.or_false]
  have hbehind : ∀ x ∈ u.zipIdx t.length, ¬ (!covered (spans ++ [last]) x.2) = true := by
    intro x hx
    have hlt := List.snd_lt_of_mem_zipIdx hx
    rw [Nat.add_comm] at hlt
    have hcovers : last.covers x.2 = true :=
      Span.covers_iff.mpr ⟨List.le_snd_of_mem_zipIdx hx, hlt⟩
    rw [covered_concat, hcovers, Bool.or_true]
    exact Bool.false_ne_true
  rw [without_append, List.filter_eq_nil_iff.mpr hbehind, List.map_nil, List.append_nil, without,
    List.filter_congr hbefore]
  rfl

theorem Leaves.append_kept (h : t.Leaves spans kept) (u : Text) :
    (t ++ u).Leaves spans (kept ++ u) := by
  refine ⟨fun s hs => ?_, h.ascending, ?_, ?_⟩
  · have hstop := h.stop_le s hs
    rw [List.length_append]
    omega
  · rw [without_append_of_le h.stop_le, h.without_eq]
  · have hlength := h.length_eq
    rw [List.length_append, List.length_append]
    omega

/-- The units of one more span at the end go away. -/
theorem Leaves.append_span (h : t.Leaves spans kept) (u : Text) :
    (t ++ u).Leaves (spans ++ [⟨t.length, u.length⟩]) kept := by
  refine ⟨?_, ?_, ?_, ?_⟩
  · intro s hs
    rw [List.length_append]
    rcases List.mem_append.mp hs with hs | hs
    · have hstop := h.stop_le s hs
      omega
    · obtain rfl := List.mem_singleton.mp hs
      exact Nat.le_refl _
  · refine List.pairwise_append.mpr ⟨h.ascending, List.pairwise_singleton _ _, ?_⟩
    intro s hs s' hs'
    obtain rfl := List.mem_singleton.mp hs'
    exact h.stop_le s hs
  · rw [without_append_span, h.without_eq]
  · have hlength := h.length_eq
    simp only [List.length_append, sumOf_append, sumOf_cons, sumOf_nil]
    omega

end Text
end EditHistory
