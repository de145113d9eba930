import EditHistory.Archive.Replay
import EditHistory.Proofs.Archive.Stored

/-! Stored versions are found by their counters and rebuilt from the full diff at or before them. -/
namespace EditHistory

open Version

namespace Replay

theorem getElem_lt_iff {counters : Array Nat} (hasc : counters.toList.Pairwise (· < ·)) {j k : Nat}
    (hj : j < counters.size) (hk : k < counters.size) : counters[j] < counters[k] ↔ j < k := by
  have hlt := List.pairwise_iff_getElem.mp hasc
  constructor
  · intro h
    refine Nat.lt_of_not_le ?_
    intro hkj
    rcases Nat.lt_or_eq_of_le hkj with hkj | rfl
    · exact Nat.lt_asymm h (hlt k j hk hj hkj)
    · exact Nat.lt_irrefl _ h
  · intro h
    exact hlt j k hj hk h

/-- Among ascending counters the bisection finds one that stands within its bounds. -/
theorem search_eq_some {counters : Array Nat} {target low count i : Nat}
    (hasc : counters.toList.Pairwise (· < ·)) (hi : i < counters.size)
    (htarget : counters[i] = target) (hlow : low ≤ i) (hhigh : i < low + count)
    (hsize : low + count ≤ counters.size) : search counters target low count = some i := by
  fun_induction search counters target low count with
  | case1 low => omega
  | case2 low count hcount half hnone =>
    have : low + half < counters.size := by omega
    simp [this] at hnone
  | case3 low count hcount half hsome =>
    obtain ⟨hmid, hvalue⟩ := Array.getElem?_eq_some_iff.mp hsome
    have hbefore := getElem_lt_iff hasc hi hmid
    have hbehind := getElem_lt_iff hasc hmid hi
    exact congrArg some (by omega)
  | case4 low count hcount half c hsome hne hless ih =>
    -- the value in the middle is too small, so the target stands behind it
    obtain ⟨hmid, hvalue⟩ := Array.getElem?_eq_some_iff.mp hsome
    have hbehind : low + half < i := (getElem_lt_iff hasc hmid hi).mp (by omega)
    exact ih hbehind (by omega) (by omega)
  | case5 low count hcount half c hsome hne hless ih =>
    obtain ⟨hmid, hvalue⟩ := Array.getElem?_eq_some_iff.mp hsome
    have hbefore : i < low + half := (getElem_lt_iff hasc hi hmid).mp (by omega)
    exact ih hlow hbefore (by omega)

/-- The checkpoint of an index is the full diff behind which, up to the index, none is full. -/
theorem checkpoint?_eq_some {diffs : List Diff} {first last : Nat} (hlast : last < diffs.length)
    (hle : first ≤ last) (hfull : diffs[first].isFull = true)
    (hnot : ∀ j, first < j → (hj : j ≤ last) → diffs[j].isFull = false) :
    checkpoint? diffs last = some first := by
  have hfind : (diffs.take (last + 1)).reverse.findIdx? Diff.isFull = some (last - first) := by
    have hlen : (diffs.take (last + 1)).reverse.length = last + 1 := by
      rw [List.length_reverse, List.length_take]
      omega
    refine List.findIdx?_eq_some_iff_getElem.mpr ⟨by omega, ?_, fun j hj => ?_⟩
    · rw [List.getElem_reverse, List.getElem_take]
      simpa [Nat.sub_sub_self hle, Nat.min_eq_left hlast] using hfull
    · rw [List.getElem_reverse, List.getElem_take]
      simpa [Nat.min_eq_left hlast] using hnot (last - j) (by omega) (by omega)
  rw [checkpoint?, hfind, Option.map_some, Nat.sub_sub_self hle]

end Replay

theorem Replayer.advance_eq {counter : Nat} {patch : Patch} {base text : Text}
    (h : patch.apply base = .ok text) :
    Replayer.advance counter patch base = .ok (text, ⟨some text, counter⟩) := by
  rw [Replayer.advance, h]
  rfl

/-- The next diff is applied to the text before it. -/
theorem Replayer.push_next {count : Nat} {last text : Text} {d : Diff} (hcounter : d.counter = count + 1)
    (hword : count + 1 < Decimal.wordLimit) (happly : d.patch.apply last = .ok text) :
    push ⟨some last, count⟩ d = .ok (text, ⟨some text, count + 1⟩) := by
  have hnext : next count = count + 1 := Nat.mod_eq_of_lt hword
  simp only [push, hnext, hcounter, if_true, advance_eq happly]

/-- A full diff is applied without a text before it. -/
theorem Replayer.push_full {text : Text} {d : Diff} (hfull : d.isFull = true)
    (happly : d.patch.apply [] = .ok text) : start.push d = .ok (text, ⟨some text, d.counter⟩) := by
  simp only [push, start, hfull, if_true, advance_eq happly]

namespace Stores

variable {interval count : Nat} {last : Text} {vs : List Version} {ds : List Diff}

/-- Applied to the text stored last, the diffs lead through the texts of their versions. -/
theorem run_eq (h : Stores interval count last vs ds)
    (hword : count + vs.length < Decimal.wordLimit) :
    Replayer.run ⟨some last, count⟩ ds = .ok ⟨some (lastText last vs), count + vs.length⟩ := by
  induction h with
  | nil => rfl
  | @cons count last v vs d ds hcounter _ _ happly _ ih =>
    rw [List.length_cons] at hword ⊢
    rw [Replayer.run, Replayer.push_next hcounter (by omega) (happly last (.inr rfl))]
    refine (ih (by omega)).trans ?_
    rw [lastText, Nat.add_assoc, Nat.add_comm 1]

/-- The same holds without a text to start from, where the first diff is full. -/
theorem run_start_eq (h : Stores interval count last vs ds) (hpos : 0 < vs.length)
    (hfull : count % interval = 0) (hword : count + vs.length < Decimal.wordLimit) :
    Replayer.start.run ds = .ok ⟨some (lastText last vs), count + vs.length⟩ := by
  cases h with
  | nil => simp at hpos
  | @cons _ _ v vs d ds hcounter hid hisFull happly hrest =>
    have hd : d.isFull := hisFull.trans (by simpa using hfull)
    rw [List.length_cons] at hword ⊢
    rw [Replayer.run, Replayer.push_full hd (happly [] (.inl hd)), hcounter]
    refine (hrest.run_eq (by omega)).trans ?_
    rw [lastText, Nat.add_assoc, Nat.add_comm 1]

/-- Replayed one after another, the diffs show the text of every version. -/
theorem texts_eq (h : Stores interval count last vs ds)
    (hword : count + vs.length < Decimal.wordLimit) :
    Replayer.texts ⟨some last, count⟩ ds = .ok (vs.map (·.text)) := by
  induction h with
  | nil => rfl
  | @cons count last v vs d ds hcounter _ _ happly _ ih =>
    rw [List.length_cons] at hword
    rw [Replayer.texts, Replayer.push_next hcounter (by omega) (happly last (.inr rfl))]
    simp only [bind, Except.bind, ih (by omega)]
    rfl

theorem reconstructAll_eq (h : Stores interval 0 last vs ds) (hword : vs.length < Decimal.wordLimit) :
    Replay.reconstructAll ds = .ok (vs.map (·.text)) := by
  cases h with
  | nil => rfl
  | @cons _ _ v vs d ds hcounter hid hisFull happly hrest =>
    have hd : d.isFull := hisFull.trans (by simp)
    rw [List.length_cons] at hword
    rw [Replay.reconstructAll, Replayer.texts, Replayer.push_full hd (happly [] (.inl hd)), hcounter]
    simp only [bind, Except.bind, hrest.texts_eq (by omega)]
    rfl

/-- The diffs that a counter needs start with the last multiple of the interval before it. -/
theorem range_eq (h : Stores interval 0 last vs ds) {i : Nat} (hi : i < vs.length) :
    Replay.range ds (i + 1) = .ok (i - i % interval, i + 1) := by
  have hlen : ds.length = vs.length := h.length_eq
  have hi' : i < ds.length := hlen ▸ hi
  have hcounters : (ds.map Diff.counter).toArray = (List.range' 1 vs.length).toArray := by
    rw [h.map_counter]
  have hsearch : Replay.search (ds.map Diff.counter).toArray (i + 1) 0 ds.length = some i := by
    rw [hcounters]
    refine Replay.search_eq_some List.pairwise_lt_range' (by simpa using hi) ?_ (Nat.zero_le i)
      (by omega) (by simp [hlen])
    simp [Nat.add_comm]
  have hcheckpoint : Replay.checkpoint? ds i = some (i - i % interval) := by
    refine Replay.checkpoint?_eq_some hi' (Nat.sub_le ..) ?_ fun j hj hji => ?_
    · rw [h.isFull_getElem, Nat.zero_add, decide_eq_true_eq]
      exact Nat.sub_mod_eq_zero_of_mod_eq (Nat.mod_mod ..).symm
    · rw [h.isFull_getElem, Nat.zero_add, decide_eq_false_iff_not]
      intro hmod
      have hdiv : interval * (j / interval) ≤ interval * (i / interval) :=
        Nat.mul_le_mul_left interval (Nat.div_le_div_right hji)
      have hj' := Nat.div_add_mod j interval
      have hi' := Nat.div_add_mod i interval
      omega
  rw [Replay.range, hsearch]
  simp only [hcheckpoint]

/-- Every stored version is rebuilt with exactly its text. -/
theorem reconstruct_eq (h : Stores interval 0 last vs ds) {i : Nat} (hi : i < vs.length)
    (hword : i + 1 < Decimal.wordLimit) : Replay.reconstruct ds (i + 1) = .ok vs[i].text := by
  have hle : i - i % interval ≤ i := Nat.sub_le ..
  have hfull : (i - i % interval) % interval = 0 := Nat.sub_mod_eq_zero_of_mod_eq (Nat.mod_mod ..).symm
  have hlen : ((vs.take (i + 1)).drop (i - i % interval)).length = i + 1 - (i - i % interval) := by
    rw [List.length_drop, List.length_take, Nat.min_eq_left hi]
  have hlast : ((vs.take (i + 1)).drop (i - i % interval)).getLast? = some vs[i] := by
    rw [List.getLast?_drop, if_neg (by rw [List.length_take]; omega), List.getLast?_take]
    simp [hi]
  have hpart := (h.take (i + 1)).drop (n := i - i % interval) (by rw [List.length_take]; omega)
  rw [Nat.zero_add] at hpart
  have hrun := hpart.run_start_eq (by omega) hfull (by omega)
  rw [Replay.reconstruct, h.range_eq hi]
  simp only [bind, Except.bind, hrun, lastText_of_getLast? hlast]
  rfl

end Stores
end EditHistory
