import EditHistory.Proofs.Archive.Replay
import EditHistory.Proofs.Patch.Trivial

/-! Replay from the nearest checkpoint and replay from the beginning. Diffs that replay from the first to
the last have counters without gaps, and a full diff that is nothing but its text forgets what was there
before it, so the run from a checkpoint on ends as the whole run does. -/
namespace EditHistory

namespace Replayer

variable {r r' : Replayer} {ds : List Diff} {ts : List Text} {text : Text} {d : Diff}

/-- All that applying a diff can come to. -/
theorem push_ok (h : r.push d = .ok (text, r')) :
    r' = ⟨some text, d.counter⟩ ∧ d.patch.apply (r.current.getD []) = .ok text ∧
      (r.current = none → d.isFull = true) ∧
      ∀ base, r.current = some base → d.counter = next r.counter := by
  have hadvance {base : Text} (hbase : advance d.counter d.patch base = .ok (text, r')) :
      r' = ⟨some text, d.counter⟩ ∧ d.patch.apply base = .ok text := by
    obtain ⟨result, happly, hend⟩ := bind_eq_ok.mp hbase
    obtain ⟨rfl, rfl⟩ := Prod.mk.inj (Except.ok.inj hend)
    exact ⟨rfl, mapError_eq_ok.mp happly⟩
  obtain ⟨current, count⟩ := r
  cases current with
  | none =>
    simp only [push] at h
    split at h
    · rename_i hfull
      obtain ⟨hr', happly⟩ := hadvance h
      exact ⟨hr', happly, fun _ => hfull, fun _ hnone => by cases hnone⟩
    · cases h
  | some base =>
    simp only [push] at h
    split at h
    · rename_i hcounter
      obtain ⟨hr', happly⟩ := hadvance h
      exact ⟨hr', happly, fun hnone => (by cases hnone), fun _ _ => hcounter⟩
    · cases h

/-- A diff that is nothing but a whole text does not see what was there before it. -/
theorem push_start_of_push (hfull : d.isFull = true) (hlone : d.patch.length = 1)
    (h : r.push d = .ok (text, r')) : start.push d = .ok (text, r') := by
  obtain ⟨whole, hwhole⟩ : ∃ whole, d.patch = [.full whole] := by
    obtain ⟨e, he⟩ := List.length_eq_one_iff.mp hlone
    rw [Diff.isFull, he] at hfull
    cases e with
    | full whole => exact ⟨whole, he⟩
    | insert | delete | replace | cut | paste => cases hfull
  obtain ⟨rfl, happly, -, -⟩ := push_ok h
  rw [hwhole, Patch.apply_full] at happly
  refine push_full hfull ?_
  rw [hwhole, Patch.apply_full, happly]

theorem run_append (r : Replayer) (xs ys : List Diff) :
    r.run (xs ++ ys) = (r.run xs).bind fun r' => r'.run ys := by
  induction xs generalizing r with
  | nil => rfl
  | cons d xs ih =>
    rw [List.cons_append, run, run]
    cases hpush : r.push d with
    | error e => rfl
    | ok result => exact ih result.2

/-- The texts of a replay come one by one out of the run. -/
theorem run_take_of_texts (h : r.texts ds = .ok ts) {i : Nat} (hi : i < ds.length) :
    ∃ text, ts[i]? = some text ∧ r.run (ds.take (i + 1)) = .ok ⟨some text, ds[i].counter⟩ := by
  induction ds generalizing r ts i with
  | nil => cases hi
  | cons d ds ih =>
    obtain ⟨⟨text, r'⟩, hpush, hrest⟩ := bind_eq_ok.mp h
    obtain ⟨ts', htexts, hend⟩ := bind_eq_ok.mp hrest
    obtain rfl := Except.ok.inj hend
    obtain ⟨rfl, -⟩ := push_ok hpush
    cases i with
    | zero =>
      refine ⟨text, rfl, ?_⟩
      rw [Nat.zero_add, List.take_succ_cons, List.take_zero, run, hpush]
      rfl
    | succ i =>
      obtain ⟨last, hlast, hrun⟩ := ih htexts (Nat.lt_of_succ_lt_succ hi)
      refine ⟨last, hlast, ?_⟩
      rw [List.take_succ_cons, run, hpush]
      exact hrun

theorem length_of_texts (h : r.texts ds = .ok ts) : ts.length = ds.length := by
  induction ds generalizing r ts with
  | nil =>
    obtain rfl := Except.ok.inj h
    rfl
  | cons d ds ih =>
    obtain ⟨⟨text, r'⟩, hpush, hrest⟩ := bind_eq_ok.mp h
    obtain ⟨ts', htexts, hend⟩ := bind_eq_ok.mp hrest
    obtain rfl := Except.ok.inj hend
    rw [List.length_cons, List.length_cons, ih htexts]

/-- Behind a text, the counters go on without a gap, as long as they do not wrap around. -/
theorem map_counter_of_texts {last : Text} {count : Nat} (h : texts ⟨some last, count⟩ ds = .ok ts)
    (hcount : count + 1 < Decimal.wordLimit) (hword : ∀ d ∈ ds, d.counter + 1 < Decimal.wordLimit) :
    ds.map Diff.counter = List.range' (count + 1) ds.length := by
  induction ds generalizing last count ts with
  | nil => rfl
  | cons d ds ih =>
    obtain ⟨⟨text, r'⟩, hpush, hrest⟩ := bind_eq_ok.mp h
    obtain ⟨ts', htexts, hend⟩ := bind_eq_ok.mp hrest
    obtain ⟨rfl, -, -, hnext⟩ := push_ok hpush
    have hcounter : d.counter = count + 1 := (hnext last rfl).trans (Nat.mod_eq_of_lt hcount)
    obtain ⟨hd, hds⟩ := List.forall_mem_cons.mp hword
    rw [List.map_cons, ih htexts hd hds, hcounter]
    exact List.range'_succ.symm

/-- A replay from the beginning starts with a full diff, and the counters ascend. -/
theorem ascending_of_texts (h : start.texts ds = .ok ts)
    (hword : ∀ d ∈ ds, d.counter + 1 < Decimal.wordLimit) :
    (ds.map Diff.counter).Pairwise (· < ·) ∧ ∀ d ∈ ds.head?, d.isFull = true := by
  cases ds with
  | nil => exact ⟨.nil, nofun⟩
  | cons d ds =>
    obtain ⟨⟨text, r'⟩, hpush, hrest⟩ := bind_eq_ok.mp h
    obtain ⟨ts', htexts, hend⟩ := bind_eq_ok.mp hrest
    obtain ⟨rfl, -, hfull, -⟩ := push_ok hpush
    obtain ⟨hd, hds⟩ := List.forall_mem_cons.mp hword
    refine ⟨?_, fun first hfirst => ?_⟩
    · rw [List.map_cons, map_counter_of_texts htexts hd hds, ← List.range'_succ]
      exact List.pairwise_lt_range'
    · obtain rfl := Option.some.inj hfirst
      exact hfull rfl

/-- Whatever the run up to some diff comes to, a run that starts with a full diff before it comes to. -/
theorem run_drop_of_run {xs : List Diff} {n : Nat} (h : start.run xs = .ok r) (hn : n < xs.length)
    (hfull : xs[n].isFull = true) (hlone : xs[n].patch.length = 1) : start.run (xs.drop n) = .ok r := by
  rw [← List.take_append_drop n xs, run_append] at h
  obtain ⟨before, -, hrest⟩ := bind_eq_ok.mp h
  rw [List.drop_eq_getElem_cons hn] at hrest ⊢
  obtain ⟨⟨text, r'⟩, hpush, hend⟩ := bind_eq_ok.mp hrest
  rw [run, push_start_of_push hfull hlone hpush]
  exact hend

end Replayer

namespace Replay

/-- What the bisection finds is the counter that was asked for. -/
theorem getElem?_of_search {counters : Array Nat} {target low count i : Nat}
    (h : search counters target low count = some i) : counters[i]? = some target := by
  fun_induction search counters target low count with
  | case1 => cases h
  | case2 => cases h
  | case3 low count hcount half hsome =>
    obtain rfl := Option.some.inj h
    exact hsome
  | case4 low count hcount half c hsome hne hless ih => exact ih h
  | case5 low count hcount half c hsome hne hless ih => exact ih h

/-- A counter that no diff has is not found. -/
theorem reconstruct_of_not_mem {diffs : List Diff} {counter : Nat}
    (h : counter ∉ diffs.map Diff.counter) :
    reconstruct diffs counter = .error (.notFound counter) := by
  have hsearch : search (diffs.map Diff.counter).toArray counter 0 diffs.length = none := by
    rw [Option.eq_none_iff_forall_not_mem]
    intro i hi
    refine h (List.mem_of_getElem? (i := i) ?_)
    rw [← List.getElem?_toArray]
    exact getElem?_of_search hi
  have hrange : range diffs counter = .error (.notFound counter) := by rw [range, hsearch]
  rw [reconstruct, hrange]
  rfl

/-- The last full diff at or before an index. -/
structure IsCheckpoint (diffs : List Diff) (first last : Nat) : Prop where
  le : first ≤ last
  full : ∃ d, diffs[first]? = some d ∧ d.isFull = true
  not_full : ∀ i, first < i → i ≤ last → ∀ d, diffs[i]? = some d → d.isFull = false

variable {diffs : List Diff} {first last : Nat} {d : Diff}

theorem isCheckpoint_self (hd : diffs[last]? = some d) (hfull : d.isFull = true) :
    IsCheckpoint diffs last last := by
  refine ⟨Nat.le_refl last, ⟨d, hd, hfull⟩, fun i hi hle => ?_⟩
  omega

theorem IsCheckpoint.succ (h : IsCheckpoint diffs first last) (hd : diffs[last + 1]? = some d)
    (hnot : d.isFull = false) : IsCheckpoint diffs first (last + 1) := by
  refine ⟨Nat.le_succ_of_le h.le, h.full, fun i hi hle x hx => ?_⟩
  rcases Nat.lt_or_eq_of_le hle with hlt | rfl
  · exact h.not_full i hi (Nat.le_of_lt_succ hlt) x hx
  · obtain rfl := Option.some.inj (hd.symm.trans hx)
    exact hnot

/-- Where the first diff is full, every index has a checkpoint. -/
theorem exists_isCheckpoint (hhead : ∀ d ∈ diffs.head?, d.isFull = true)
    (hlast : last < diffs.length) : ∃ first, IsCheckpoint diffs first last := by
  induction last with
  | zero =>
    have hd : diffs[0]? = some diffs[0] := List.getElem?_eq_getElem hlast
    exact ⟨0, isCheckpoint_self hd (hhead diffs[0] (List.head?_eq_getElem?.trans hd))⟩
  | succ last ih =>
    have hd : diffs[last + 1]? = some diffs[last + 1] := List.getElem?_eq_getElem hlast
    cases hfull : diffs[last + 1].isFull with
    | true => exact ⟨last + 1, isCheckpoint_self hd hfull⟩
    | false =>
      obtain ⟨first, hfirst⟩ := ih (by omega)
      exact ⟨first, hfirst.succ hd hfull⟩

/-- Among diffs in the order of their counters, a counter needs those from the checkpoint of its diff on. -/
theorem IsCheckpoint.range_eq (h : IsCheckpoint diffs first last)
    (hasc : (diffs.map Diff.counter).Pairwise (· < ·)) (hlast : last < diffs.length) :
    range diffs diffs[last].counter = .ok (first, last + 1) := by
  have hsearch : search (diffs.map Diff.counter).toArray diffs[last].counter 0 diffs.length =
      some last :=
    search_eq_some hasc (by simpa using hlast) (by simp) (Nat.zero_le last) (by omega) (by simp)
  have hcheckpoint : checkpoint? diffs last = some first := by
    obtain ⟨d, hd, hfull⟩ := h.full
    obtain ⟨hfirst, rfl⟩ := List.getElem?_eq_some_iff.mp hd
    refine checkpoint?_eq_some hlast h.le hfull fun i hi hle => ?_
    exact h.not_full i hi hle diffs[i] (List.getElem?_eq_getElem _)
  rw [range, hsearch]
  simp only [hcheckpoint]

/-- The run from a checkpoint on ends as the run from the beginning does. -/
theorem IsCheckpoint.run_eq {r : Replayer} (h : IsCheckpoint diffs first last)
    (hlone : ∀ d ∈ diffs, d.isFull = true → d.patch.length = 1)
    (hrun : Replayer.start.run (diffs.take (last + 1)) = .ok r) :
    Replayer.start.run ((diffs.take (last + 1)).drop first) = .ok r := by
  obtain ⟨d, hd, hfull⟩ := h.full
  have htake : (diffs.take (last + 1))[first]? = some d := by
    rw [List.getElem?_take_of_lt (Nat.lt_succ_of_le h.le), hd]
  obtain ⟨hlen, hget⟩ := List.getElem?_eq_some_iff.mp htake
  refine Replayer.run_drop_of_run hrun hlen ?_ ?_
  · rw [hget, hfull]
  · rw [hget, hlone d (List.mem_of_getElem? hd) hfull]

/-- Replay from the nearest checkpoint agrees with replay from the beginning. If diffs whose full ones are
nothing but their text replay from the first to the last, and no counter is the largest word, then the
counter of each of them leads to the text that it has in the replay; the diffs that it needs start with the
last full one at or before it, and end with it. A counter that no diff has is not found. -/
theorem reconstruct_of_reconstructAll {texts : List Text}
    (hlone : ∀ d ∈ diffs, d.isFull = true → d.patch.length = 1)
    (hword : ∀ d ∈ diffs, d.counter < Decimal.wordLimit - 1)
    (h : reconstructAll diffs = .ok texts) :
    texts.length = diffs.length ∧
    (∀ i (hi : i < diffs.length), ∃ text first, texts[i]? = some text ∧
      reconstruct diffs diffs[i].counter = .ok text ∧
      range diffs diffs[i].counter = .ok (first, i + 1) ∧ IsCheckpoint diffs first i) ∧
    ∀ counter, counter ∉ diffs.map Diff.counter →
      reconstruct diffs counter = .error (.notFound counter) := by
  obtain ⟨hasc, hhead⟩ := Replayer.ascending_of_texts h fun d hd => by
    have hlt := hword d hd
    omega
  refine ⟨Replayer.length_of_texts h, fun i hi => ?_, fun counter => reconstruct_of_not_mem⟩
  obtain ⟨text, htext, hrun⟩ := Replayer.run_take_of_texts h hi
  obtain ⟨first, hfirst⟩ := exists_isCheckpoint hhead hi
  have hrange := hfirst.range_eq hasc hi
  refine ⟨text, first, htext, ?_, hrange, hfirst⟩
  rw [reconstruct, hrange]
  simp only [bind, Except.bind, hfirst.run_eq hlone hrun]
  rfl

/-- Four diffs from the middle of a history, the third of them full. -/
theorem reconstruct_of_reconstructAll_resumed :
    let diff (counter : Nat) (patch : Patch) : Diff :=
      ⟨counter, counter, ⟨5, 0⟩, "", .anonymous "::1", false, patch, .zero⟩
    let diffs : List Diff := [diff 7 [.full [97]], diff 8 [.insert 1 [98]],
      diff 9 [.full [99, 100]], diff 10 [.replace 0 1 [71]]]
    (∀ d ∈ diffs, d.isFull = true → d.patch.length = 1) ∧
      (∀ d ∈ diffs, d.counter < Decimal.wordLimit - 1) ∧
      reconstructAll diffs = .ok [[97], [97, 98], [99, 100], [71, 100]] ∧
      reconstruct diffs 8 = .ok [97, 98] ∧ reconstruct diffs 10 = .ok [71, 100] ∧
      (∃ first, range diffs 10 = .ok (first, 4) ∧ IsCheckpoint diffs first 3) ∧
      reconstruct diffs 6 = .error (.notFound 6) := by
  intro diff diffs
  have hlone : ∀ d ∈ diffs, d.isFull = true → d.patch.length = 1 := by decide
  have hword : ∀ d ∈ diffs, d.counter < Decimal.wordLimit - 1 := by decide
  have hall : reconstructAll diffs = .ok [[97], [97, 98], [99, 100], [71, 100]] := rfl
  obtain ⟨-, hfound, hmissing⟩ := reconstruct_of_reconstructAll hlone hword hall
  obtain ⟨second, -, htext, hsecond, -⟩ := hfound 1 (by decide)
  obtain rfl : [97, 98] = second := Option.some.inj htext
  obtain ⟨fourth, first, htext, hfourth, hrange, hfirst⟩ := hfound 3 (by decide)
  obtain rfl : [71, 100] = fourth := Option.some.inj htext
  exact ⟨hlone, hword, hall, hsecond, hfourth, ⟨first, hrange, hfirst⟩, hmissing 6 (by decide)⟩

end Replay
end EditHistory
