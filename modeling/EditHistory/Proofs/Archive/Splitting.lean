import EditHistory.Proofs.Archive.Task
import EditHistory.Proofs.Sum

/-! Where the items of an article are cut into tasks. A task is handed out with the first item that brings
it over the limit, so that what is open is always within it, and what closes the article is what is open
behind the last item. -/
namespace EditHistory

/-- The kinds of the tasks of an article: one full task, or a first one, any number of further ones and a
last one. -/
inductive TaskKind.Sequence : List TaskKind → Prop where
  | full : Sequence [.full]
  | parts (n : Nat) : Sequence (.first :: List.replicate n .middle ++ [.last])

/-- The kinds of `n` tasks that leave their article open, and of the one behind them that closes it. -/
theorem TaskKind.sequence_closing (n : Nat) :
    Sequence (((List.range n).map fun part => if part = 0 then .first else .middle) ++
      [if n = 0 then .full else .last]) := by
  cases n with
  | zero => exact .full
  | succ n =>
    rw [map_open_range, if_neg (Nat.succ_ne_zero n)]
    exact .parts n

namespace Task

variable {α : Type} [Sized α]

/-- A task that its last item has brought over the limit. -/
structure Overflows (limit : Nat) (task : Task α) : Prop where
  exceeds : limit < task.byteSize
  within_before : sumOf Sized.byteSize task.items.dropLast ≤ limit

/-- The items of an article as tasks of bounded size, the last of which closes the article. -/
structure Splits (heading : Heading) (limit : Nat) (items : List α) (earlier : List (Task α))
    (last : Task α) : Prop where
  heading_eq : ∀ task ∈ earlier ++ [last], task.heading = heading
  items_eq : (earlier ++ [last]).flatMap Task.items = items
  part_eq : (earlier ++ [last]).map Task.part = List.range (earlier.length + 1)
  kind_sequence : TaskKind.Sequence ((earlier ++ [last]).map Task.kind)
  byteSize_eq : ∀ task ∈ earlier ++ [last], task.byteSize = sumOf Sized.byteSize task.items
  earlier_overflows : ∀ task ∈ earlier, task.Overflows limit
  last_within : last.byteSize ≤ limit

end Task

namespace Portioner

variable {α : Type}

/-- The open task as the one that closes the article. -/
def closing (p : Portioner α) : Task α :=
  ⟨p.heading, p.part, if p.part = 0 then .full else .last, p.items.toList, p.byteSize⟩

/-- Unless nothing is open at part zero, the open task closes the article. -/
theorem finish_eq_closing {p : Portioner α} (h : p.part = 0 → p.items.toList ≠ []) :
    p.finish = some p.closing := by
  by_cases hpart : p.part = 0
  · have hitems : ¬ p.items.isEmpty := by simpa using h hpart
    rw [finish, if_pos hpart, if_neg hitems, closing, if_pos hpart]
    rfl
  · rw [finish, if_neg hpart, closing, if_neg hpart]
    rfl

variable [Sized α]

/-- The open task counts the sizes of its items and is not over the limit. -/
structure Within (p : Portioner α) : Prop where
  byteSize_eq : p.byteSize = sumOf Sized.byteSize p.items.toList
  le_limit : p.byteSize ≤ p.limit

theorem within_start (heading : Heading) (limit : Nat) :
    (start heading limit : Portioner α).Within :=
  ⟨rfl, Nat.zero_le _⟩

@[simp] theorem limit_push (p : Portioner α) (item : α) : (p.push item).2.limit = p.limit := by
  rcases p.push_cases item with ⟨size, hpush⟩ | ⟨task, hpush, -⟩ <;> rw [hpush]

/-- An item leaves the open task within the limit, or is the last one of a task that is over it. -/
theorem Within.push {p : Portioner α} (h : p.Within) (item : α) :
    (p.push item).2.Within ∧ ∀ task ∈ (p.push item).1,
      task.byteSize = sumOf Sized.byteSize task.items ∧ task.Overflows p.limit := by
  have hsize : p.byteSize + Sized.byteSize item =
      sumOf Sized.byteSize (p.items.push item).toList := by
    rw [h.byteSize_eq, Array.toList_push, sumOf_append, sumOf_cons, sumOf_nil, Nat.add_zero]
  by_cases hlimit : p.limit < p.byteSize + Sized.byteSize item
  · simp only [Portioner.push, if_pos hlimit, take]
    refine ⟨⟨rfl, Nat.zero_le _⟩, fun task htask => ?_⟩
    obtain rfl := Option.some.inj htask
    refine ⟨hsize, hlimit, ?_⟩
    rw [Array.toList_push, List.dropLast_concat, ← h.byteSize_eq]
    exact h.le_limit
  · simp only [Portioner.push, if_neg hlimit]
    exact ⟨⟨hsize, Nat.le_of_not_lt hlimit⟩, fun _ hnone => by cases hnone⟩

/-- All tasks that are handed out on the way are over the limit, and what is open is not. -/
theorem Within.pushAll {p : Portioner α} (h : p.Within) (items : List α) :
    (p.pushAll items).2.Within ∧ (p.pushAll items).2.limit = p.limit ∧
      ∀ task ∈ (p.pushAll items).1,
        task.byteSize = sumOf Sized.byteSize task.items ∧ task.Overflows p.limit := by
  induction items generalizing p with
  | nil => exact ⟨h, rfl, nofun⟩
  | cons item items ih =>
    obtain ⟨hwithin, hout⟩ := h.push item
    obtain ⟨hend, hlimit, hrest⟩ := ih hwithin
    rw [limit_push] at hlimit hrest
    refine ⟨hend, hlimit, fun task htask => ?_⟩
    rcases List.mem_append.mp htask with htask | htask
    · exact hout task (Option.mem_toList.mp htask)
    · exact hrest task htask

theorem pushAll_concat (p : Portioner α) (before : List α) (item : α) :
    (p.pushAll (before ++ [item])).2 = ((p.pushAll before).2.push item).2 := by
  rw [pushAll_append]
  rfl

/-- Behind a last item nothing is open exactly where it has completed a task. -/
theorem items_push_eq_nil_iff (p : Portioner α) (item : α) :
    (p.push item).2.items.toList = [] ↔ (p.push item).1.isSome := by
  rcases p.push_cases item with ⟨size, hpush⟩ | ⟨task, hpush, -⟩ <;> simp [hpush]

variable {heading : Heading} {limit : Nat} {items : List α}

/-- Items that complete few enough tasks leave something to close the article with: themselves, or the
tasks that they have completed. -/
theorem finish_pushAll (hne : items ≠ []) (hcount : Task.completed heading limit items < Task.partLimit) :
    ((start heading limit).pushAll items).2.finish =
      some ((start heading limit).pushAll items).2.closing := by
  refine finish_eq_closing fun hpart => ?_
  have hnone := Task.pushAll_eq_nil_of_part heading limit items hcount hpart
  have hitems := flatMap_items_pushAll (start heading limit) items
  rw [hnone] at hitems
  rw [show ((start heading limit).pushAll items).2.items.toList = items from hitems]
  exact hne

/-- What items lead to is a split of them, if the open task closes the article. -/
theorem splits_pushAll (hcount : Task.completed heading limit items < Task.partLimit) :
    Task.Splits heading limit items ((start heading limit).pushAll items).1
      ((start heading limit).pushAll items).2.closing := by
  obtain ⟨hwithin, hlimit, hout⟩ := (within_start heading limit).pushAll items
  have hnumber := Task.part_pushAll_start heading limit items
  rw [Nat.mod_eq_of_lt hcount] at hnumber
  have hparts := Task.map_part_pushAll_start heading limit items
  rw [Task.map_range_mod_partLimit (Nat.le_of_lt hcount)] at hparts
  refine ⟨?_, ?_, ?_, ?_, ?_, fun task htask => (hout task htask).2, ?_⟩
  · refine List.forall_mem_append.mpr ⟨fun task => heading_of_mem_pushAll, ?_⟩
    rw [List.forall_mem_singleton]
    exact heading_pushAll _ items
  · rw [List.flatMap_append, List.flatMap_singleton]
    exact flatMap_items_pushAll (start heading limit) items
  · rw [List.map_append, hparts, List.range_succ]
    exact congrArg (_ ++ [·]) hnumber
  · rw [List.map_append, map_kind_pushAll, hparts, List.map_singleton, closing, hnumber]
    exact TaskKind.sequence_closing _
  · refine List.forall_mem_append.mpr ⟨fun task htask => (hout task htask).1, ?_⟩
    rw [List.forall_mem_singleton]
    exact hwithin.byteSize_eq
  · exact Nat.le_trans hwithin.le_limit (Nat.le_of_eq hlimit)

end Portioner

namespace Task

variable {α : Type} [Sized α]

theorem split_eq_nil_iff (heading : Heading) (limit : Nat) (items : List α) :
    split heading limit items = [] ↔ items = [] := by
  constructor
  · intro h
    have hitems := flatMap_items_split heading limit items
    rw [h] at hitems
    exact hitems.symm
  · rintro rfl
    rfl

/-- The items of an article are split into no tasks only if there are none. The tasks hold them in order
and are numbered from zero on, in words. Before the words come round, there is one full task, or a first
one, further ones and a last one; every task counts the sizes of its items; all but the last are over the
limit, and each of them only by its last item; the last is within the limit, and empty exactly where the
very last item has completed the task before it. -/
theorem split_law (heading : Heading) (limit : Nat) :
    (∀ items : List α, (split heading limit items = [] ↔ items = []) ∧
      (split heading limit items).flatMap Task.items = items ∧
      (split heading limit items).map Task.part =
        (List.range (split heading limit items).length).map (· % partLimit)) ∧
      ∀ (before : List α) (item : α), completed heading limit (before ++ [item]) < partLimit →
        ∃ earlier last, split heading limit (before ++ [item]) = earlier ++ [last] ∧
          Splits heading limit (before ++ [item]) earlier last ∧
          (last.items = [] ↔
            (((Portioner.start heading limit).pushAll before).2.push item).1.isSome) := by
  refine ⟨fun items => ⟨split_eq_nil_iff heading limit items, flatMap_items_split heading limit items,
    map_part_split heading limit items⟩, fun before item hcount => ?_⟩
  let p : Portioner α := Portioner.start heading limit
  have hend : (p.pushAll (before ++ [item])).2 = ((p.pushAll before).2.push item).2 :=
    p.pushAll_concat before item
  refine ⟨_, _, ?_, Portioner.splits_pushAll hcount, ?_⟩
  · rw [split, Portioner.tasksOf_eq, Portioner.finish_pushAll (by simp) hcount, Option.toList_some]
  · rw [hend]
    exact Portioner.items_push_eq_nil_iff _ item

/-- Three diffs, the first two of which complete a task each. -/
theorem split_law_two_over :
    let diff (counter size : Nat) : Diff := ⟨counter, 10 + counter, ⟨5, 0⟩, "", .anonymous "", false,
      [.full (List.replicate size 0x61)], ⟨0, 0, 0, 1⟩⟩
    let diffs := [diff 1 20, diff 2 30, diff 3 1]
    completed ⟨7, "Lean"⟩ 80 diffs = 2 ∧ ∃ earlier last,
      split ⟨7, "Lean"⟩ 80 diffs = earlier ++ [last] ∧ Splits ⟨7, "Lean"⟩ 80 diffs earlier last ∧
        last.items ≠ [] := by
  intro diff diffs
  have hcount : completed ⟨7, "Lean"⟩ 80 diffs = 2 := by decide +kernel
  obtain ⟨-, hsplits⟩ := split_law (α := Diff) ⟨7, "Lean"⟩ 80
  obtain ⟨earlier, last, hsplit, hlaw, hempty⟩ :=
    hsplits [diff 1 20, diff 2 30] (diff 3 1) (Nat.lt_of_le_of_lt (Nat.le_of_eq hcount) (by decide))
  refine ⟨hcount, earlier, last, hsplit, hlaw, ?_⟩
  rw [ne_eq, hempty]
  decide +kernel

end Task
end EditHistory
