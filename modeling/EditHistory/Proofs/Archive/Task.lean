import EditHistory.Archive.Task

/-! Items pushed into a portioner come out in the tasks, each once and in order, wherever the tasks
are cut. -/
namespace EditHistory

namespace Task

/-- Counting on in words is counting on and then taking the word. -/
theorem partAfter_mod (n : Nat) : partAfter (n % partLimit) = (n + 1) % partLimit := by
  rw [partAfter, Nat.mod_add_mod]

theorem partAfter_of_lt {part : Nat} (h : part + 1 < partLimit) : partAfter part = part + 1 :=
  Nat.mod_eq_of_lt h

/-- Few enough tasks are numbered by the words themselves. -/
theorem map_range_mod_partLimit {n : Nat} (h : n ≤ partLimit) :
    (List.range n).map (· % partLimit) = List.range n := by
  refine (List.map_congr_left fun part hpart => ?_).trans (List.map_id _)
  exact Nat.mod_eq_of_lt (Nat.lt_of_lt_of_le (List.mem_range.mp hpart) h)

end Task

namespace TaskKind

variable (part : Nat)

/-- A task that leaves its article open starts it if it is the first one. -/
theorem startsArticle_open :
    (if part = 0 then TaskKind.first else .middle).startsArticle = true ↔ part = 0 := by
  by_cases h : part = 0 <;> simp [h, startsArticle]

theorem endsArticle_open : (if part = 0 then TaskKind.first else .middle).endsArticle = false := by
  by_cases h : part = 0 <;> simp [h, endsArticle]

/-- The kinds of the tasks numbered from zero on that leave their article open. -/
theorem map_open_range (n : Nat) :
    ((List.range (n + 1)).map fun part => if part = 0 then TaskKind.first else .middle) =
      .first :: List.replicate n .middle := by
  rw [List.range_succ_eq_map, List.map_cons, if_pos rfl, List.map_map]
  refine congrArg _ (List.eq_replicate_iff.mpr ⟨by simp, fun kind hkind => ?_⟩)
  obtain ⟨part, -, rfl⟩ := List.mem_map.mp hkind
  rw [Function.comp_apply, if_neg (Nat.succ_ne_zero part)]

end TaskKind

namespace Portioner

variable {α : Type}

/-- A task that a portioner may hand out next. -/
structure Next (p : Portioner α) (items : List α) (task : Task α) : Prop where
  heading_eq : task.heading = p.heading
  part_eq : task.part = p.part
  items_eq : task.items = items
  starts_iff : task.kind.startsArticle = true ↔ p.part = 0

theorem Next.starts_eq {p : Portioner α} {items : List α} {task : Task α} (h : p.Next items task) :
    task.kind.startsArticle = decide (p.part = 0) :=
  Bool.eq_iff_iff.mpr (h.starts_iff.trans decide_eq_true_iff.symm)

theorem Next.kind_of_open {p : Portioner α} {items : List α} {task : Task α} (h : p.Next items task)
    (hends : task.kind.endsArticle = false) : task.kind = if p.part = 0 then .first else .middle := by
  have hstarts := h.starts_iff
  by_cases hpart : p.part = 0 <;> cases hkind : task.kind <;>
    simp_all [TaskKind.startsArticle, TaskKind.endsArticle]

theorem Next.kind_of_closing {p : Portioner α} {items : List α} {task : Task α} (h : p.Next items task)
    (hends : task.kind.endsArticle = true) : task.kind = if p.part = 0 then .full else .last := by
  have hstarts := h.starts_iff
  by_cases hpart : p.part = 0 <;> cases hkind : task.kind <;>
    simp_all [TaskKind.startsArticle, TaskKind.endsArticle]

/-- What closes an article: the open items as the next task, which is missing only at part zero and with
nothing open. -/
theorem finish_cases (p : Portioner α) :
    (p.part = 0 ∧ p.items.toList = [] ∧ p.finish = none) ∨
    ∃ task, p.finish = some task ∧ p.Next p.items.toList task ∧ task.kind.endsArticle = true := by
  by_cases hpart : p.part = 0
  · by_cases hempty : p.items.isEmpty
    · refine .inl ⟨hpart, by simpa using hempty, ?_⟩
      rw [finish, if_pos hpart, if_pos hempty]
    · refine .inr ⟨(p.take .full).1, ?_, ⟨rfl, rfl, rfl, ?_⟩, rfl⟩
      · rw [finish, if_pos hpart, if_neg hempty]
      · simp [take, TaskKind.startsArticle, hpart]
  · refine .inr ⟨(p.take .last).1, ?_, ⟨rfl, rfl, rfl, ?_⟩, rfl⟩
    · rw [finish, if_neg hpart]
    · simp [take, TaskKind.startsArticle, hpart]

theorem heading_of_mem_finish {p : Portioner α} {task : Task α} (h : task ∈ p.finish.toList) :
    task.heading = p.heading := by
  rcases p.finish_cases with ⟨-, -, hfinish⟩ | ⟨next, hfinish, hnext, -⟩
  · simp [hfinish] at h
  · rw [hfinish, Option.toList_some, List.mem_singleton] at h
    rw [h, hnext.heading_eq]

variable [Sized α]

/-- The tasks handed out on the way, and the portioner afterwards. -/
def pushAll (p : Portioner α) : List α → List (Task α) × Portioner α
  | [] => ([], p)
  | item :: rest =>
    ((p.push item).1.toList ++ ((p.push item).2.pushAll rest).1, ((p.push item).2.pushAll rest).2)

theorem pushAll_append (p : Portioner α) (xs ys : List α) :
    p.pushAll (xs ++ ys) =
      ((p.pushAll xs).1 ++ ((p.pushAll xs).2.pushAll ys).1, ((p.pushAll xs).2.pushAll ys).2) := by
  induction xs generalizing p with
  | nil => rfl
  | cons x xs ih => simp only [List.cons_append, pushAll, ih, List.append_assoc]

theorem tasksOf_eq (p : Portioner α) (xs : List α) :
    p.tasksOf xs = (p.pushAll xs).1 ++ (p.pushAll xs).2.finish.toList := by
  induction xs generalizing p with
  | nil => rfl
  | cons x xs ih => simp only [tasksOf, pushAll, ih, List.append_assoc]

theorem tasksOf_append (p : Portioner α) (xs ys : List α) :
    p.tasksOf (xs ++ ys) = (p.pushAll xs).1 ++ (p.pushAll xs).2.tasksOf ys := by
  simp only [tasksOf_eq, pushAll_append, List.append_assoc]

/-- What a push hands out: the open items with the new one, as the next task, if they are over the
limit. -/
theorem push_cases (p : Portioner α) (item : α) :
    (∃ size, p.push item = (none, { p with items := p.items.push item, byteSize := size })) ∨
    ∃ task, p.push item =
        (some task, { p with items := #[], byteSize := 0, part := Task.partAfter p.part }) ∧
      p.Next (p.items.toList ++ [item]) task ∧ task.kind.endsArticle = false := by
  by_cases hlimit : p.limit < p.byteSize + Sized.byteSize item
  · refine .inr ⟨⟨p.heading, p.part, if p.part = 0 then .first else .middle,
      p.items.toList ++ [item], p.byteSize + Sized.byteSize item⟩, ?_,
      ⟨rfl, rfl, rfl, TaskKind.startsArticle_open p.part⟩, TaskKind.endsArticle_open p.part⟩
    simp only [push, if_pos hlimit, take, Array.toList_push]
  · exact .inl ⟨_, by simp only [push, if_neg hlimit]; rfl⟩

/-- The items of the tasks handed out on the way, and those still open. -/
theorem flatMap_items_pushAll (p : Portioner α) (xs : List α) :
    (p.pushAll xs).1.flatMap Task.items ++ (p.pushAll xs).2.items.toList = p.items.toList ++ xs := by
  induction xs generalizing p with
  | nil => simp [pushAll]
  | cons x xs ih =>
    rw [pushAll, List.flatMap_append, List.append_assoc, ih]
    rcases p.push_cases x with ⟨size, hpush⟩ | ⟨task, hpush, hnext, -⟩
    · simp [hpush]
    · simp [hpush, hnext.items_eq]

theorem flatMap_items_tasksOf (p : Portioner α) (xs : List α) :
    (p.tasksOf xs).flatMap Task.items = p.items.toList ++ xs := by
  rw [tasksOf_eq, List.flatMap_append, ← flatMap_items_pushAll]
  rcases (p.pushAll xs).2.finish_cases with ⟨-, hitems, hfinish⟩ | ⟨task, hfinish, hnext, -⟩
  · rw [hfinish, hitems]
    rfl
  · simp [hfinish, hnext.items_eq]

/-! ## Headings and numbers of tasks -/

@[simp] theorem heading_push (p : Portioner α) (item : α) : (p.push item).2.heading = p.heading := by
  rcases p.push_cases item with ⟨size, hpush⟩ | ⟨task, hpush, -⟩ <;> rw [hpush]

@[simp] theorem heading_pushAll (p : Portioner α) (xs : List α) :
    (p.pushAll xs).2.heading = p.heading := by
  induction xs generalizing p with
  | nil => rfl
  | cons x xs ih => rw [pushAll, ih, heading_push]

theorem heading_of_mem_pushAll {p : Portioner α} {xs : List α} {task : Task α}
    (h : task ∈ (p.pushAll xs).1) : task.heading = p.heading := by
  induction xs generalizing p with
  | nil => simp [pushAll] at h
  | cons x xs ih =>
    rcases List.mem_append.mp h with h | h
    · rcases p.push_cases x with ⟨size, hpush⟩ | ⟨next, hpush, hnext, -⟩
      · simp [hpush] at h
      · rw [hpush, Option.toList_some, List.mem_singleton] at h
        rw [h, hnext.heading_eq]
    · rw [ih h, heading_push]

/-- Behind `n` others, the tasks handed out on the way are numbered on from the next one. -/
theorem part_pushAll {p : Portioner α} {n : Nat} (hpart : p.part = n % Task.partLimit) (xs : List α) :
    (p.pushAll xs).2.part = (n + (p.pushAll xs).1.length) % Task.partLimit ∧
      (p.pushAll xs).1.map Task.part =
        (List.range' n (p.pushAll xs).1.length).map (· % Task.partLimit) := by
  induction xs generalizing p n with
  | nil => exact ⟨hpart, rfl⟩
  | cons x xs ih =>
    rw [pushAll]
    rcases p.push_cases x with ⟨size, hpush⟩ | ⟨task, hpush, hnext, -⟩
    · rw [hpush]
      exact ih hpart
    · have hdone : (p.push x).1 = some task := by rw [hpush]
      have hcount : (p.push x).2.part = (n + 1) % Task.partLimit := by
        rw [hpush]
        exact (congrArg Task.partAfter hpart).trans (Task.partAfter_mod n)
      obtain ⟨hend, hparts⟩ := ih hcount
      rw [hdone, Option.toList_some, List.singleton_append, List.length_cons, List.map_cons, hparts,
        hnext.part_eq, hpart, List.range'_succ, List.map_cons]
      exact ⟨hend.trans (by rw [Nat.add_assoc, Nat.add_comm 1]), rfl⟩

/-- All of them leave the article open, and those with part zero start it. -/
theorem map_kind_pushAll (p : Portioner α) (xs : List α) : (p.pushAll xs).1.map Task.kind =
    ((p.pushAll xs).1.map Task.part).map fun part => if part = 0 then .first else .middle := by
  induction xs generalizing p with
  | nil => rfl
  | cons x xs ih =>
    have hkinds := ih (p.push x).2
    rw [pushAll]
    rcases p.push_cases x with ⟨size, hpush⟩ | ⟨task, hpush, hnext, hends⟩
    · rw [hpush] at hkinds ⊢
      exact hkinds
    · rw [hpush] at hkinds ⊢
      simp [hkinds, hnext.kind_of_open hends, hnext.part_eq]

theorem items_ne_nil_of_mem_pushAll {p : Portioner α} {xs : List α} {task : Task α}
    (h : task ∈ (p.pushAll xs).1) : task.items ≠ [] := by
  induction xs generalizing p with
  | nil => simp [pushAll] at h
  | cons x xs ih =>
    rcases List.mem_append.mp h with h | h
    · rcases p.push_cases x with ⟨size, hpush⟩ | ⟨next, hpush, hnext, -⟩
      · simp [hpush] at h
      · rw [hpush, Option.toList_some, List.mem_singleton] at h
        simp [h, hnext.items_eq]
    · exact ih h

/-- An item completes one task at most. -/
theorem length_pushAll_le (p : Portioner α) (xs : List α) : (p.pushAll xs).1.length ≤ xs.length := by
  induction xs generalizing p with
  | nil => exact Nat.le_refl _
  | cons x xs ih =>
    have hrest := ih (p.push x).2
    have hone := Option.length_toList_le (o := (p.push x).1)
    rw [pushAll, List.length_append, List.length_cons]
    omega

end Portioner

namespace Task

variable {α : Type} [Sized α] (heading : Heading) (limit : Nat) (items : List α)

/-- The number of tasks that items complete. Behind them comes the one that closes the article. -/
def completed : Nat := ((Portioner.start heading limit).pushAll items).1.length

theorem completed_le : completed heading limit items ≤ items.length := Portioner.length_pushAll_le _ _

/-- The open task behind items is numbered by the tasks that they complete. -/
theorem part_pushAll_start : ((Portioner.start heading limit).pushAll items).2.part =
    completed heading limit items % partLimit := by
  rw [(Portioner.part_pushAll (Nat.zero_mod _).symm items).1, Nat.zero_add]
  rfl

/-- Few enough tasks do not come round to part zero again. -/
theorem pushAll_eq_nil_of_part (hcount : completed heading limit items < partLimit)
    (hpart : ((Portioner.start heading limit).pushAll items).2.part = 0) :
    ((Portioner.start heading limit).pushAll items).1 = [] := by
  rw [part_pushAll_start, Nat.mod_eq_of_lt hcount] at hpart
  exact List.length_eq_zero_iff.mp hpart

/-- A split article has the items that were split, in order. -/
theorem flatMap_items_split : (split heading limit items).flatMap Task.items = items :=
  Portioner.flatMap_items_tasksOf (Portioner.start heading limit) items

theorem map_part_pushAll_start : ((Portioner.start heading limit).pushAll items).1.map Task.part =
    (List.range (completed heading limit items)).map (· % partLimit) := by
  rw [(Portioner.part_pushAll (Nat.zero_mod _).symm items).2, List.range_eq_range']
  rfl

/-- Its tasks are numbered from zero on, in words. -/
theorem map_part_split : (split heading limit items).map Task.part =
    (List.range (split heading limit items).length).map (· % partLimit) := by
  rw [split, Portioner.tasksOf_eq, List.map_append, map_part_pushAll_start, List.length_append,
    List.range_add, List.map_append]
  rcases ((Portioner.start heading limit).pushAll items).2.finish_cases with
    ⟨-, -, hfinish⟩ | ⟨last, hfinish, hnext, -⟩
  · rw [hfinish]
    rfl
  · have hpart := hnext.part_eq.trans (part_pushAll_start heading limit items)
    simp [hfinish, hpart, completed]

end Task

end EditHistory
