import Mathlib.Data.List.Perm.Basic

/-! Sums over lists: of lengths, of steps that are left. -/
namespace EditHistory

variable {α β : Type}

/-- The sum of a measure over a list. -/
def sumOf {α : Type} (f : α → Nat) (xs : List α) : Nat := xs.foldr (fun x sum => f x + sum) 0

@[simp] theorem sumOf_nil (f : α → Nat) : sumOf f [] = 0 := rfl

@[simp] theorem sumOf_cons (f : α → Nat) (x : α) (xs : List α) :
    sumOf f (x :: xs) = f x + sumOf f xs := rfl

@[simp] theorem sumOf_append (f : α → Nat) (xs ys : List α) :
    sumOf f (xs ++ ys) = sumOf f xs + sumOf f ys := by
  induction xs with
  | nil => simp
  | cons x xs ih => rw [List.cons_append, sumOf_cons, sumOf_cons, ih, Nat.add_assoc]

theorem le_sumOf_of_mem (f : α → Nat) {x : α} {xs : List α} (h : x ∈ xs) : f x ≤ sumOf f xs := by
  induction h with
  | head xs => exact Nat.le_add_right _ _
  | tail y _ ih => exact Nat.le_trans ih (Nat.le_add_left _ _)

theorem sumOf_le_of_sublist (f : α → Nat) {xs ys : List α} (h : xs.Sublist ys) :
    sumOf f xs ≤ sumOf f ys := by
  induction h with
  | slnil => exact Nat.le_refl _
  | cons y _ ih => exact Nat.le_trans ih (Nat.le_add_left ..)
  | cons_cons x _ ih => exact Nat.add_le_add_left ih (f x)

theorem sumOf_replicate (f : α → Nat) (n : Nat) (x : α) :
    sumOf f (List.replicate n x) = n * f x := by
  induction n with
  | zero => simp
  | succ n ih =>
    rw [List.replicate_succ, sumOf_cons, ih, Nat.succ_mul]
    omega

theorem sumOf_set (f : α → Nat) {xs : List α} {i : Nat} {x : α} (h : xs[i]? = some x) (y : α) :
    sumOf f (xs.set i y) + f x = sumOf f xs + f y := by
  induction xs generalizing i with
  | nil => simp at h
  | cons x' xs ih =>
    cases i with
    | zero =>
      obtain rfl : x' = x := by simpa using h
      simp only [List.set_cons_zero, sumOf_cons]
      omega
    | succ i =>
      have hrest := ih (i := i) (by simpa using h)
      simp only [List.set_cons_succ, sumOf_cons]
      omega

theorem sumOf_map (f : β → Nat) (g : α → β) (xs : List α) :
    sumOf f (xs.map g) = sumOf (fun x => f (g x)) xs := by
  induction xs with
  | nil => rfl
  | cons x xs ih => rw [List.map_cons, sumOf_cons, sumOf_cons, ih]

theorem sumOf_perm (f : α → Nat) {xs ys : List α} (h : xs.Perm ys) : sumOf f xs = sumOf f ys := by
  induction h with
  | nil => rfl
  | cons x h ih => rw [sumOf_cons, sumOf_cons, ih]
  | swap x y xs =>
    simp only [sumOf_cons]
    omega
  | trans _ _ ih ih' => exact ih.trans ih'

/-- What a condition holds of and what it does not hold of make up the whole. -/
theorem sumOf_filter_add (f : α → Nat) (p : α → Bool) (xs : List α) :
    sumOf f (xs.filter p) + sumOf f (xs.filter fun x => !p x) = sumOf f xs := by
  rw [← sumOf_append]
  exact sumOf_perm f (List.filter_append_perm p xs)

end EditHistory
