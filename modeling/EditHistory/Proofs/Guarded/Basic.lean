import EditHistory.Text.Decimal
import Mathlib.Tactic.Common

/-! Computations with guards. Where a guard does not hold the computation comes to a fault, which is no
outcome at all, neither a value nor an error. Guards stand in front of all that a machine cannot do:
reaching for an item or a slice that is not there, numbers below zero, numbers that no word holds. -/
namespace EditHistory

/-- A computation with guards. -/
abbrev Guarded (ε α : Type) := ExceptT ε Option α

namespace Guarded

variable {ε α β : Type}

/-- A computation that needs no guards. -/
def of (x : Except ε α) : Guarded ε α := (some x : Option (Except ε α))

def fault : Guarded ε α := (none : Option (Except ε α))

def ensure (p : Prop) [Decidable p] : Guarded ε Unit := if p then pure () else fault

def word (n : Nat) : Guarded ε Nat := do
  ensure (n < Decimal.wordLimit)
  return n

def sub (m n : Nat) : Guarded ε Nat := do
  ensure (n ≤ m)
  return m - n

/-- The low `n` bits of a value, under a mask. -/
def lowBits (value n : Nat) : Guarded ε Nat := do
  return value &&& (← sub (1 <<< n) 1)

def item (xs : Array α) (i : Nat) : Guarded ε α :=
  match xs[i]? with
  | some x => pure x
  | none => fault

def slice (xs : Array α) (start stop : Nat) : Guarded ε (Array α) := do
  ensure (start ≤ stop ∧ stop ≤ xs.size)
  return xs.extract start stop

theorem of_bind (x : Except ε α) (f : α → Except ε β) : (of x >>= fun a => of (f a)) = of (x >>= f) := by
  cases x <;> rfl

theorem ensure_eq {p : Prop} [Decidable p] (h : p) : (ensure p : Guarded ε Unit) = pure () := if_pos h

theorem word_eq {n : Nat} (h : n < Decimal.wordLimit) : (word n : Guarded ε Nat) = pure n := by
  rw [word, ensure_eq h, pure_bind]

theorem sub_eq {m n : Nat} (h : n ≤ m) : (sub m n : Guarded ε Nat) = pure (m - n) := by
  rw [sub, ensure_eq h, pure_bind]

theorem lowBits_eq (value n : Nat) : (lowBits value n : Guarded ε Nat) = pure (value % 1 <<< n) := by
  have hpos : 1 ≤ 1 <<< n := by
    rw [Nat.one_shiftLeft]
    exact Nat.two_pow_pos n
  rw [lowBits, sub_eq hpos, pure_bind, Nat.one_shiftLeft, Nat.and_two_pow_sub_one_eq_mod]

theorem item_eq {xs : Array α} {i : Nat} {x : α} (h : xs[i]? = some x) :
    (item xs i : Guarded ε α) = pure x := by
  rw [item, h]

theorem slice_eq {xs : Array α} {start stop : Nat} (h : start ≤ stop) (hstop : stop ≤ xs.size) :
    (slice xs start stop : Guarded ε (Array α)) = pure (xs.extract start stop) := by
  rw [slice, ensure_eq ⟨h, hstop⟩, pure_bind]

end Guarded
end EditHistory
