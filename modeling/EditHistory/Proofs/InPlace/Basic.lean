import EditHistory.Proofs.Guarded.Basic
import EditHistory.Wire.Bits

/-! Computations that change a state in place. An error comes up in the state that has been reached by
then, and nothing is taken back for it; that a call which fails leaves the state as it was is a
property of the call. -/
namespace EditHistory

/-- A computation on a state that stays behind whatever the outcome is. A fault has none. -/
abbrev InPlace (σ ε α : Type) := ExceptT ε (StateT σ Option) α

namespace InPlace

variable {σ τ ε α β γ : Type} {s s' : σ}

/-- A computation that does not touch the state. -/
def guarded (x : Guarded ε α) : InPlace σ ε α := fun s => Option.map (fun answer => (answer, s)) x

/-- A step that leaves the state as it was where it fails. -/
def step (f : σ → Except ε (α × σ)) : InPlace σ ε α := fun s =>
  match f s with
  | .ok (a, s') => some (.ok a, s')
  | .error e => some (.error e, s)

theorem get_bind (f : σ → InPlace σ ε α) (s : σ) : (get >>= f) s = f s s := rfl

theorem set_bind (f : PUnit → InPlace σ ε α) (s s' : σ) : (set s' >>= f) s = f ⟨⟩ s' := rfl

theorem guarded_bind {x : Guarded ε α} {a : α} (h : x = pure a) (f : α → InPlace σ ε β) (s : σ) :
    (guarded x >>= f) s = f a s := by
  rw [h]
  rfl

theorem bind_of_ok {x : InPlace σ ε α} {a : α} (h : x s = some (.ok a, s')) (f : α → InPlace σ ε β) :
    (x >>= f) s = f a s' := by
  show (x s >>= _) = _
  rw [h]
  rfl

theorem bind_of_error {x : InPlace σ ε α} {e : ε} (h : x s = some (.error e, s'))
    (f : α → InPlace σ ε β) : (x >>= f) s = some (.error e, s') := by
  show (x s >>= _) = _
  rw [h]
  rfl

theorem tryCatch_of_ok {x : InPlace σ ε α} {a : α} (h : x s = some (.ok a, s'))
    (f : ε → InPlace σ ε α) : (tryCatch x f) s = some (.ok a, s') := by
  show (x s >>= _) = _
  rw [h]
  rfl

theorem step_of_ok {f : σ → Except ε (α × σ)} {a : α} (h : f s = .ok (a, s')) :
    step f s = some (.ok a, s') := by
  rw [step, h]

theorem step_of_error {f : σ → Except ε (α × σ)} {e : ε} (h : f s = .error e) :
    step f s = some (.error e, s) := by
  rw [step, h]

/-- What is made of the answer afterwards. -/
theorem bind_pure_of_step {x : InPlace σ ε α} {f : σ → Except ε (α × σ)} (h : x s = step f s)
    (g : α → β) : (x >>= fun a => pure (g a)) s = step (fun s => (f s).map fun y => (g y.1, y.2)) s := by
  cases hf : f s with
  | ok y =>
    rw [step_of_ok hf] at h
    rw [bind_of_ok h, step, hf]
    rfl
  | error e =>
    rw [step_of_error hf] at h
    rw [bind_of_error h, step, hf]
    rfl

theorem eq_of_step_error {f : σ → Except ε (α × σ)} {e : ε} (h : step f s = some (.error e, s')) :
    s' = s := by
  cases hf : f s with
  | ok x =>
    rw [step_of_ok hf] at h
    cases h
  | error e' =>
    rw [step_of_error hf] at h
    obtain ⟨-, rfl⟩ := Prod.mk.inj (Option.some.inj h)
    rfl

end InPlace

/-- Something that answers calls in place, and the bits that it has behind it. -/
structure Machine (σ α β : Type) where
  call : α → InPlace σ BitError β
  position : σ → Nat

namespace Machine

variable {σ τ α β : Type} {m : Machine σ α β} {m' : Machine τ α β}

/-- The answers to calls one after the other, errors among them, each with the position behind it. -/
def log (m : Machine σ α β) : List α → σ → Option (List (Except BitError β × Nat) × σ)
  | [], s => some ([], s)
  | a :: as, s => do
    let (answer, s) ← m.call a s
    let (rest, last) ← m.log as s
    return ((answer, m.position s) :: rest, last)

/-- From the states in which `P` holds, and as long as it does, `m'` goes through the images of the states
of `m` and gives the same answers. -/
structure Follows (m' : Machine τ α β) (m : Machine σ α β) (P : σ → Prop) (f : σ → τ) : Prop where
  position_eq : ∀ s, m'.position (f s) = m.position s
  call_eq : ∀ a s, P s → ∃ answer s', P s' ∧ m.call a s = some (answer, s') ∧
    m'.call a (f s) = some (answer, f s')

theorem log_cons {a : α} {answer : Except BitError β} {s s' : σ} (h : m.call a s = some (answer, s'))
    (calls : List α) : m.log (a :: calls) s =
      (m.log calls s').map fun x => ((answer, m.position s') :: x.1, x.2) := by
  simp only [Machine.log, h, Option.bind_eq_bind, Option.bind_some]
  cases m.log calls s' <;> rfl

variable {P : σ → Prop} {f : σ → τ} {s last : σ} {log : List (Except BitError β × Nat)}

theorem Follows.exists_log (h : m'.Follows m P f) (calls : List α) (hs : P s) :
    ∃ log last, P last ∧ m.log calls s = some (log, last) ∧
      m'.log calls (f s) = some (log, f last) := by
  induction calls generalizing s with
  | nil => exact ⟨[], s, hs, rfl, rfl⟩
  | cons a calls ih =>
    obtain ⟨answer, next, hnext, hcall, hcall'⟩ := h.call_eq a s hs
    obtain ⟨log, last, hlast, hlog, hlog'⟩ := ih hnext
    refine ⟨(answer, m.position next) :: log, last, hlast, ?_, ?_⟩
    · rw [log_cons hcall, hlog]
      rfl
    · rw [log_cons hcall', hlog', h.position_eq]
      rfl

theorem Follows.log_eq (h : m'.Follows m P f) {calls : List α} (hs : P s)
    (hlog : m.log calls s = some (log, last)) : m'.log calls (f s) = some (log, f last) := by
  obtain ⟨log', last', -, hlog', hfollow⟩ := h.exists_log calls hs
  rw [hlog] at hlog'
  obtain ⟨rfl, rfl⟩ := Prod.mk.inj (Option.some.inj hlog')
  exact hfollow

end Machine
end EditHistory
