import EditHistory.Proofs.Guarded.Reader

/-! Reading a body with guards. Each turn of the loop over the edits has to take at least the bits of
an action code, and the loop is given no more turns than the body has bits for. -/
namespace EditHistory

/-- Reading with guards. -/
abbrev GuardedReading := StateT BitReader (Guarded DecodeError)

namespace Guarded

variable {ε α β : Type}

/-! ## Texts -/

/-- Joins bytes two by two from the pair at `i` on. -/
def readPairs (join : UInt8 → UInt8 → UInt16) (bytes : Array UInt8) (i : Nat) : Nat → Guarded ε Text
  | 0 => return []
  | n + 1 => do
    let pair ← slice bytes (2 * i) (2 * i + 2)
    let unit := join (← item pair 0) (← item pair 1)
    return unit :: (← readPairs join bytes (i + 1) n)

def decodeText (charset : Charset) (bytes : Bytes) : Guarded Charset.Fault Text :=
  match charset with
  | .utf8 => of (Charset.utf8.decode bytes)
  | .utf16le =>
    if bytes.length % 2 = 0 then
      readPairs (fun a b => Charset.ofHighLow b a) bytes.toArray 0 (bytes.length / 2)
    else throw (.oddLength bytes.length .utf16le)
  | .utf16be =>
    if bytes.length % 2 = 0 then readPairs Charset.ofHighLow bytes.toArray 0 (bytes.length / 2)
    else throw (.oddLength bytes.length .utf16be)

/-! ## Edits -/

def within (context : Context) (read : BitReader → Guarded BitError (α × BitReader)) :
    GuardedReading α :=
  fun r => (read r).adapt (.truncated context)

def skip : GuardedReading Unit := fun r => do return ((), ← skipToByte r)

/-- A width that is read is one that a header can hold. -/
def readWidth : GuardedReading Nat := do
  let width ← within .header (readBits · Widths.widthBits)
  (ensure (width < 1 <<< Widths.widthBits) : Guarded DecodeError Unit)
  return width

def readWidths : GuardedReading Widths := do
  let marker ← within .header (readBits · Action.bits)
  if marker ≠ Action.header.code then throw (.invalidMarker marker)
  let start ← readWidth
  let length ← readWidth
  let block ← readWidth
  let text ← readWidth
  let _ ← within .header readBit
  return ⟨start, length, block, text⟩

def readField (widths : Widths) (field : Field) : GuardedReading Nat :=
  within .operand (readBits · (widths.get field))

def readText (charset : Charset) (widths : Widths) (index : Nat) : GuardedReading Text := do
  let length ← readField widths .textLength
  let bytes ← within .text (readBytes · length)
  (decodeText charset bytes).adapt (DecodeError.invalidText index)

def readOperands (charset : Charset) (widths : Widths) (index : Nat) :
    Action → GuardedReading (Option (Edit Text))
  | .header => return none
  | .full => return some (.full (← readText charset widths index))
  | .insert => do
    let start ← readField widths .start
    return some (.insert start (← readText charset widths index))
  | .delete => do
    let start ← readField widths .start
    let length ← readField widths .length
    skip
    return some (.delete start length)
  | .replace => do
    let start ← readField widths .start
    let length ← readField widths .length
    return some (.replace start length (← readText charset widths index))
  | .cut => do
    let start ← readField widths .start
    let length ← readField widths .length
    let block ← readField widths .block
    skip
    return some (.cut start length block)
  | .paste => do
    let start ← readField widths .start
    let block ← readField widths .block
    skip
    return some (.paste start block)

def readCoded (charset : Charset) (widths : Widths) (index position code : Nat) :
    GuardedReading (Edit Text) := do
  match Action.ofCode? code with
  | none => throw (.unknownAction code position)
  | some action =>
    match ← readOperands charset widths index action with
    | none => throw (.unknownAction code position)
    | some e => return e

def readEdit (charset : Charset) (widths : Widths) (index : Nat) : GuardedReading (Edit Text) :=
  fun r => (within .action (readBits · Action.bits) >>= readCoded charset widths index r.position) r

def atEnd (r : BitReader) : Guarded ε Bool := do
  if (← remaining r) < Action.bits then return true
  atPadding r

/-- The edits from the one at `index` on, in so many turns at most. -/
def readEdits (charset : Charset) (widths : Widths) : Nat → Nat → BitReader → Guarded DecodeError Patch
  | 0, _, _ => fault
  | turns + 1, index, r => do
    if ← atEnd r then return []
    let (e, next) ← readEdit charset widths index r
    ensure (r.position + Action.bits ≤ next.position)
    return e :: (← readEdits charset widths turns (index + 1) next)

def decode (charset : Charset) (body : Bytes) : Guarded DecodeError (Widths × Patch) := do
  if body.isEmpty then throw .empty
  let (widths, r) ← readWidths.run (BitReader.ofBytes body)
  return (widths, ← readEdits charset widths (body.length * 8 / Action.bits + 1) 0 r)

/-! ## No faults -/

theorem adapt_of {ε' : Type} (f : ε → ε') (x : Except ε α) :
    (of x).adapt f = of (x.mapError f) := by
  cases x <;> rfl

theorem readPairs_eq (join : UInt8 → UInt8 → UInt16) (front rest : Bytes) {i n : Nat}
    (hfront : front.length = 2 * i) (hrest : rest.length = 2 * n) :
    (readPairs join (front ++ rest).toArray i n : Guarded ε Text) = pure (Charset.pairUp join rest) := by
  induction n generalizing front rest i with
  | zero =>
    obtain rfl := List.length_eq_zero_iff.mp hrest
    rfl
  | succ n ih =>
    match rest, hrest with
    | [], hrest => simp at hrest
    | [a], hrest =>
      rw [List.length_singleton] at hrest
      omega
    | a :: b :: rest, hrest =>
      have hmore := ih (front ++ [a, b]) rest (i := i + 1) (by simp [hfront]; omega)
        (by simp only [List.length_cons] at hrest; omega)
      have hpair : (front ++ a :: b :: rest).toArray.extract (2 * i) (2 * i + 2) = #[a, b] := by
        simp [List.extract_eq_take_drop, ← hfront]
      rw [List.append_assoc] at hmore
      rw [readPairs, slice_eq (by omega) (by simp [hfront]), pure_bind, hpair]
      show (readPairs join (front ++ a :: b :: rest).toArray (i + 1) n >>= fun units =>
        pure (join a b :: units)) = _
      have hsplit : front ++ a :: b :: rest = front ++ ([a, b] ++ rest) := rfl
      rw [hsplit, hmore, pure_bind]
      rfl

theorem decodeText_eq (charset : Charset) (bytes : Bytes) :
    decodeText charset bytes = of (charset.decode bytes) := by
  have hpairs (join : UInt8 → UInt8 → UInt16) (heven : bytes.length % 2 = 0) :
      (readPairs join bytes.toArray 0 (bytes.length / 2) : Guarded Charset.Fault Text) =
        pure (Charset.pairUp join bytes) :=
    readPairs_eq join [] bytes rfl (by omega)
  cases charset with
  | utf8 => rfl
  | utf16le =>
    rw [decodeText, Charset.decode]
    split
    · rename_i heven
      rw [hpairs _ heven]
      rfl
    · rfl
  | utf16be =>
    rw [decodeText, Charset.decode]
    split
    · rename_i heven
      rw [hpairs _ heven]
      rfl
    · rfl

end Guarded

theorem BitReader.Steps.bounded {r r' : BitReader} {n : Nat} (h : r.Steps r' n) (hr : r.Bounded) :
    r'.Bounded := ⟨h.inside hr.inside, h.bytes_eq ▸ hr.size_lt⟩

/-- In front of a reader that is bounded the reading with guards comes to no fault, gives what the one
without gives, and leaves a reader that is bounded. -/
def Refines {α : Type} (g : GuardedReading α) (p : Reading α) : Prop :=
  ∀ r, r.Bounded → g r = Guarded.of (p r) ∧ ∀ a r', p r = .ok (a, r') → r'.Bounded

namespace Refines

variable {α β : Type}

theorem pure (a : α) : Refines (Pure.pure a) (Pure.pure a) := by
  intro r h
  refine ⟨rfl, fun a' r' hend => ?_⟩
  obtain ⟨-, rfl⟩ := Reading.pure_eq_ok.mp hend
  exact h

theorem throw (e : DecodeError) :
    Refines (MonadExcept.throw e : GuardedReading α) (MonadExcept.throw e : Reading α) :=
  fun _ _ => ⟨rfl, nofun⟩

theorem bind {g : GuardedReading α} {p : Reading α} {g' : α → GuardedReading β} {p' : α → Reading β}
    (h : Refines g p) (h' : ∀ a, Refines (g' a) (p' a)) : Refines (g >>= g') (p >>= p') := by
  intro r hr
  obtain ⟨heq, hbounded⟩ := h r hr
  constructor
  · show (g r >>= fun x => g' x.1 x.2) = Guarded.of (p r >>= fun x => p' x.1 x.2)
    rw [heq]
    cases hp : p r with
    | error e => rfl
    | ok x => exact (h' x.1 x.2 (hbounded x.1 x.2 hp)).1
  · intro b r' hend
    obtain ⟨a, middle, hp, hrest⟩ := Reading.bind_eq_ok.mp hend
    exact (h' a middle (hbounded a middle hp)).2 b r' hrest

theorem within (context : Context) {g : BitReader → Guarded BitError (α × BitReader)}
    {p : BitReader → Except BitError (α × BitReader)}
    (h : ∀ r : BitReader, r.Bounded → g r = Guarded.of (p r))
    (hsteps : ∀ r a r', p r = .ok (a, r') → ∃ n, r.Steps r' n) :
    Refines (Guarded.within context g) (Reading.within context p) := by
  intro r hr
  constructor
  · show (g r).adapt _ = _
    rw [h r hr, Guarded.adapt_of]
    rfl
  · intro a r' hend
    obtain ⟨n, hn⟩ := hsteps r a r' (mapError_eq_ok.mp hend)
    exact hn.bounded hr

theorem readBits (context : Context) (width : Nat) :
    Refines (Guarded.within context (Guarded.readBits · width))
      (Reading.within context (·.readBits width)) :=
  within context (fun _ hr => Guarded.readBits_eq hr width)
    fun _ _ _ hend => ⟨width, (BitReader.steps_readBits hend).1⟩

theorem readBytes (context : Context) (count : Nat) :
    Refines (Guarded.within context (Guarded.readBytes · count))
      (Reading.within context (·.readBytes count)) :=
  within context (fun _ hr => Guarded.readBytes_eq hr count)
    fun _ _ _ hend => ⟨count * 8, (BitReader.steps_readBytes hend).1⟩

theorem skip : Refines Guarded.skip Reading.skipToByte := by
  intro r hr
  constructor
  · rw [Guarded.skip, Guarded.skipToByte_eq hr]
    rfl
  · intro u r' hend
    exact (Reading.steps_skipToByte hend).bounded hr

variable {charset : Charset} {widths : Widths} {index : Nat}

theorem readText : Refines (Guarded.readText charset widths index) (Body.readText charset widths index) := by
  refine (readBits _ _).bind fun length => (readBytes _ _).bind fun bytes => ?_
  rw [Guarded.decodeText_eq, Guarded.adapt_of]
  cases charset.decode bytes with
  | error fault => exact throw _
  | ok text => exact pure text

theorem readOperands (action : Action) : Refines (Guarded.readOperands charset widths index action)
    (Body.readOperands charset widths index action) := by
  cases action with
  | header => exact pure _
  | full => exact readText.bind fun _ => pure _
  | insert => exact (readBits _ _).bind fun _ => readText.bind fun _ => pure _
  | delete =>
    exact (readBits _ _).bind fun _ => (readBits _ _).bind fun _ => skip.bind fun _ => pure _
  | replace =>
    exact (readBits _ _).bind fun _ => (readBits _ _).bind fun _ => readText.bind fun _ => pure _
  | cut =>
    exact (readBits _ _).bind fun _ => (readBits _ _).bind fun _ => (readBits _ _).bind fun _ =>
      skip.bind fun _ => pure _
  | paste =>
    exact (readBits _ _).bind fun _ => (readBits _ _).bind fun _ => skip.bind fun _ => pure _

theorem readCoded (position code : Nat) : Refines
    (Guarded.readCoded charset widths index position code)
    (Body.readCoded charset widths index position code) := by
  unfold Guarded.readCoded Body.readCoded
  cases Action.ofCode? code with
  | none => exact throw _
  | some action =>
    refine (readOperands action).bind fun e => ?_
    cases e with
    | none => exact throw _
    | some e => exact pure e

theorem readEdit : Refines (Guarded.readEdit charset widths index) (Body.readEdit charset widths index) :=
  fun r hr => ((readBits _ _).bind fun _ => readCoded r.position _) r hr

theorem readWidth : Refines Guarded.readWidth
    (Reading.within .header (·.readBits Widths.widthBits)) := by
  intro r hr
  obtain ⟨heq, hbounded⟩ := readBits .header Widths.widthBits r hr
  refine ⟨?_, hbounded⟩
  show (Guarded.within .header (Guarded.readBits · Widths.widthBits) r >>= _) = _
  rw [heq]
  cases hread : Reading.within .header (·.readBits Widths.widthBits) r with
  | error e => rfl
  | ok x =>
    have hlt : x.1 < 1 <<< Widths.widthBits := (Reading.steps_readBits hread).2
    show ((Guarded.ensure (x.1 < 1 <<< Widths.widthBits) >>= fun u => Pure.pure (u, x.2)) >>=
      fun y => Pure.pure (x.1, y.2)) = _
    rw [Guarded.ensure_eq hlt]
    rfl

theorem readWidths : Refines Guarded.readWidths Widths.read := by
  have hbit : Refines (Guarded.within .header Guarded.readBit) (Reading.within .header (·.readBit)) :=
    within .header (fun _ hr => Guarded.readBit_eq hr) fun _ _ _ hend =>
      ⟨1, BitReader.steps_readBit hend⟩
  refine (readBits _ _).bind fun marker => ?_
  by_cases hmarker : marker ≠ Action.header.code
  · simp only [if_pos hmarker]
    exact throw _
  · simp only [if_neg hmarker]
    exact readWidth.bind fun _ => readWidth.bind fun _ => readWidth.bind fun _ =>
      readWidth.bind fun _ => hbit.bind fun _ => pure _

end Refines

namespace Guarded

variable {ε : Type} {charset : Charset} {widths : Widths} {index : Nat} {r r' : BitReader}

theorem atEnd_eq (h : r.Bounded) : (atEnd r : Guarded ε Bool) = pure (Body.atEnd r) := by
  rw [atEnd, remaining_eq h, pure_bind, Body.atEnd]
  by_cases hshort : r.remaining < Action.bits
  · simp [hshort]
  · simp [hshort, atPadding_eq h]

/-- Every turn takes three bits of those that are left, so the loop comes to its end in the turns that
it is given. -/
theorem readEdits_eq (h : r.Bounded) {turns : Nat} (hturns : r.remaining < Action.bits * (turns + 1)) :
    readEdits charset widths (turns + 1) index r = of (Body.readEdits charset widths index r) := by
  have hopen {index : Nat} {r : BitReader} {turns : Nat} (h : r.Bounded) (hmore : ¬ Body.atEnd r) :
      readEdits charset widths (turns + 1) index r =
        of (Body.readEdit charset widths index r) >>= fun x => do
          ensure (r.position + Action.bits ≤ x.2.position)
          return x.1 :: (← readEdits charset widths turns (index + 1) x.2) := by
    have hfalse : Body.atEnd r = false := by simpa using hmore
    rw [readEdits, atEnd_eq h, hfalse, ← (Refines.readEdit r h).1]
    rfl
  fun_induction Body.readEdits charset widths index r generalizing turns with
  | case1 index r hend =>
    rw [readEdits, atEnd_eq h, hend]
    rfl
  | case2 index r hmore e he =>
    rw [hopen h hmore, he]
    rfl
  | case3 index r hmore e r' he hless ih =>
    obtain ⟨hbytes, htaken⟩ := Body.position_of_readEdit he
    have hbounded : r'.Bounded := (Refines.readEdit r h).2 e r' he
    -- before the end there is room for an action code, so three bits go off what is left
    have hleft : Action.bits ≤ r.remaining := by
      simp only [Body.atEnd, Bool.or_eq_true, decide_eq_true_eq, not_or, Nat.not_lt] at hmore
      exact hmore.1
    have hrest : r'.remaining < Action.bits * turns := by
      rw [Nat.mul_succ] at hturns
      rw [BitReader.remaining] at hleft hturns ⊢
      rw [hbytes]
      omega
    cases turns with
    | zero => exact absurd hrest (Nat.not_lt_zero _)
    | succ turns =>
      rw [hopen h hmore, he, ← of_bind]
      show (ensure (r.position + Action.bits ≤ r'.position) >>= fun _ => _) = _
      rw [ensure_eq htaken, pure_bind, ih hbounded hrest]
      rfl

theorem decode_eq (charset : Charset) {body : Bytes} (hbody : body.length < 1 <<< 61) :
    decode charset body = of (Body.decode charset body) := by
  have hstart : (BitReader.ofBytes body).Bounded :=
    ⟨BitReader.inside_ofBytes body, by simpa [BitReader.ofBytes] using hbody⟩
  obtain ⟨hread, hbounded⟩ := Refines.readWidths _ hstart
  rw [decode, Body.decode]
  by_cases hempty : body.isEmpty
  · rw [if_pos hempty, if_pos hempty]
    rfl
  · rw [if_neg hempty, if_neg hempty, ← of_bind]
    show (readWidths (BitReader.ofBytes body) >>= _) = (of (Widths.read (BitReader.ofBytes body)) >>= _)
    rw [hread]
    cases hwidths : Widths.read (BitReader.ofBytes body) with
    | error e => rfl
    | ok x =>
      have hturns : x.2.remaining < Action.bits * (body.length * 8 / Action.bits + 1) := by
        have hsize : x.2.bytes.size = body.length := by
          rw [(Body.steps_readWidths hwidths).2.bytes_eq]
          simp [BitReader.ofBytes]
        rw [BitReader.remaining, hsize, Action.bits]
        omega
      show (readEdits charset x.1 (body.length * 8 / Action.bits + 1) 0 x.2 >>= _) =
        of (Body.readEdits charset x.1 0 x.2 >>= fun patch => Except.ok (x.1, patch))
      rw [readEdits_eq (hbounded x.1 x.2 hwidths) hturns, ← of_bind]
      rfl

end Guarded
end EditHistory
