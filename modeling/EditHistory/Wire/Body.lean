import EditHistory.Wire.Widths

/-! The body of a payload: a header, then every edit as an action code, its fields at the widths of
the header, and its text. An edit without text ends at a byte boundary; what is left of the last
byte is zero, and as no edit has the action code zero that is never taken for one. -/
namespace EditHistory

namespace Edit

variable {τ : Type}

/-- The fields that are not the length of a text, in the order in which they are written. -/
def operands : Edit τ → List (Field × Nat)
  | .full _ => []
  | .insert start _ => [(.start, start)]
  | .delete start length | .replace start length _ => [(.start, start), (.length, length)]
  | .cut start length block => [(.start, start), (.length, length), (.block, block)]
  | .paste start block => [(.start, start), (.block, block)]

def textLength (e : Edit Bytes) : List (Field × Nat) :=
  e.text?.toList.map fun t => (.textLength, t.length)

/-- Replaces the text that an edit carries. -/
def mapText? {σ : Type} (f : τ → Option σ) : Edit τ → Option (Edit σ)
  | .full t => return .full (← f t)
  | .insert start t => return .insert start (← f t)
  | .delete start length => return .delete start length
  | .replace start length t => return .replace start length (← f t)
  | .cut start length block => return .cut start length block
  | .paste start block => return .paste start block

end Edit

namespace Body

/-- Widens every field of an edit as far as it needs, the length of its text first. -/
def observe (widths : Widths) (e : Edit Bytes) : Except EncodeError Widths :=
  (e.textLength ++ e.operands).foldlM (fun w f => w.observe f.1 f.2) widths

/-- Puts the texts of edits into a charset and finds the widths that the edits need. -/
def prepareFrom (charset : Charset) (index : Nat) (widths : Widths) :
    Patch → Except EncodeError (Widths × List (Edit Bytes))
  | [] => .ok (widths, [])
  | e :: rest =>
    match e.mapText? charset.encode with
    | none => .error (.unencodableText index charset)
    | some e => do
      let widths ← observe widths e
      let (widths, es) ← prepareFrom charset (index + 1) widths rest
      return (widths, e :: es)

def prepare (charset : Charset) (patch : Patch) : Except EncodeError (Widths × List (Edit Bytes)) :=
  prepareFrom charset 0 Widths.zero patch

/-- The widths of the fields of a patch. -/
def widths (charset : Charset) (patch : Patch) : Except EncodeError Widths :=
  return (← prepare charset patch).1

def writeEdit (widths : Widths) (out : BitWriter) (e : Edit Bytes) : Except BitError BitWriter := do
  let out ← out.writeBits e.action.code Action.bits
  let out ← (e.operands ++ e.textLength).foldlM
    (fun out f => out.writeBits f.2 (widths.get f.1)) out
  return match e.text? with
    | some t => out.writeBytes t
    | none => out.padToByte

def write (widths : Widths) (es : List (Edit Bytes)) : Except BitError Bytes := do
  let out ← widths.write BitWriter.empty
  return (← es.foldlM (writeEdit widths) out).finish

def encode (charset : Charset) (patch : Patch) : Except EncodeError Bytes := do
  let (widths, es) ← prepare charset patch
  (write widths es).mapError .bits

def readField (widths : Widths) (field : Field) : Reading Nat :=
  Reading.within .operand (·.readBits (widths.get field))

/-- Reads the text of the edit at `index`. -/
def readText (charset : Charset) (widths : Widths) (index : Nat) : Reading Text := do
  let length ← readField widths .textLength
  let bytes ← Reading.within .text (·.readBytes length)
  match charset.decode bytes with
  | .ok text => return text
  | .error fault => throw (.invalidText index fault)

/-- Reads what follows an action code. -/
def readOperands (charset : Charset) (widths : Widths) (index : Nat) :
    Action → Reading (Option (Edit Text))
  | .header => return none
  | .full => return some (.full (← readText charset widths index))
  | .insert => do
    let start ← readField widths .start
    return some (.insert start (← readText charset widths index))
  | .delete => do
    let start ← readField widths .start
    let length ← readField widths .length
    Reading.skipToByte
    return some (.delete start length)
  | .replace => do
    let start ← readField widths .start
    let length ← readField widths .length
    return some (.replace start length (← readText charset widths index))
  | .cut => do
    let start ← readField widths .start
    let length ← readField widths .length
    let block ← readField widths .block
    Reading.skipToByte
    return some (.cut start length block)
  | .paste => do
    let start ← readField widths .start
    let block ← readField widths .block
    Reading.skipToByte
    return some (.paste start block)

/-- Reads what follows the action code at a position. -/
def readCoded (charset : Charset) (widths : Widths) (index position code : Nat) :
    Reading (Edit Text) := do
  match Action.ofCode? code with
  | none => throw (.unknownAction code position)
  | some action =>
    match ← readOperands charset widths index action with
    | none => throw (.unknownAction code position)
    | some e => return e

/-- Reads the edit at `index`. -/
def readEdit (charset : Charset) (widths : Widths) (index : Nat) : Reading (Edit Text) := fun r =>
  (Reading.within .action (·.readBits Action.bits) >>= readCoded charset widths index r.position) r

/-- A successful read stays in the same bytes and never goes back. -/
def Forward {α : Type} (read : Reading α) : Prop :=
  ∀ r a r', read r = .ok (a, r') → r'.bytes = r.bytes ∧ r.position ≤ r'.position

namespace Forward

theorem pure {α : Type} (a : α) : Forward (Pure.pure a : Reading α) := by
  intro r a' r' h
  cases h
  exact ⟨rfl, Nat.le_refl _⟩

theorem throw {α : Type} (e : DecodeError) : Forward (MonadExcept.throw e : Reading α) := by
  intro r a' r' h
  cases h

theorem bind {α β : Type} {p : Reading α} {f : α → Reading β} (hp : Forward p)
    (hf : ∀ a, Forward (f a)) : Forward (p >>= f) := by
  intro r b r' h
  simp only [Bind.bind, StateT.bind] at h
  cases hr : p r with
  | error e => rw [hr] at h; cases h
  | ok x =>
    rw [hr] at h
    have h₁ := hp r x.1 x.2 hr
    have h₂ := hf x.1 x.2 b r' h
    exact ⟨h₂.1.trans h₁.1, Nat.le_trans h₁.2 h₂.2⟩

theorem skipToByte : Forward Reading.skipToByte := by
  intro r a r' h
  cases h
  refine ⟨rfl, ?_⟩
  simp only [BitReader.skipToByte]
  omega

theorem readBits (context : Context) (width : Nat) :
    Forward (Reading.within context (·.readBits width)) := by
  intro r a r' h
  simp only [Reading.within, BitReader.readBits] at h
  split at h
  · cases h
  · split at h
    · cases h
    · cases h
      exact ⟨rfl, Nat.le_add_right _ _⟩

theorem readBytes (context : Context) (count : Nat) :
    Forward (Reading.within context (·.readBytes count)) := by
  intro r a r' h
  simp only [Reading.within, BitReader.readBytes] at h
  split at h
  · cases h
  · cases h
    exact ⟨rfl, Nat.le_add_right _ _⟩

theorem readText (charset : Charset) (widths : Widths) (index : Nat) :
    Forward (readText charset widths index) := by
  refine (readBits _ _).bind fun length => (readBytes _ _).bind fun bytes => ?_
  split
  · exact pure _
  · exact throw _

theorem readOperands (charset : Charset) (widths : Widths) (index : Nat) (action : Action) :
    Forward (readOperands charset widths index action) := by
  cases action with
  | header => exact pure _
  | full => exact (readText _ _ _).bind fun _ => pure _
  | insert => exact (readBits _ _).bind fun _ => (readText _ _ _).bind fun _ => pure _
  | delete =>
    exact (readBits _ _).bind fun _ => (readBits _ _).bind fun _ => skipToByte.bind fun _ => pure _
  | replace =>
    exact (readBits _ _).bind fun _ => (readBits _ _).bind fun _ =>
      (readText _ _ _).bind fun _ => pure _
  | cut =>
    exact (readBits _ _).bind fun _ => (readBits _ _).bind fun _ => (readBits _ _).bind fun _ =>
      skipToByte.bind fun _ => pure _
  | paste =>
    exact (readBits _ _).bind fun _ => (readBits _ _).bind fun _ => skipToByte.bind fun _ => pure _

theorem readCoded (charset : Charset) (widths : Widths) (index position code : Nat) :
    Forward (readCoded charset widths index position code) := by
  unfold Body.readCoded
  split
  · exact throw _
  · refine (readOperands _ _ _ _).bind fun e => ?_
    split
    · exact throw _
    · exact pure _

end Forward

/-- Reading an edit takes at least the bits of its action code. -/
theorem position_of_readEdit {charset : Charset} {widths : Widths} {index : Nat} {r r' : BitReader}
    {e : Edit Text} (h : readEdit charset widths index r = .ok (e, r')) :
    r'.bytes = r.bytes ∧ r.position + Action.bits ≤ r'.position := by
  simp only [readEdit, Bind.bind, StateT.bind] at h
  cases hc : Reading.within Context.action (·.readBits Action.bits) r with
  | error err => rw [hc] at h; cases h
  | ok x =>
    rw [hc] at h
    have hx : x.2 = ⟨r.bytes, r.position + Action.bits⟩ := by
      simp only [Reading.within, BitReader.readBits] at hc
      split at hc
      · cases hc
      · split at hc
        · cases hc
        · cases hc
          rfl
    have := Forward.readCoded _ _ _ _ _ x.2 e r' h
    simpa [hx] using this

/-- Nothing is left but the zeros at the end. -/
def atEnd (r : BitReader) : Bool := r.remaining < Action.bits || r.atPadding

theorem remaining_lt_of_readEdit {charset : Charset} {widths : Widths} {index : Nat}
    {r r' : BitReader} {e : Edit Text} (h : ¬ atEnd r)
    (he : readEdit charset widths index r = .ok (e, r')) : r'.remaining < r.remaining := by
  have hp := position_of_readEdit he
  have hr : Action.bits ≤ r.remaining := by
    simp only [atEnd, Bool.or_eq_true, decide_eq_true_eq, not_or, Nat.not_lt] at h
    exact h.1
  simp only [BitReader.remaining, Action.bits, hp.1] at *
  omega

/-- The edits from the one at `index` on. Each takes at least the bits of its action code. -/
def readEdits (charset : Charset) (widths : Widths) (index : Nat) (r : BitReader) :
    Except DecodeError Patch :=
  if h : atEnd r then .ok []
  else
    match he : readEdit charset widths index r with
    | .error e => .error e
    | .ok (e, r') =>
      have := remaining_lt_of_readEdit h he
      return e :: (← readEdits charset widths (index + 1) r')
termination_by r.remaining

/-- Reads a whole body: its widths and its edits. -/
def decode (charset : Charset) (body : Bytes) : Except DecodeError (Widths × Patch) := do
  if body.isEmpty then throw .empty
  let (widths, r) ← Widths.read.run (BitReader.ofBytes body)
  return (widths, ← readEdits charset widths 0 r)

end Body
end EditHistory
