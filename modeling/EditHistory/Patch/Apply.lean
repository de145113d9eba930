import EditHistory.Patch.Basic

/-! Applying a patch. A single cursor runs forward through the previous text: an edit on the source
side copies what lies in front of its range and steps over the range, an edit on the target side
copies until the output reaches its position. Cut ranges are looked up in advance, because a block
may be pasted before the cut that takes it out of its old place. -/
namespace EditHistory

inductive ApplyError where
  | outOfBounds (start length textLength : Nat)
  | sourceBehindCursor (start cursor : Nat)
  | targetBehindOutput (start outputLength : Nat)
  | unknownBlock (block : Nat)
  | duplicateBlock (block : Nat)
deriving DecidableEq, Repr

def ApplyError.message : ApplyError → String
  | .outOfBounds start length textLength =>
    s!"range {start}+{length} exceeds previous text of {textLength} units"
  | .sourceBehindCursor start cursor => s!"source offset {start} lies behind cursor {cursor}"
  | .targetBehindOutput start outputLength =>
    s!"target offset {start} lies behind output length {outputLength}"
  | .unknownBlock block => s!"paste references unknown block {block}"
  | .duplicateBlock block => s!"block {block} is cut more than once"

namespace Patch

def checkRange (start length textLength : Nat) : Except ApplyError Unit :=
  if start + length ≤ textLength then .ok ()
  else .error (.outOfBounds start length textLength)

abbrev Clipboard := List (Nat × Text)

/-- Adds the cut ranges of a patch to a clipboard. -/
def addCuts (previous : Text) : Clipboard → Patch → Except ApplyError Clipboard
  | clips, [] => .ok clips
  | clips, .cut start length block :: rest => do
    checkRange start length previous.length
    if (clips.lookup block).isSome then throw (.duplicateBlock block)
    addCuts previous ((block, previous.segment start length) :: clips) rest
  | clips, _ :: rest => addCuts previous clips rest

/-- The output so far and how much of the previous text it has used up. -/
structure Rebuild where
  cursor : Nat
  output : Array UInt16

namespace Rebuild

def start : Rebuild := ⟨0, #[]⟩

/-- Copies the previous text up to a source position. -/
def copyTo (previous : Array UInt16) (position : Nat) (r : Rebuild) : Rebuild :=
  ⟨position, r.output ++ previous.extract r.cursor position⟩

def write (text : Text) (r : Rebuild) : Rebuild := ⟨r.cursor, r.output ++ text⟩

/-- Copies up to a source range, then steps over it. -/
def skip (previous : Array UInt16) (start length : Nat) (r : Rebuild) :
    Except ApplyError Rebuild := do
  checkRange start length previous.size
  if start < r.cursor then throw (.sourceBehindCursor start r.cursor)
  return ⟨start + length, (r.copyTo previous start).output⟩

/-- Copies until the output is `target` units long. -/
def fillTo (previous : Array UInt16) (target : Nat) (r : Rebuild) : Except ApplyError Rebuild := do
  if target < r.output.size then throw (.targetBehindOutput target r.output.size)
  let need := target - r.output.size
  checkRange r.cursor need previous.size
  return r.copyTo previous (r.cursor + need)

def step (previous : Array UInt16) (clips : Clipboard) (r : Rebuild) :
    Edit Text → Except ApplyError Rebuild
  | .full text => .ok ⟨previous.size, text.toArray⟩
  | .insert start text => return (← r.fillTo previous start).write text
  | .delete start length | .cut start length _ => r.skip previous start length
  | .replace start length text => return (← r.skip previous start length).write text
  | .paste start block =>
    match clips.lookup block with
    | none => .error (.unknownBlock block)
    | some text => return (← r.fillTo previous start).write text

/-- The output once the rest of the previous text is copied. -/
def finish (previous : Array UInt16) (r : Rebuild) : Text :=
  (r.copyTo previous previous.size).output.toList

end Rebuild

/-- The text that a patch makes of the previous one. -/
def apply (patch : Patch) (previous : Text) : Except ApplyError Text := do
  let clips ← addCuts previous [] patch
  let units := previous.toArray
  let r ← patch.foldlM (Rebuild.step units clips) Rebuild.start
  return r.finish units

end Patch
end EditHistory
