import EditHistory.Text.Basic

/-! Patches: the edits that turn one text into the next. Edits on the source side name ranges of
the previous text, edits on the target side name positions of the text being built. -/
namespace EditHistory

/-- One edit. `τ` is what it carries as text: code units, or their bytes in some charset. -/
inductive Edit (τ : Type) where
  /-- The whole new text. -/
  | full (text : τ)
  /-- New text at a target position. -/
  | insert (start : Nat) (text : τ)
  /-- A source range that goes away. -/
  | delete (start length : Nat)
  /-- A source range that gives way to new text. -/
  | replace (start length : Nat) (text : τ)
  /-- A source range that moves: it goes away here and is pasted elsewhere. -/
  | cut (start length block : Nat)
  /-- The units of a cut range at a target position. -/
  | paste (start block : Nat)
deriving DecidableEq, Repr

abbrev Patch := List (Edit Text)

namespace Edit

variable {τ : Type}

def isFull : Edit τ → Bool
  | .full _ => true
  | _ => false

/-- The text an edit carries. -/
def text? : Edit τ → Option τ
  | .full t | .insert _ t | .replace _ _ t => some t
  | .delete .. | .cut .. | .paste .. => none

/-- The number of text units that the edit stores. -/
def storedUnits (e : Edit Text) : Nat := (e.text?.getD []).length

end Edit
end EditHistory
