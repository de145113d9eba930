import EditHistory.Patch.Basic

/-! The action codes in front of the header and of every edit. -/
namespace EditHistory

inductive Action where
  | header
  | full
  | insert
  | delete
  | replace
  | cut
  | paste
deriving DecidableEq, Repr

namespace Action

/-- The width of a code. -/
def bits : Nat := 3

def all : List Action := [.header, .full, .insert, .delete, .replace, .cut, .paste]

def code : Action → Nat
  | .header => 0
  | .full => 1
  | .insert => 2
  | .delete => 3
  | .replace => 4
  | .cut => 5
  | .paste => 6

def ofCode? (code : Nat) : Option Action := all.find? (·.code == code)

theorem ofCode?_code (a : Action) : ofCode? a.code = some a := by cases a <;> rfl

def name : Action → String
  | .header => "CODEC"
  | .full => "FULL"
  | .insert => "INSERT"
  | .delete => "DELETE"
  | .replace => "REPLACE"
  | .cut => "CUT"
  | .paste => "PASTE"

end Action

/-- The action that an edit is written under. -/
def Edit.action {τ : Type} : Edit τ → Action
  | .full _ => .full
  | .insert .. => .insert
  | .delete .. => .delete
  | .replace .. => .replace
  | .cut .. => .cut
  | .paste .. => .paste

end EditHistory
