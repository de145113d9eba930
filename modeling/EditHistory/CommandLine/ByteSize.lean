import EditHistory.Text.Blank
import EditHistory.Text.Decimal

/-! Byte sizes on the command line: a numeral and an optional suffix for a power of 1024. -/
namespace EditHistory
namespace ByteSize

inductive Fault where
  | empty
  | invalid (text : List Char) (fault : Decimal.Fault)
  | overflow (text : List Char)
deriving DecidableEq, Repr

def Fault.message : Fault → String
  | .empty => "empty size string"
  | .invalid text fault => s!"invalid size '{String.ofList text}': {fault.message}"
  | .overflow text => s!"size overflow: '{String.ofList text}'"

/-- The factor of a suffix. -/
def factor? (c : Char) : Option Nat :=
  if c = 'k' || c = 'K' then some 1024
  else if c = 'm' || c = 'M' then some (1024 * 1024)
  else if c = 'g' || c = 'G' then some (1024 * 1024 * 1024)
  else none

/-- The numeral and the factor that its suffix stands for. -/
def splitSuffix (text : List Char) : List Char × Nat :=
  match text.getLast?.bind factor? with
  | some factor => (text.dropLast, factor)
  | none => (text, 1)

/-- Reads a size; white space around it and in front of its suffix does not count. -/
def read (s : List Char) : Except Fault Nat :=
  let text := trim s
  if text.isEmpty then .error .empty
  else
    let (numeral, factor) := splitSuffix text
    match Decimal.read (trim numeral) with
    | .error fault => .error (.invalid text fault)
    | .ok n => if n * factor < Decimal.wordLimit then .ok (n * factor) else .error (.overflow text)

end ByteSize
end EditHistory
