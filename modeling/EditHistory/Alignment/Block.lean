import EditHistory.Text.Basic

/-! Blocks: two texts cut into ranges, some of them common to both. A matched block carries a
number that it shares with its counterpart in the other text. -/
namespace EditHistory

/-- A range of a text; it stops no sooner than it starts. -/
structure Block where
  start : Nat
  stop : Nat
  /-- The number of a matched block. -/
  id : Option Nat
deriving DecidableEq, Repr

namespace Block

def length (b : Block) : Nat := b.stop - b.start

def units (b : Block) (t : Text) : Text := t.segment b.start b.length

end Block

/-- Two texts cut into blocks, in order of position; the matched ones are numbered from zero. -/
structure Alignment where
  previous : List Block
  current : List Block
  matched : Nat
deriving DecidableEq, Repr

/-- A range of the previous text and an equally long one of the current text. -/
structure Match where
  previous : Nat
  current : Nat
  length : Nat
deriving DecidableEq, Repr

namespace Match

def previousBlock (m : Match) (id : Nat) : Block := ⟨m.previous, m.previous + m.length, some id⟩
def currentBlock (m : Match) (id : Nat) : Block := ⟨m.current, m.current + m.length, some id⟩

end Match

namespace Block

/-- An unmatched block, unless the range is empty. -/
def gap (start stop : Nat) : List Block := if start < stop then [⟨start, stop, none⟩] else []

/-- Puts unmatched blocks between sorted blocks, so that they cover the text from `start` to `stop`. -/
def fill (start stop : Nat) : List Block → List Block
  | [] => gap start stop
  | b :: rest => gap start b.start ++ b :: fill b.stop stop rest

end Block

/-- The blocks of two texts of the given lengths that a list of matches leads to. -/
def Alignment.ofMatches (previousLength currentLength : Nat) (found : List Match) : Alignment :=
  let sorted (blocks : List Block) : List Block := blocks.mergeSort fun x y => x.start ≤ y.start
  { previous := Block.fill 0 previousLength (sorted (found.mapIdx fun id m => m.previousBlock id))
    current := Block.fill 0 currentLength (sorted (found.mapIdx fun id m => m.currentBlock id))
    matched := found.length }

end EditHistory
