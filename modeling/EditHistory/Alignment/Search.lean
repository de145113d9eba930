import Std.Data.HashMap
import EditHistory.Alignment.Block

/-! The search for common blocks. The common end and then the common start of two texts are
matched first. What lies between is scanned from left to right in the current text: at each
position the longest extension over all free positions of the previous text with the same unit
becomes a match if it is longer than the threshold. No block boundary splits a surrogate pair. -/
namespace EditHistory
namespace Alignment

/-- The boundary in front of unit `i` separates the halves of a surrogate pair. -/
def splitsPairAt (units : Array UInt16) : Nat → Bool
  | 0 => false
  | i + 1 => Text.isHigh (units.getD i 0) && Text.isLow (units.getD (i + 1) 0)

theorem splitsPairAt_toArray (t : Text) (i : Nat) :
    splitsPairAt t.toArray i = t.splitsPair i := by
  cases i with
  | zero => rfl
  | succ i =>
    simp only [splitsPairAt, Text.splitsPair, Array.getD_eq_getD_getElem?, List.getElem?_toArray]
    cases h : t[i + 1]? with
    | none =>
      have hl : Text.isLow 0 = false := by decide
      simp [hl]
    | some l =>
      have hi : i < t.length := by
        have := (List.getElem?_eq_some_iff.1 h).1
        omega
      simp [List.getElem?_eq_getElem hi]

/-- The two texts and the middle ranges in which matches are looked for. -/
structure Middle where
  previous : Array UInt16
  current : Array UInt16
  previousStart : Nat
  previousStop : Nat
  currentStart : Nat
  currentStop : Nat
  previousStop_le : previousStop ≤ previous.size
  currentStop_le : currentStop ≤ current.size

namespace Middle

variable (m : Middle)

/-- Units `i` and `j` can belong to one match: both lie in the middle, agree, and `i` is free. -/
def agrees (used : Array Bool) (i j : Nat) : Bool :=
  if h : i < m.previousStop ∧ j < m.currentStop then
    have := m.previousStop_le
    have := m.currentStop_le
    !used.getD i false && m.previous[i] == m.current[j]
  else false

theorem lt_of_agrees {used : Array Bool} {i j : Nat} (h : m.agrees used i j) :
    i < m.previousStop ∧ j < m.currentStop := by
  unfold agrees at h
  split at h
  · assumption
  · simp at h

/-- How far the texts agree from `i` and `j` on. -/
def run (used : Array Bool) (i j : Nat) : Nat :=
  if h : m.agrees used i j then
    have := m.lt_of_agrees h
    run used (i + 1) (j + 1) + 1
  else 0
termination_by m.previousStop - i

/-- A boundary behind `length` units from `i` and `j` splits no pair of either text. -/
def splits (i j length : Nat) : Bool :=
  splitsPairAt m.previous (i + length) || splitsPairAt m.current (j + length)

/-- The longest part of a run that ends at no split pair. -/
def trimmed (i j : Nat) : Nat → Nat
  | 0 => 0
  | n + 1 => if m.splits i j (n + 1) then trimmed i j n else n + 1

def extension (used : Array Bool) (i j : Nat) : Nat := m.trimmed i j (m.run used i j)

/-- The position and length of the best extension so far. -/
abbrev Best := Nat × Nat

/-- Tries the candidate position `i`. Only one that agrees just behind the best length can do better. -/
def consider (used : Array Bool) (j : Nat) (best : Best) (i : Nat) : Best :=
  if used.getD i false || splitsPairAt m.previous i then best
  else if 0 < best.2 && !m.agrees used (i + best.2) (j + best.2) then best
  else
    let length := m.extension used i j
    if best.2 < length then (i, length) else best

/-- The longest extension from `j` over the candidates, the earliest of equals. -/
def longest (used : Array Bool) (j : Nat) (candidates : List Nat) : Best :=
  candidates.foldl (m.consider used j) (0, 0)

abbrev Index := Std.HashMap UInt16 (List Nat)

/-- The positions `position`, `position + 1`, … of the given units, by unit and in ascending order. -/
def indexOf (position : Nat) : List UInt16 → Index
  | [] => ∅
  | u :: rest =>
    let index := indexOf (position + 1) rest
    index.insert u (position :: index.getD u [])

def index : Index :=
  indexOf m.previousStart (m.previous.extract m.previousStart m.previousStop).toList

/-- The candidates for a match that starts at `j`. -/
def candidates (index : Index) (j : Nat) : List Nat :=
  if h : j < m.currentStop then
    have := m.currentStop_le
    if splitsPairAt m.current j then [] else index.getD m.current[j] []
  else []

def markUsed (used : Array Bool) (position : Nat) : Nat → Array Bool
  | 0 => used
  | n + 1 => markUsed (used.setIfInBounds position true) (position + 1) n

/-- The matches from `j` on. -/
def scan (threshold : Nat) (index : Index) (used : Array Bool) (j : Nat) : List Match :=
  if j < m.currentStop then
    match m.longest used j (m.candidates index j) with
    | (i, length) =>
      if threshold < length then
        ⟨i, j, length⟩ :: scan threshold index (markUsed used i length) (j + length)
      else scan threshold index used (j + 1)
  else []
termination_by m.currentStop - j

def found (threshold : Nat) : List Match :=
  m.scan threshold m.index (Array.replicate m.previous.size false) m.currentStart

end Middle

/-- The number of leading units in which two texts agree. -/
def commonStart : Text → Text → Nat
  | a :: as, b :: bs => if a = b then commonStart as bs + 1 else 0
  | _, _ => 0

/-- The common end, shortened until it starts at no split pair. -/
def trimEndLength (a b : Text) : Nat → Nat
  | 0 => 0
  | n + 1 =>
    if a.splitsPair (a.length - (n + 1)) || b.splitsPair (b.length - (n + 1)) then trimEndLength a b n
    else n + 1

/-- The common start, shortened until it ends at no split pair. -/
def trimStartLength (a b : Text) : Nat → Nat
  | 0 => 0
  | n + 1 => if a.splitsPair (n + 1) || b.splitsPair (n + 1) then trimStartLength a b n else n + 1

def endLength (a b : Text) : Nat := trimEndLength a b (commonStart a.reverse b.reverse)

def startLength (a b : Text) : Nat :=
  let tail := endLength a b
  trimStartLength a b (commonStart (a.take (a.length - tail)) (b.take (b.length - tail)))

/-- The middle that the common start and the common end leave. -/
def middle (a b : Text) : Middle where
  previous := a.toArray
  current := b.toArray
  previousStart := startLength a b
  previousStop := a.length - endLength a b
  currentStart := startLength a b
  currentStop := b.length - endLength a b
  previousStop_le := by simp
  currentStop_le := by simp

/-- A match, unless it is empty. -/
def edge (previous current length : Nat) : List Match :=
  if 0 < length then [⟨previous, current, length⟩] else []

def matchesOf (threshold : Nat) (a b : Text) : List Match :=
  let tail := endLength a b
  edge 0 0 (startLength a b) ++ (middle a b).found threshold
    ++ edge (a.length - tail) (b.length - tail) tail

/-- The common blocks of two texts. Any threshold is searched with as it is. -/
def ofTexts (threshold : Nat) (previous current : Text) : Alignment :=
  ofMatches previous.length current.length (matchesOf threshold previous current)

/-- The common blocks of two texts under a threshold from the settings, where one below one counts as
one. -/
def compute (threshold : Nat) : Text → Text → Alignment := ofTexts (max threshold 1)

end Alignment
end EditHistory
