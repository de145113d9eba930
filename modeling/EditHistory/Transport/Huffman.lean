/-! Canonical Huffman codes. A code is read bit by bit down a binary tree; bits that belong to no
symbol end in an empty tree. -/
namespace EditHistory
namespace Huffman

inductive Tree where
  | empty
  | leaf (symbol : Nat)
  | node (zero one : Tree)

/-- What goes wrong in a packed stream. -/
inductive Fault where
  /-- The stream ends early. -/
  | incomplete
  | corrupt
deriving DecidableEq, Repr

namespace Tree

/-- Reads one symbol. -/
def read : Tree → List Bool → Except Fault (Nat × List Bool)
  | empty, _ => .error .corrupt
  | leaf s, bits => .ok (s, bits)
  | node _ _, [] => .error .incomplete
  | node zero one, b :: rest => if b then read one rest else read zero rest

/-- The bits that lead to a symbol. -/
def path? (symbol : Nat) : Tree → Option (List Bool)
  | empty => none
  | leaf s => if s = symbol then some [] else none
  | node zero one =>
    match path? symbol zero with
    | some bits => some (false :: bits)
    | none => (path? symbol one).map (true :: ·)

theorem read_path_append {t : Tree} {s : Nat} {bits : List Bool} (h : t.path? s = some bits)
    (rest : List Bool) : t.read (bits ++ rest) = .ok (s, rest) := by
  induction t generalizing bits with
  | empty => simp [path?] at h
  | leaf s' =>
    simp only [path?] at h
    split at h
    · rename_i hs
      subst hs
      cases h
      rfl
    · cases h
  | node zero one ihz iho =>
    simp only [path?] at h
    split at h
    · rename_i bits' hz
      cases h
      simpa [read] using ihz hz
    · obtain ⟨bits', ho, rfl⟩ := Option.map_eq_some_iff.1 h
      simpa [read] using iho ho

/-- Joins trees two by two; a single one at the end gets an empty sibling. -/
def pair : List Tree → List Tree
  | a :: b :: rest => node a b :: pair rest
  | [a] => [node a empty]
  | [] => []

end Tree

/-- The longest code word. -/
def maxLength : Nat := 15

/-- The symbols whose code words have a length, in ascending order. -/
def symbolsOfLength (lengths : List Nat) (length : Nat) : List Nat :=
  (lengths.zipIdx.filter fun p => p.1 == length).map (·.2)

/-- The subtrees at `depth = maxLength - below`: first the symbols of that length, then what joins
the subtrees one level further down. -/
def level (lengths : List Nat) : Nat → List Tree
  | 0 => (symbolsOfLength lengths maxLength).map .leaf
  | below + 1 =>
    (symbolsOfLength lengths (maxLength - (below + 1))).map .leaf ++ Tree.pair (level lengths below)

/-- How much of the code space a list of lengths takes up, in units of the longest words. -/
def occupied (lengths : List Nat) : Nat :=
  lengths.foldr (fun n sum => (if n = 0 then 0 else 1 <<< (maxLength - n)) + sum) 0

/-- The root over the subtrees at depth one. -/
def root (lengths : List Nat) : Tree :=
  match level lengths (maxLength - 1) with
  | [] => .node .empty .empty
  | [a] => .node a .empty
  | a :: b :: _ => .node a b

/-- Every code word belongs to exactly one symbol. -/
def isComplete (lengths : List Nat) : Bool := occupied lengths == 1 <<< maxLength

/-- No code word is longer than one bit, and none is given twice. -/
def isTrivial (lengths : List Nat) : Bool :=
  lengths.all (· ≤ 1) && occupied lengths ≤ 1 <<< maxLength

end Huffman
end EditHistory
