/-! A tree of prefix maxima over ranks. The node `i` keeps the best chain of the ranks that a
binary indexed tree assigns to `i`: as many as the lowest set bit of `i` says, the last of them
rank `i - 1`. -/
namespace EditHistory

/-- An order-preserving selection of blocks that ends with the block at `position`. -/
structure Chain where
  weight : Nat
  position : Nat
  /-- The numbers of the selected blocks, the last one first. -/
  ids : List Nat
deriving DecidableEq, Repr

namespace Chain

/-- More weight wins, then the earlier position. -/
def beats (x y : Chain) : Bool :=
  y.weight < x.weight || (x.weight == y.weight && x.position < y.position)

/-- The better of the incumbent and a challenger, which has to beat it. -/
def best (incumbent challenger : Option Chain) : Option Chain :=
  match incumbent, challenger with
  | some x, some y => if y.beats x then some y else some x
  | some x, none => some x
  | none, y => y

end Chain

/-- The number `i` without its lowest set bit. -/
def clearLowestBit (i : Nat) : Nat := i &&& (i - 1)

theorem clearLowestBit_lt {i : Nat} (h : 0 < i) : clearLowestBit i < i := by
  have := Nat.and_le_right (n := i) (m := i - 1)
  unfold clearLowestBit
  omega

/-- The lowest set bit of a number. -/
def lowestBit (i : Nat) : Nat := i - clearLowestBit i

theorem lowestBit_pos {i : Nat} (h : 0 < i) : 0 < lowestBit i := by
  have := clearLowestBit_lt h
  unfold lowestBit
  omega

structure PrefixMaximum where
  nodes : Array (Option Chain)

namespace PrefixMaximum

/-- A tree for the ranks below `n`. -/
def empty (n : Nat) : PrefixMaximum := ⟨Array.replicate (n + 1) none⟩

def queryFrom (nodes : Array (Option Chain)) (i : Nat) (found : Option Chain) : Option Chain :=
  if h : 0 < i then
    have := clearLowestBit_lt h
    queryFrom nodes (clearLowestBit i) (Chain.best found (nodes.getD i none))
  else found
termination_by i

/-- The best chain among the ranks strictly below `rank`. -/
def query (tree : PrefixMaximum) (rank : Nat) : Option Chain := queryFrom tree.nodes rank none

def updateFrom (chain : Chain) (nodes : Array (Option Chain)) (i : Nat) : Array (Option Chain) :=
  if h : 0 < i ∧ i < nodes.size then
    have := lowestBit_pos h.1
    updateFrom chain (nodes.set i (Chain.best nodes[i] (some chain))) (i + lowestBit i)
  else nodes
termination_by nodes.size - i
decreasing_by simp only [Array.size_set]; omega

/-- Enters a chain at a rank. -/
def update (tree : PrefixMaximum) (rank : Nat) (chain : Chain) : PrefixMaximum :=
  ⟨updateFrom chain tree.nodes (rank + 1)⟩

end PrefixMaximum
end EditHistory
