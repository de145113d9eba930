import EditHistory.Alignment.Block
import EditHistory.Alignment.PrefixMaximum

/-! The matched blocks that stay in place: among the selections that stand in the same order in
both texts, one of the greatest total length, so that the fewest units have to move. -/
namespace EditHistory
namespace Alignment

/-- Writes the ranks of numbers into a table; of a repeated number the last rank stays. -/
def writeRanks (table : Array Nat) (rank : Nat) : List Nat → Array Nat
  | [] => table
  | id :: rest => writeRanks (table.setIfInBounds id rank) (rank + 1) rest

/-- The rank of each matched block among the matched blocks of the previous text. -/
def ranks (al : Alignment) : Array Nat :=
  writeRanks (Array.replicate al.matched 0) 0 (al.previous.filterMap Block.id)

/-- The number and length of each matched block of the current text. -/
def weighted (al : Alignment) : List (Nat × Nat) :=
  al.current.filterMap fun b => b.id.map fun id => (id, b.length)

/-- The chains so far, by rank, and the best of them. -/
structure Survey where
  tree : PrefixMaximum
  position : Nat
  best : Option Chain

namespace Survey

def start (matched : Nat) : Survey := ⟨.empty matched, 0, none⟩

/-- The chain that ends with a block: it extends the best one of smaller rank. -/
def chainTo (s : Survey) (rank id length : Nat) : Chain :=
  match s.tree.query rank with
  | none => ⟨length, s.position, [id]⟩
  | some c => ⟨length + c.weight, s.position, id :: c.ids⟩

def add (rankOf : Array Nat) (s : Survey) (block : Nat × Nat) : Survey :=
  let rank := rankOf.getD block.1 0
  let chain := s.chainTo rank block.1 block.2
  ⟨s.tree.update rank chain, s.position + 1, Chain.best s.best (some chain)⟩

end Survey

/-- The numbers of the blocks that stay in place, the last one first. -/
def stationaryIds (al : Alignment) : List Nat :=
  match (al.weighted.foldl (Survey.add al.ranks) (Survey.start al.matched)).best with
  | none => []
  | some c => c.ids

/-- A flag for every block number: does the block stay in place? -/
def stationary (al : Alignment) : Array Bool :=
  al.stationaryIds.foldl (fun flags id => flags.setIfInBounds id true)
    (Array.replicate al.matched false)

end Alignment
end EditHistory
