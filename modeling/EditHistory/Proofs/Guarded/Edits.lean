import EditHistory.Proofs.Guarded.Basic
import EditHistory.Proofs.Patch.Moves
import EditHistory.Proofs.Patch.Shape

/-! The walk through two lists of blocks with guards, where the lists may be at odds: a number may stand on
one side only or more than once in the current text. As long as every number is in range, no number
comes twice in the previous text and every range can be read, the walk comes to its end, a turn for every
block at most, and it has one edit for every block that does not stay. -/
namespace EditHistory

/-- Blocks that a walk can read. The lists need not fit together: a number may stand on one side only or
more than once in the current text, and blocks may be empty. -/
structure Alignment.Readable (al : Alignment) (current : Text) : Prop where
  previous_ids : ∀ x ∈ al.previous, ∀ id, x.id = some id → id < al.matched
  current_ids : ∀ y ∈ al.current, ∀ id, y.id = some id → id < al.matched
  previous_once : (al.previous.filterMap Block.id).Nodup
  previous_ranges : ∀ x ∈ al.previous, x.start ≤ x.stop
  current_ranges : ∀ y ∈ al.current, y.start ≤ y.stop ∧ y.stop ≤ current.length

namespace Guarded

open EditHistory.Alignment (Survey)

variable {ε α : Type}

/-! ## The blocks that stay -/

def put (xs : Array α) (i : Nat) (x : α) : Guarded ε (Array α) := do
  ensure (i < xs.size)
  return xs.setIfInBounds i x

def writeRanks (table : Array Nat) (rank : Nat) : List Nat → Guarded ε (Array Nat)
  | [] => return table
  | id :: rest => do writeRanks (← put table id rank) (rank + 1) rest

def weighted : List Block → Guarded ε (List (Nat × Nat))
  | [] => return []
  | b :: rest =>
    match b.id with
    | none => weighted rest
    | some id => return (id, ← sub b.stop b.start) :: (← weighted rest)

def queryFrom (nodes : Array (Option Chain)) (i : Nat) (found : Option Chain) :
    Guarded ε (Option Chain) :=
  if h : 0 < i then do
    have := clearLowestBit_lt h
    queryFrom nodes (clearLowestBit i) (Chain.best found (← item nodes i))
  else return found
termination_by i

def addToSurvey (rankOf : Array Nat) (s : Survey) (block : Nat × Nat) : Guarded ε Survey := do
  let rank ← item rankOf block.1
  let chain : Chain := match ← queryFrom s.tree.nodes rank none with
    | none => ⟨block.2, s.position, [block.1]⟩
    | some c => ⟨block.2 + c.weight, s.position, block.1 :: c.ids⟩
  return ⟨s.tree.update rank chain, s.position + 1, Chain.best s.best (some chain)⟩

def stationary (al : Alignment) : Guarded ε (Array Bool) := do
  let rankOf ← writeRanks (Array.replicate al.matched 0) 0 (al.previous.filterMap Block.id)
  let survey ← (← weighted al.current).foldlM (addToSurvey rankOf) (Survey.start al.matched)
  let ids := match survey.best with
    | none => []
    | some c => c.ids
  ids.foldlM (fun flags id => put flags id true) (Array.replicate al.matched false)

/-! ## The walk -/

def stays (flags : Array Bool) (x : Block) : Guarded ε Bool :=
  match x.id with
  | none => return false
  | some id => item flags id

def addition (current : Array UInt16) (y : Block) : Guarded ε (Edit Text) :=
  match y.id with
  | none => return .insert y.start (← slice current y.start y.stop).toList
  | some id => return .paste y.start id

def removal (x : Block) : Guarded ε (Edit Text) := do
  let length ← sub x.stop x.start
  return match x.id with
    | none => .delete x.start length
    | some id => .cut x.start length id

/-- The walk with a bound on its turns. A turn takes one block or two. -/
def walk (flags : Array Bool) (current : Array UInt16) :
    Nat → List Block → List Block → Guarded ε Patch
  | _, [], [] => return []
  | 0, _, _ => fault
  | turns + 1, [], y :: bs => do
    if ← stays flags y then walk flags current turns [] bs
    else return (← addition current y) :: (← walk flags current turns [] bs)
  | turns + 1, x :: as, [] => do
    if ← stays flags x then walk flags current turns as []
    else return (← removal x) :: (← walk flags current turns as [])
  | turns + 1, x :: as, y :: bs => do
    if ← stays flags x then
      if ← stays flags y then walk flags current turns as bs
      else return (← addition current y) :: (← walk flags current turns (x :: as) bs)
    else if x.id.isNone && y.id.isNone then
      let length ← sub x.stop x.start
      let units ← slice current y.start y.stop
      return .replace x.start length units.toList :: (← walk flags current turns as bs)
    else return (← removal x) :: (← walk flags current turns as (y :: bs))

/-- The edits that rebuild the current text along an alignment, in as many turns as there are blocks at
most. -/
def edits (al : Alignment) (current : Text) : Guarded ε Patch := do
  let flags ← stationary al
  walk flags current.toArray (al.previous.length + al.current.length) al.previous al.current

/-! ## No faults -/

theorem put_eq {xs : Array α} {i : Nat} (h : i < xs.size) (x : α) :
    (put xs i x : Guarded ε (Array α)) = pure (xs.setIfInBounds i x) := by
  rw [put, ensure_eq h, pure_bind]

theorem item_eq_getD {xs : Array α} {i : Nat} (h : i < xs.size) (default : α) :
    (item xs i : Guarded ε α) = pure (xs.getD i default) := by
  rw [item_eq (Array.getElem?_eq_getElem h)]
  simp [Array.getD, h]

theorem writeRanks_eq {table : Array Nat} {ids : List Nat} (h : ∀ id ∈ ids, id < table.size)
    (rank : Nat) :
    (writeRanks table rank ids : Guarded ε (Array Nat)) = pure (Alignment.writeRanks table rank ids) := by
  induction ids generalizing table rank with
  | nil => rfl
  | cons id rest ih =>
    rw [writeRanks, put_eq (h id (by simp)), pure_bind, Alignment.writeRanks]
    exact ih (fun x hx => by simpa using h x (by simp [hx])) (rank + 1)

theorem weighted_eq {blocks : List Block} (h : ∀ y ∈ blocks, y.start ≤ y.stop) :
    (weighted blocks : Guarded ε (List (Nat × Nat))) =
      pure (blocks.filterMap fun b => b.id.map fun id => (id, b.length)) := by
  induction blocks with
  | nil => rfl
  | cons b rest ih =>
    have hrest := ih fun y hy => h y (by simp [hy])
    rw [weighted]
    cases hid : b.id with
    | none => simp [hid, hrest]
    | some id => simp [hid, hrest, sub_eq (h b (by simp)), Block.length]

theorem queryFrom_eq {nodes : Array (Option Chain)} {i : Nat} (hi : i < nodes.size)
    (found : Option Chain) :
    (queryFrom nodes i found : Guarded ε (Option Chain)) =
      pure (PrefixMaximum.queryFrom nodes i found) := by
  fun_induction PrefixMaximum.queryFrom nodes i found with
  | case1 i found hpos hlt ih =>
    rw [queryFrom, dif_pos hpos, item_eq_getD hi none, pure_bind]
    exact ih (by omega)
  | case2 i found hzero => rw [queryFrom, dif_neg hzero]

theorem addToSurvey_eq {rankOf : Array Nat} {s : Survey} {block : Nat × Nat}
    (hid : block.1 < rankOf.size) (hrank : rankOf.getD block.1 0 < s.tree.nodes.size) :
    (addToSurvey rankOf s block : Guarded ε Survey) = pure (s.add rankOf block) := by
  rw [addToSurvey, item_eq_getD hid 0, pure_bind, queryFrom_eq hrank, pure_bind]
  rfl

/-- Steps that come to no fault as long as something holds that they keep. -/
theorem foldlM_eq_foldl {β : Type} {P : β → Prop} {step : β → α → Guarded ε β} {f : β → α → β}
    {xs : List α} (hstep : ∀ b, P b → ∀ x ∈ xs, step b x = pure (f b x) ∧ P (f b x)) {b : β} (hb : P b) :
    xs.foldlM step b = pure (xs.foldl f b) := by
  induction xs generalizing b with
  | nil => rfl
  | cons x xs ih =>
    obtain ⟨hfirst, hnext⟩ := hstep b hb x (by simp)
    rw [List.foldlM_cons, hfirst, pure_bind, List.foldl_cons]
    exact ih (fun b hb y hy => hstep b hb y (by simp [hy])) hnext

variable {al : Alignment} {current : Text}

theorem size_writeRanks (table : Array Nat) (rank : Nat) (ids : List Nat) :
    (Alignment.writeRanks table rank ids).size = table.size := by
  induction ids generalizing table rank with
  | nil => rfl
  | cons id rest ih => rw [Alignment.writeRanks, ih, Array.size_setIfInBounds]

theorem size_ranks (al : Alignment) : al.ranks.size = al.matched := by
  rw [Alignment.ranks, size_writeRanks, Array.size_replicate]

theorem size_foldl_setIfInBounds (flags : Array Bool) (ids : List Nat) :
    (ids.foldl (fun flags id => flags.setIfInBounds id true) flags).size = flags.size := by
  induction ids generalizing flags with
  | nil => rfl
  | cons id rest ih => rw [List.foldl_cons, ih, Array.size_setIfInBounds]

theorem size_stationary (al : Alignment) : al.stationary.size = al.matched := by
  rw [Alignment.stationary, size_foldl_setIfInBounds, Array.size_replicate]

theorem getD_ranks_le (h : al.Readable current) {id : Nat} (hid : id < al.matched) :
    al.ranks.getD id 0 ≤ al.matched := by
  refine al.getD_ranks_le h.previous_once (fun id hmem => ?_) hid
  obtain ⟨x, hx, hxid⟩ := List.mem_filterMap.mp hmem
  exact List.mem_range.mpr (h.previous_ids x hx id hxid)

theorem stationary_eq (h : al.Readable current) :
    (stationary al : Guarded ε (Array Bool)) = pure al.stationary := by
  have hprevious : ∀ id ∈ al.previous.filterMap Block.id, id < (Array.replicate al.matched 0).size := by
    intro id hmem
    obtain ⟨x, hx, hid⟩ := List.mem_filterMap.mp hmem
    rw [Array.size_replicate]
    exact h.previous_ids x hx id hid
  have hcurrent : ∀ id ∈ al.current.filterMap Block.id, id < al.matched := by
    intro id hmem
    obtain ⟨y, hy, hid⟩ := List.mem_filterMap.mp hmem
    exact h.current_ids y hy id hid
  have hweighted : ∀ block ∈ al.weighted, block.1 < al.matched := by
    intro block hblock
    refine hcurrent block.1 ?_
    rw [← Alignment.map_fst_weighted]
    exact List.mem_map_of_mem hblock
  have hsurvey : (al.weighted.foldlM (addToSurvey al.ranks) (Survey.start al.matched) :
      Guarded ε Survey) = pure (al.weighted.foldl (Survey.add al.ranks) (Survey.start al.matched)) := by
    refine foldlM_eq_foldl (P := fun s => s.tree.nodes.size = al.matched + 1) ?_ ?_
    · intro s hs block hblock
      have hid := hweighted block hblock
      have hrank := getD_ranks_le h hid
      refine ⟨addToSurvey_eq (by rwa [size_ranks]) (by omega), ?_⟩
      exact (PrefixMaximum.size_updateFrom _ _ _).trans hs
    · simp [Survey.start, PrefixMaximum.empty]
  have hflags : (al.stationaryIds.foldlM (fun flags id => put flags id true)
      (Array.replicate al.matched false) : Guarded ε (Array Bool)) = pure al.stationary := by
    refine foldlM_eq_foldl (P := fun flags => flags.size = al.matched) ?_ Array.size_replicate
    intro flags hsize id hmem
    have hid : id < al.matched :=
      hcurrent id (al.ascends_stationaryIds.1.subset (List.mem_reverse.mpr hmem))
    exact ⟨put_eq (by rwa [hsize]) true, by rw [Array.size_setIfInBounds, hsize]⟩
  rw [stationary, writeRanks_eq hprevious, pure_bind, weighted_eq fun y hy => (h.current_ranges y hy).1,
    pure_bind]
  show (al.weighted.foldlM (addToSurvey al.ranks) (Survey.start al.matched) >>= _) = _
  rw [hsurvey, pure_bind]
  exact hflags

variable {x y : Block}

theorem stays_eq (h : ∀ id, x.id = some id → id < al.matched) :
    (stays al.stationary x : Guarded ε Bool) = pure (al.stays x) := by
  rw [stays, Alignment.stays]
  cases hid : x.id with
  | none => rfl
  | some id =>
    have hflag : id < al.stationary.size := by
      rw [size_stationary]
      exact h id hid
    exact item_eq_getD hflag false

theorem slice_units (h : y.start ≤ y.stop ∧ y.stop ≤ current.length) :
    (slice current.toArray y.start y.stop : Guarded ε (Array UInt16)) =
      pure (y.units current).toArray := by
  rw [slice_eq h.1 (by simpa using h.2)]
  simp [Block.units, Text.segment, Block.length, List.extract_eq_take_drop]

theorem addition_eq (h : y.start ≤ y.stop ∧ y.stop ≤ current.length) :
    (addition current.toArray y : Guarded ε (Edit Text)) =
      pure (Alignment.editsFrom.addition current y) := by
  rw [addition, Alignment.editsFrom.addition]
  cases y.id with
  | none => simp only [slice_units h, pure_bind]
  | some id => rfl

theorem removal_eq (h : x.start ≤ x.stop) :
    (removal x : Guarded ε (Edit Text)) = pure (Alignment.editsFrom.removal x) := by
  rw [removal, Alignment.editsFrom.removal, sub_eq h, pure_bind]
  cases x.id <;> rfl

/-- Within as many turns as there are blocks the walk comes to its end. -/
theorem walk_eq (h : al.Readable current) {turns : Nat} {as bs : List Block} (ha : as ⊆ al.previous)
    (hb : bs ⊆ al.current) (hturns : as.length + bs.length ≤ turns) :
    (walk al.stationary current.toArray turns as bs : Guarded ε Patch) =
      pure (Alignment.editsFrom al.stays current as bs) := by
  have hprevious {x : Block} (hx : x ∈ al.previous) :
      (stays al.stationary x : Guarded ε Bool) = pure (al.stays x) := stays_eq (h.previous_ids x hx)
  have hcurrent {y : Block} (hy : y ∈ al.current) :
      (stays al.stationary y : Guarded ε Bool) = pure (al.stays y) := stays_eq (h.current_ids y hy)
  induction turns generalizing as bs with
  | zero =>
    obtain ⟨rfl, rfl⟩ : as = [] ∧ bs = [] := by
      rw [← List.length_eq_zero_iff, ← List.length_eq_zero_iff]
      omega
    rw [walk, Alignment.editsFrom]
  | succ turns ih =>
    cases as with
    | nil =>
      cases bs with
      | nil => rw [walk, Alignment.editsFrom]
      | cons y bs =>
        obtain ⟨hyb, hbs⟩ := List.cons_subset.mp hb
        have hrest := ih ha hbs (by simpa using hturns)
        rw [walk, hcurrent hyb, pure_bind, Alignment.editsFrom]
        split
        · exact hrest
        · rw [addition_eq (h.current_ranges y hyb), hrest]
          rfl
    | cons x as =>
      obtain ⟨hxa, has⟩ := List.cons_subset.mp ha
      have hrange := h.previous_ranges x hxa
      cases bs with
      | nil =>
        have hrest := ih has hb (by simpa using hturns)
        rw [walk, hprevious hxa, pure_bind, Alignment.editsFrom]
        split
        · exact hrest
        · rw [removal_eq hrange, hrest]
          rfl
      | cons y bs =>
        obtain ⟨hyb, hbs⟩ := List.cons_subset.mp hb
        simp only [List.length_cons] at hturns
        rw [walk, hprevious hxa, hcurrent hyb, pure_bind, pure_bind, Alignment.editsFrom]
        split
        · split
          · exact ih has hbs (by omega)
          · rw [addition_eq (h.current_ranges y hyb), ih ha hbs (by rw [List.length_cons]; omega)]
            rfl
        · split
          · rw [sub_eq hrange, slice_units (h.current_ranges y hyb), ih has hbs (by omega)]
            rfl
          · rw [removal_eq hrange, ih has hb (by rw [List.length_cons]; omega)]
            rfl

theorem edits_eq (h : al.Readable current) :
    (edits al current : Guarded ε Patch) = pure (al.edits current) := by
  rw [edits, stationary_eq h, pure_bind]
  exact walk_eq h (List.Subset.refl _) (List.Subset.refl _) (Nat.le_refl _)

end Guarded

namespace Alignment

/-- No block is lost and none comes twice, even where the lists do not fit together. The walk comes to its
end without a fault; its removals are the blocks of the previous text that do not stay and its additions
those of the current text, in order, and there are no other edits. -/
theorem edits_of_readable {al : Alignment} {current : Text} (h : al.Readable current) :
    (Guarded.edits al current : Guarded Empty Patch) = pure (al.edits current) ∧
    Patch.removals (al.edits current) =
      (al.previous.filter fun x => !al.stays x).map (fun x => ⟨x.start, x.length, x.id⟩) ∧
    List.Forall₂ (Adds current) ((al.edits current).filter Edit.adds)
      (al.current.filter fun y => !al.stays y) ∧
    ∀ e ∈ al.edits current, e.isFull = false := by
  refine ⟨Guarded.edits_eq h, removals_editsFrom _ _ _, ?_, ?_⟩
  · exact additions_editsFrom (fun _ => isSome_of_stays) _ _
  · exact fun e he => (comes_of_mem_editsFrom e he).isFull_eq_false

/-- Two lists at odds: the block 0 is in the previous text only and the block 2 in the current text only,
the block 1 comes twice, and there are empty blocks. -/
def inconsistent : Alignment where
  previous := [⟨0, 1, some 0⟩, ⟨1, 1, none⟩, ⟨1, 3, some 1⟩, ⟨3, 4, none⟩]
  current := [⟨0, 2, some 1⟩, ⟨2, 3, some 2⟩, ⟨3, 3, none⟩, ⟨3, 4, some 1⟩]
  matched := 3

theorem edits_of_readable_inconsistent :
    inconsistent.Readable [1, 2, 3, 4] ∧
    (Guarded.edits inconsistent [1, 2, 3, 4] : Guarded Empty Patch) =
      pure (inconsistent.edits [1, 2, 3, 4]) ∧
    Patch.removals (inconsistent.edits [1, 2, 3, 4]) =
      (inconsistent.previous.filter fun x => !inconsistent.stays x).map
        (fun x => ⟨x.start, x.length, x.id⟩) ∧
    List.Forall₂ (Adds [1, 2, 3, 4]) ((inconsistent.edits [1, 2, 3, 4]).filter Edit.adds)
      (inconsistent.current.filter fun y => !inconsistent.stays y) ∧
    ∀ e ∈ inconsistent.edits [1, 2, 3, 4], e.isFull = false :=
  have h : inconsistent.Readable [1, 2, 3, 4] := {
    previous_ids := by simp [inconsistent]
    current_ids := by simp [inconsistent]
    previous_once := by decide
    previous_ranges := by decide
    current_ranges := by decide }
  ⟨h, edits_of_readable h⟩

end Alignment
end EditHistory
