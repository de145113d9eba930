import EditHistory.Patch.Between
import EditHistory.Proofs.Alignment.Chains
import EditHistory.Proofs.Alignment.Matches
import EditHistory.Proofs.Patch.Spacing

/-! The walk through the blocks of two texts and the rebuild that its edits drive go side by side: after
the edits for some blocks, the output reads as the current text up to where the walk stands. Where an
insertion comes right behind a deletion, or a deletion behind an insertion, the walk has passed blocks that
stay, and the rebuild copies them. -/
namespace EditHistory
namespace Alignment

open Patch (Clipboard Rebuild cuts)

variable {a b : Text} {stays : Block → Bool} {clips : Clipboard} {i j : Nat} {r : Rebuild}

theorem step_removal {x : Block} (hr : r.Reaches a b i j) (hstart : x.start = i)
    (hlt : x.start < x.stop) (hle : x.stop ≤ a.length) :
    ∃ r', r.step a.toArray clips (editsFrom.removal x) = .ok r' ∧ r'.Reaches a b x.stop j := by
  subst hstart
  have hadd := Block.start_add_length hlt
  obtain ⟨r', hskip, hreach, -⟩ := hr.skip (n := x.length) (by omega)
  rw [hadd] at hreach
  refine ⟨r', ?_, hreach⟩
  rw [editsFrom.removal]
  split <;> exact hskip

theorem step_addition {y : Block} (hr : r.Reaches a b i j) (hstart : y.start = j)
    (hlt : y.start < y.stop) (hle : y.stop ≤ b.length)
    (hclip : ∀ id, y.id = some id → clips.lookup id = some (y.units b)) :
    ∃ r', r.step a.toArray clips (editsFrom.addition b y) = .ok r' ∧ r'.Reaches a b i y.stop := by
  subst hstart
  obtain ⟨r', hfill, hreach, hcursor⟩ := hr.fillTo (by omega)
  have hwrite := hreach.write hcursor y.length
  rw [Block.start_add_length hlt] at hwrite
  refine ⟨_, ?_, hwrite⟩
  rw [editsFrom.addition]
  split
  · simp only [Rebuild.step, hfill]
    rfl
  · rename_i id hid
    simp only [Rebuild.step, hclip id hid, hfill]
    rfl

theorem step_replace {x y : Block} (hr : r.Reaches a b i j) (hx : x.start = i) (hy : y.start = j)
    (hxlt : x.start < x.stop) (hylt : y.start < y.stop) (hle : x.stop ≤ a.length) :
    ∃ r', r.step a.toArray clips (.replace x.start x.length (y.units b)) = .ok r' ∧
      r'.Reaches a b x.stop y.stop := by
  subst hx hy
  have hadd := Block.start_add_length hxlt
  obtain ⟨r', hskip, hreach, hcursor⟩ := hr.skip (n := x.length) (by omega)
  have hwrite := hreach.write hcursor y.length
  rw [hadd, Block.start_add_length hylt] at hwrite
  refine ⟨_, ?_, hwrite⟩
  simp only [Rebuild.step, hskip]
  rfl

/-- Two blocks that stay move the walk on without an edit. -/
theorem reaches_stationary {x y : Block} (hr : r.Reaches a b x.start y.start)
    (hxlt : x.start < x.stop) (hylt : y.start < y.stop) (hxle : x.stop ≤ a.length)
    (hyle : y.stop ≤ b.length) (hunits : x.units a = y.units b) :
    r.Reaches a b x.stop y.stop := by
  have hlen : x.length = y.length := by
    rw [← Block.length_units hxlt hxle, hunits, Block.length_units hylt hyle]
  have hadd := Block.start_add_length hxlt
  have hkeep := hr.keep (n := x.length) (by omega) (by
    rw [← Block.units, hunits, Block.units, hlen])
  rwa [hadd, hlen, Block.start_add_length hylt] at hkeep

/-- What the walk may meet behind an edit, as long as it has passed no blocks that stay: behind a deletion
no unmatched block of the current text, and behind an insertion no block of the previous text that goes. -/
def Parted (stays : Block → Bool) (as bs : List Block) : Edit Text → Prop
  | .delete .. => ∀ y ∈ bs.head?, y.id.isSome
  | .insert .. => ∀ x ∈ as.head?, stays x
  | .full _ | .replace .. | .cut .. | .paste .. => True

theorem parted_removal {x : Block} {as bs : List Block}
    (h : x.id = none → ∀ y ∈ bs.head?, y.id.isSome) : Parted stays as bs (editsFrom.removal x) := by
  rw [editsFrom.removal]
  split
  · rename_i hid
    exact h hid
  · trivial

theorem parted_addition {y : Block} {as bs : List Block} (h : ∀ x ∈ as.head?, stays x) :
    Parted stays as bs (editsFrom.addition b y) := by
  rw [editsFrom.addition]
  split
  · exact h
  · trivial

variable {before : Option (Edit Text)}

/-- A removal that opposes the edit before it comes behind blocks that stay. -/
theorem spaced_removal {x : Block} {as bs : List Block}
    (hbefore : ∀ e ∈ before, r.cursor < i ∨ Parted stays (x :: as) bs e) (hx : ¬ stays x)
    (hr : r.Reaches a b i j) (hstart : x.start = i) (hlt : x.start < x.stop) (hle : x.stop ≤ a.length) :
    ∀ e ∈ before, e.Opposes (editsFrom.removal x) → r.CopiesBefore a clips (editsFrom.removal x) := by
  intro e he hopposes
  subst hstart
  have hadd := Block.start_add_length hlt
  rw [editsFrom.removal] at hopposes ⊢
  cases hid : x.id with
  | some id =>
    rw [hid] at hopposes
    cases e <;> cases hopposes
  | none =>
    rw [hid] at hopposes
    cases e with
    | insert start text =>
      have hlag := (hbefore _ he).resolve_right fun hparted => hx (hparted x rfl)
      exact hr.copiesBefore_delete hlag (by omega)
    | full | delete | replace | cut | paste => cases hopposes

/-- So does an addition. -/
theorem spaced_addition {y : Block} {as bs : List Block}
    (hbefore : ∀ e ∈ before, r.cursor < i ∨ Parted stays as (y :: bs) e)
    (hr : r.Reaches a b i j) (hstart : y.start = j) (hlt : y.start < y.stop) (hle : y.stop ≤ b.length) :
    ∀ e ∈ before, e.Opposes (editsFrom.addition b y) →
      r.CopiesBefore a clips (editsFrom.addition b y) := by
  intro e he hopposes
  subst hstart
  rw [editsFrom.addition] at hopposes ⊢
  cases hid : y.id with
  | some id =>
    rw [hid] at hopposes
    cases e <;> cases hopposes
  | none =>
    rw [hid] at hopposes
    cases e with
    | delete start length =>
      have hlag := (hbefore _ he).resolve_right fun hparted => by
        have hsome := hparted y rfl
        simp [hid] at hsome
      exact hr.copiesBefore_insert hlag (by omega) _
    | full | insert | replace | cut | paste => cases hopposes

theorem spacedRun_cons {e : Edit Text} {es : Patch} {r' : Rebuild} {P : Rebuild → Prop}
    (hspaced : ∀ x ∈ before, x.Opposes e → r.CopiesBefore a clips e)
    (hstep : r.step a.toArray clips e = .ok r')
    (hrest : ∃ r'', Rebuild.SpacedRun a clips (some e) r' es r'' ∧ P r'') :
    ∃ r'', Rebuild.SpacedRun a clips before r (e :: es) r'' ∧ P r'' := by
  obtain ⟨r'', hrun, hend⟩ := hrest
  exact ⟨r'', .cons hspaced hstep hrun, hend⟩

/-- The edits of a walk rebuild the current text, where the blocks that stay are equal in pairs and
the units of every block that comes from elsewhere are at hand. The run is spaced: between a deletion and
an insertion the walk passes a pair of blocks that stay. -/
theorem spacedRun_editsFrom {as bs : List Block} (ha : Block.Tile i a.length as)
    (hb : Block.Tile j b.length bs)
    (hstays : List.Forall₂ (fun x y => x.units a = y.units b) (as.filter stays) (bs.filter stays))
    (hmatched : ∀ z, stays z → z.id.isSome)
    (hclips : ∀ y ∈ bs, ¬ stays y → ∀ id, y.id = some id → clips.lookup id = some (y.units b))
    (hr : r.Reaches a b i j) (hbefore : ∀ e ∈ before, r.cursor < i ∨ Parted stays as bs e) :
    ∃ r', Rebuild.SpacedRun a clips before r (editsFrom stays b as bs) r' ∧
      r'.Reaches a b a.length b.length := by
  fun_induction editsFrom stays b as bs generalizing i j r before with
  | case1 =>
    obtain rfl : i = a.length := ha
    obtain rfl : j = b.length := hb
    exact ⟨r, .nil, hr⟩
  | case2 y bs hy => simp [hy] at hstays
  | case3 y bs hy ih =>
    obtain ⟨hstart, hlt, hrest⟩ := hb
    have hle := Block.le_of_tile hrest
    obtain ⟨r', hstep, hreach⟩ := step_addition hr hstart hlt hle (hclips y (by simp) hy)
    rw [List.filter_cons_of_neg hy] at hstays
    refine spacedRun_cons (spaced_addition hbefore hr hstart hlt hle) hstep
      (ih ha hrest hstays (fun z hz => hclips z (by simp [hz])) hreach fun e he => .inr ?_)
    obtain rfl := Option.some.inj he
    exact parted_addition nofun
  | case4 x as hx => simp [hx] at hstays
  | case5 x as hx ih =>
    obtain ⟨hstart, hlt, hrest⟩ := ha
    have hle := Block.le_of_tile hrest
    obtain ⟨r', hstep, hreach⟩ := step_removal hr hstart hlt hle
    rw [List.filter_cons_of_neg hx] at hstays
    refine spacedRun_cons (spaced_removal hbefore hx hr hstart hlt hle) hstep
      (ih hrest hb hstays hclips hreach fun e he => .inr ?_)
    obtain rfl := Option.some.inj he
    exact parted_removal fun _ => nofun
  | case6 x as y bs hx hy ih =>
    obtain ⟨rfl, hxlt, hxrest⟩ := ha
    obtain ⟨rfl, hylt, hyrest⟩ := hb
    rw [List.filter_cons_of_pos hx, List.filter_cons_of_pos hy] at hstays
    obtain ⟨hunits, hstays⟩ := List.forall₂_cons.mp hstays
    have hreach := reaches_stationary hr hxlt hylt (Block.le_of_tile hxrest)
      (Block.le_of_tile hyrest) hunits
    -- the pair that is passed is what the cursor lags behind from now on
    have hlag : r.cursor < x.stop := Nat.lt_of_le_of_lt hr.cursor_le hxlt
    exact ih hxrest hyrest hstays (fun z hz => hclips z (by simp [hz])) hreach fun _ _ => .inl hlag
  | case7 x as y bs hx hy ih =>
    obtain ⟨hstart, hlt, hrest⟩ := hb
    have hle := Block.le_of_tile hrest
    obtain ⟨r', hstep, hreach⟩ := step_addition hr hstart hlt hle (hclips y (by simp) hy)
    rw [List.filter_cons_of_neg (a := y) hy] at hstays
    refine spacedRun_cons (spaced_addition hbefore hr hstart hlt hle) hstep
      (ih ha hrest hstays (fun z hz => hclips z (by simp [hz])) hreach fun e he => .inr ?_)
    obtain rfl := Option.some.inj he
    refine parted_addition fun z hz => ?_
    obtain rfl := Option.some.inj hz
    exact hx
  | case8 x as y bs hx hnone ih =>
    obtain ⟨hxstart, hxlt, hxrest⟩ := ha
    obtain ⟨hystart, hylt, hyrest⟩ := hb
    obtain ⟨r', hstep, hreach⟩ := step_replace hr hxstart hystart hxlt hylt
      (Block.le_of_tile hxrest)
    simp only [Bool.and_eq_true, Option.isNone_iff_eq_none] at hnone
    have hy : ¬ stays y := fun h => by
      have hsome := hmatched y h
      simp [hnone.2] at hsome
    rw [List.filter_cons_of_neg (a := x) hx, List.filter_cons_of_neg (a := y) hy] at hstays
    refine spacedRun_cons (fun e _ hopposes => by cases e <;> cases hopposes) hstep
      (ih hxrest hyrest hstays (fun z hz => hclips z (by simp [hz])) hreach fun e he => .inr ?_)
    obtain rfl := Option.some.inj he
    trivial
  | case9 x as y bs hx hsome ih =>
    obtain ⟨hstart, hlt, hrest⟩ := ha
    have hle := Block.le_of_tile hrest
    obtain ⟨r', hstep, hreach⟩ := step_removal hr hstart hlt hle
    rw [List.filter_cons_of_neg (a := x) hx] at hstays
    refine spacedRun_cons (spaced_removal hbefore hx hr hstart hlt hle) hstep
      (ih hrest hb hstays hclips hreach fun e he => .inr ?_)
    obtain rfl := Option.some.inj he
    refine parted_removal fun hid z hz => ?_
    obtain rfl := Option.some.inj hz
    simpa [hid, Option.isSome_iff_ne_none] using hsome

/-- The walk takes away exactly the blocks of the previous text that do not stay, in order. -/
theorem removals_editsFrom (b : Text) (as bs : List Block) :
    Patch.removals (editsFrom stays b as bs) =
      (as.filter fun x => !stays x).map fun x => ⟨x.start, x.length, x.id⟩ := by
  have haddition (y : Block) (es : Patch) :
      Patch.removals (editsFrom.addition b y :: es) = Patch.removals es := by
    rw [editsFrom.addition]
    split <;> rfl
  have hremoval (x : Block) (es : Patch) : Patch.removals (editsFrom.removal x :: es) =
      ⟨x.start, x.length, x.id⟩ :: Patch.removals es := by
    rw [editsFrom.removal]
    split <;> rename_i hid <;> rw [hid] <;> rfl
  have hcons (x : Block) (as : List Block) (hx : ¬ stays x) :
      ((x :: as).filter fun x => !stays x) = x :: as.filter fun x => !stays x :=
    List.filter_cons_of_pos (by simpa using hx)
  fun_induction editsFrom stays b as bs with
  | case1 => rfl
  | case2 y bs hy ih => exact ih
  | case3 y bs hy ih => rw [haddition, ih]
  | case4 x as hx ih => simpa [hx] using ih
  | case5 x as hx ih => rw [hremoval, ih, hcons x as hx, List.map_cons]
  | case6 x as y bs hx hy ih => simpa [hx] using ih
  | case7 x as y bs hx hy ih => rw [haddition, ih]
  | case8 x as y bs hx hnone ih =>
    simp only [Bool.and_eq_true, Option.isNone_iff_eq_none] at hnone
    rw [hcons x as hx, List.map_cons, ← ih, hnone.1]
    rfl
  | case9 x as y bs hx hsome ih => rw [hremoval, ih, hcons x as hx, List.map_cons]

/-- The walk cuts exactly the matched blocks of the previous text that do not stay. -/
theorem cuts_editsFrom (a b : Text) (as bs : List Block) :
    cuts a (editsFrom stays b as bs) =
      (as.filter fun x => !stays x).filterMap fun x => x.id.map fun id => (id, x.units a) := by
  rw [Patch.cuts_eq_filterMap, removals_editsFrom, List.filterMap_map]
  rfl

end Alignment
end EditHistory
