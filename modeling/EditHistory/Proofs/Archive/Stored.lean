import EditHistory.Archive.Revision
import EditHistory.Archive.Settings
import EditHistory.Patch.Apply

/-! What a history is to keep of the revisions of an article, and what it means that diffs store
it. -/
namespace EditHistory

/-- A revision with the text that it is stored with. -/
structure Version where
  revision : Revision
  text : Text
deriving DecidableEq, Repr

namespace Version

/-- The revisions that a surrogate mode lets through, with their texts made valid. -/
def admitted (mode : SurrogateMode) (revisions : List Revision) : List Version :=
  match mode with
  | .discard => (revisions.filter fun r => !r.text.hasUnpaired).map fun r => ⟨r, r.text⟩
  | .replace => revisions.map fun r => ⟨r, r.text.replaceUnpaired⟩

/-- The versions to be stored when `count` are stored already, the last of them with the text
`last`: one at every interval, otherwise those that change the text. -/
def select (interval count : Nat) (last : Text) : List Version → List Version
  | [] => []
  | v :: rest =>
    if count % interval = 0 ∨ v.text ≠ last then v :: select interval (count + 1) v.text rest
    else select interval count last rest

/-- The text of the last of some versions. -/
def lastText (last : Text) : List Version → Text
  | [] => last
  | v :: rest => lastText v.text rest

variable {interval count : Nat} {last : Text} {vs ws : List Version}

theorem admitted_append (mode : SurrogateMode) (xs ys : List Revision) :
    admitted mode (xs ++ ys) = admitted mode xs ++ admitted mode ys := by
  cases mode <;> simp [admitted]

theorem lastText_append (last : Text) (vs ws : List Version) :
    lastText last (vs ++ ws) = lastText (lastText last vs) ws := by
  induction vs generalizing last with
  | nil => rfl
  | cons v vs ih => exact ih v.text

theorem lastText_of_getLast? {v : Version} (h : vs.getLast? = some v) : lastText last vs = v.text := by
  obtain ⟨earlier, rfl⟩ := List.getLast?_eq_some_iff.mp h
  rw [lastText_append]
  rfl

theorem select_append (interval count : Nat) (last : Text) (vs ws : List Version) :
    select interval count last (vs ++ ws) = select interval count last vs ++
      select interval (count + (select interval count last vs).length)
        (lastText last (select interval count last vs)) ws := by
  induction vs generalizing count last with
  | nil => rfl
  | cons v vs ih =>
    rw [List.cons_append, select, select]
    split
    · rw [ih, List.length_cons, lastText, List.cons_append, Nat.add_right_comm, Nat.add_assoc]
    · exact ih count last

theorem select_sublist (interval count : Nat) (last : Text) (vs : List Version) :
    List.Sublist (select interval count last vs) vs := by
  induction vs generalizing count last with
  | nil => exact .slnil
  | cons v vs ih =>
    rw [select]
    split
    · exact (ih ..).cons_cons v
    · exact (ih ..).cons v

/-- What holds of the text stored last and of all texts stored since holds of the last of them. -/
theorem lastText_mem {P : Text → Prop} (hlast : P last) (hvs : ∀ v ∈ vs, P v.text) :
    P (lastText last vs) := by
  induction vs generalizing last with
  | nil => exact hlast
  | cons v vs ih => exact ih (hvs v (by simp)) fun w hw => hvs w (by simp [hw])

end Version

open Version

/-- Diffs that store versions one after another, when `count` are stored already, the last of them
with the text `last`. A diff leads to its text from the one before it, and a full one from any. -/
inductive Stores (interval : Nat) : Nat → Text → List Version → List Diff → Prop where
  | nil {count : Nat} {last : Text} : Stores interval count last [] []
  | cons {count : Nat} {last : Text} {v : Version} {vs : List Version} {d : Diff} {ds : List Diff}
    (hcounter : d.counter = count + 1) (hid : d.revisionId = v.revision.id)
    (hfull : d.isFull = decide (count % interval = 0))
    (happly : ∀ base, d.isFull ∨ base = last → d.patch.apply base = .ok v.text)
    (hrest : Stores interval (count + 1) v.text vs ds) :
    Stores interval count last (v :: vs) (d :: ds)

namespace Stores

variable {interval count : Nat} {last : Text} {vs ws : List Version} {ds es : List Diff}

theorem append (h : Stores interval count last vs ds)
    (h' : Stores interval (count + vs.length) (lastText last vs) ws es) :
    Stores interval count last (vs ++ ws) (ds ++ es) := by
  induction h with
  | nil => exact h'
  | cons hcounter hid hfull happly _ ih =>
    refine .cons hcounter hid hfull happly (ih ?_)
    rwa [List.length_cons, Nat.add_comm _ 1, ← Nat.add_assoc] at h'

theorem drop (h : Stores interval count last vs ds) {n : Nat} (hn : n ≤ vs.length) :
    Stores interval (count + n) (lastText last (vs.take n)) (vs.drop n) (ds.drop n) := by
  induction h generalizing n with
  | nil =>
    obtain rfl := Nat.eq_zero_of_le_zero hn
    exact .nil
  | @cons count last v vs d ds hcounter hid hfull happly hrest ih =>
    cases n with
    | zero => exact .cons hcounter hid hfull happly hrest
    | succ n =>
      have htail := ih (Nat.le_of_succ_le_succ hn)
      rwa [Nat.add_assoc, Nat.add_comm 1 n] at htail

theorem take (h : Stores interval count last vs ds) (n : Nat) :
    Stores interval count last (vs.take n) (ds.take n) := by
  induction h generalizing n with
  | nil => simpa using .nil
  | cons hcounter hid hfull happly hrest ih =>
    cases n with
    | zero => exact .nil
    | succ n => exact .cons hcounter hid hfull happly (ih n)

theorem length_eq (h : Stores interval count last vs ds) : ds.length = vs.length := by
  induction h with
  | nil => rfl
  | cons _ _ _ _ _ ih => rw [List.length_cons, List.length_cons, ih]

/-- The counters go on from the number of diffs stored before, without gaps. -/
theorem map_counter (h : Stores interval count last vs ds) :
    ds.map Diff.counter = List.range' (count + 1) vs.length := by
  induction h with
  | nil => rfl
  | cons hcounter _ _ _ _ ih => rw [List.map_cons, List.length_cons, List.range'_succ, hcounter, ih]

theorem map_revisionId (h : Stores interval count last vs ds) :
    ds.map Diff.revisionId = vs.map (·.revision.id) := by
  induction h with
  | nil => rfl
  | cons _ hid _ _ _ ih => rw [List.map_cons, List.map_cons, hid, ih]

theorem map_isFull (h : Stores interval count last vs ds) :
    ds.map Diff.isFull = (List.range' count vs.length).map fun n => decide (n % interval = 0) := by
  induction h with
  | nil => rfl
  | cons _ _ hfull _ _ ih =>
    rw [List.map_cons, List.length_cons, List.range'_succ, List.map_cons, hfull, ih]

/-- A diff is full where the number of diffs before it is a multiple of the interval. -/
theorem isFull_iff (h : Stores interval count last vs ds) {d : Diff} (hd : d ∈ ds) :
    d.isFull = true ↔ (d.counter - 1) % interval = 0 := by
  induction h with
  | nil => simp at hd
  | cons hcounter _ hfull _ _ ih =>
    cases hd with
    | head => rw [hfull, hcounter, Nat.add_sub_cancel, decide_eq_true_eq]
    | tail _ hd => exact ih hd

theorem isFull_getElem (h : Stores interval count last vs ds) {i : Nat} (hi : i < ds.length) :
    ds[i].isFull = decide ((count + i) % interval = 0) := by
  have hget := congrArg (·[i]?) h.map_isFull
  have hi' : i < vs.length := h.length_eq ▸ hi
  simpa [hi, hi', List.getElem?_range'] using hget

end Stores
end EditHistory
