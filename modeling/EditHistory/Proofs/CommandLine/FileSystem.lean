import EditHistory.CommandLine.Outcome
import EditHistory.Proofs.Result

/-! What is written to a file is read back from it. A path leads through directories only, and a write
replaces none, so the path leads to the same place afterwards. -/
namespace EditHistory
namespace FileSystem

variable {fs : FileSystem} {l here : Location} {path : String}

theorem ne_nil_of_not_directory (h : fs.node? l ≠ some .directory) : l ≠ [] := by
  rintro rfl
  exact h rfl

/-- A walk goes on as before when a file is put where no directory is. -/
theorem walk_put (hl : fs.node? l ≠ some .directory) (content : Bytes) {names : List String}
    {there : Location} (h : fs.walk here names = .ok there) :
    (fs.put l (.file content)).walk here names = .ok there := by
  induction names generalizing here with
  | nil => exact h
  | cons name rest ih =>
    have hdirectory : fs.node? here = some .directory := by
      rw [walk] at h
      split at h
      · cases h
      · cases h
      · assumption
    have hne : here ≠ l := fun heq => hl (heq ▸ hdirectory)
    have hkept : (fs.put l (.file content)).node? here = some .directory := by
      rw [node?_put fs (ne_nil_of_not_directory hl), if_neg hne, hdirectory]
    simp only [walk, hdirectory, hkept] at h ⊢
    by_cases hdot : name = "."
    · rw [if_pos hdot] at h ⊢
      exact ih h
    · rw [if_neg hdot] at h ⊢
      by_cases hparent : name = ".."
      · rw [if_pos hparent] at h ⊢
        exact ih h
      · rw [if_neg hparent] at h ⊢
        by_cases hlong : maxNameLength < name.utf8ByteSize
        · rw [if_pos hlong] at h
          cases h
        · rw [if_neg hlong] at h ⊢
          exact ih h

theorem locate_put (hl : fs.node? l ≠ some .directory) (content : Bytes) {names : List String}
    {there : Location} (h : fs.locate path names = .ok there) :
    (fs.put l (.file content)).locate path names = .ok there := by
  rw [locate] at h ⊢
  by_cases hnul : '\x00' ∈ path.toList
  · rw [if_pos hnul] at h
    cases h
  · rw [if_neg hnul] at h ⊢
    by_cases hlong : maxPathLength < path.utf8ByteSize
    · rw [if_pos hlong] at h
      cases h
    · rw [if_neg hlong] at h ⊢
      exact walk_put hl content h

/-- Where a path may be written, it names no directory and leads to none. -/
theorem target_eq_ok (h : fs.target path = .ok l) :
    namesDirectory path = false ∧ fs.locate path (pathNames path) = .ok l ∧
      fs.node? l ≠ some .directory := by
  rw [target] at h
  by_cases hnames : namesDirectory path = true
  · simp only [if_pos hnames] at h
    obtain ⟨there, -, h⟩ := bind_eq_ok.mp h
    cases h
  · simp only [if_neg hnames] at h
    obtain ⟨there, hlocate, h⟩ := bind_eq_ok.mp h
    by_cases hdirectory : fs.node? there = some .directory
    · simp only [hdirectory, beq_self_eq_true, if_true] at h
      cases h
    · have hother : (fs.node? there == some .directory) = false := by simpa using hdirectory
      rw [hother] at h
      obtain rfl := Except.ok.inj h
      exact ⟨eq_false_of_ne_true hnames, hlocate, hdirectory⟩

theorem write_eq_ok {content : Bytes} {after : FileSystem} : fs.write path content = .ok after ↔
    ∃ l, fs.target path = .ok l ∧ fs.put l (.file content) = after := by
  rw [write, bind_eq_ok]
  exact exists_congr fun l => and_congr_right fun _ => ⟨Except.ok.inj, congrArg _⟩

/-- What is written is read back. -/
theorem readBytes_write {content : Bytes} {after : FileSystem}
    (h : fs.write path content = .ok after) : after.readBytes path = .ok content := by
  obtain ⟨l, htarget, rfl⟩ := write_eq_ok.mp h
  obtain ⟨hnames, hlocate, hdirectory⟩ := target_eq_ok htarget
  have hnode : (fs.put l (.file content)).node? l = some (.file content) := by
    rw [node?_put fs (ne_nil_of_not_directory hdirectory), if_pos rfl]
  have hfind : (fs.put l (.file content)).find path = .ok (l, .file content) := by
    rw [find, hnames]
    simp only [Bool.false_eq_true, if_false, List.append_nil, locate_put hdirectory content hlocate,
      bind, Except.bind, hnode]
    rfl
  rw [readBytes, hfind]
  rfl

/-! ## Other files -/

/-- A write through the one path leaves what the other one leads to. -/
def Apart (fs : FileSystem) (output input : String) : Prop :=
  ∀ l n, fs.find input = .ok (l, n) → fs.target output ≠ .ok l

variable {output : String} {content bytes : Bytes} {after : FileSystem}

/-- What stands at another place is still found there. -/
theorem find_put {k : Location} {n : Node} (hl : fs.node? l ≠ some .directory) (hk : k ≠ l)
    (h : fs.find path = .ok (k, n)) : (fs.put l (.file content)).find path = .ok (k, n) := by
  rw [find] at h
  obtain ⟨there, hlocate, h⟩ := bind_eq_ok.mp h
  cases hnode : fs.node? there with
  | none =>
    rw [hnode] at h
    cases h
  | some m =>
    rw [hnode] at h
    obtain ⟨rfl, rfl⟩ := Prod.mk.inj (Except.ok.inj h)
    rw [find]
    refine bind_eq_ok.mpr ⟨there, locate_put hl content hlocate, ?_⟩
    rw [node?_put fs (ne_nil_of_not_directory hl), if_neg hk, hnode]
    rfl

theorem readBytes_of_apart (hwrite : fs.write output content = .ok after)
    (hapart : fs.Apart output path) (h : fs.readBytes path = .ok bytes) :
    after.readBytes path = .ok bytes := by
  obtain ⟨l, htarget, rfl⟩ := write_eq_ok.mp hwrite
  rw [readBytes] at h ⊢
  obtain ⟨⟨k, n⟩, hfind, h⟩ := bind_eq_ok.mp h
  have hk : k ≠ l := by
    rintro rfl
    exact hapart k n hfind htarget
  exact bind_eq_ok.mpr ⟨(k, n), find_put (target_eq_ok htarget).2.2 hk hfind, h⟩

theorem readText_eq_ok {text : Text} : fs.readText path = .ok text ↔
    ∃ bytes, fs.readBytes path = .ok bytes ∧ Utf8.decode bytes = .ok text := by
  rw [readText, bind_eq_ok]
  exact exists_congr fun bytes => and_congr_right fun _ => mapError_eq_ok

theorem readText_of_apart {text : Text} (hwrite : fs.write output content = .ok after)
    (hapart : fs.Apart output path) (h : fs.readText path = .ok text) :
    after.readText path = .ok text := by
  obtain ⟨bytes, hbytes, hdecode⟩ := readText_eq_ok.mp h
  exact readText_eq_ok.mpr ⟨bytes, readBytes_of_apart hwrite hapart hbytes, hdecode⟩

end FileSystem
end EditHistory
