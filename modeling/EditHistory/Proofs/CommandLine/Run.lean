import EditHistory.CommandLine.Run
import EditHistory.Proofs.CommandLine.History

/-! What commands do to files. A command that fails leaves all of them as they were, and one that
succeeds changes none but its output. Most commands write last; a history is opened before it is
recorded, so there it matters that nothing fails from then on. -/
namespace EditHistory

/-- A later file system holds the same as an earlier one but for the place that a path leads to, if
there is one. -/
structure FileSystem.SameBut (target : Option String) (before after : FileSystem) : Prop where
  workingDirectory_eq : after.workingDirectory = before.workingDirectory
  node?_eq : ∀ l, (∀ path, target = some path → before.target path ≠ .ok l) →
    after.node? l = before.node? l

theorem FileSystem.sameBut_refl (target : Option String) (fs : FileSystem) : fs.SameBut target fs :=
  ⟨rfl, fun _ _ => rfl⟩

theorem FileSystem.sameBut_of_write {before after : FileSystem} {path : String} {content : Bytes}
    (h : before.write path content = .ok after) : before.SameBut (some path) after := by
  obtain ⟨l, htarget, rfl⟩ := write_eq_ok.mp h
  have hl := ne_nil_of_not_directory (target_eq_ok htarget).2.2
  refine ⟨rfl, fun k hk => ?_⟩
  rw [node?_put before hl, if_neg]
  rintro rfl
  exact hk path rfl htarget

namespace CommandLine

variable {files after : FileSystem} {target : Option String} {force : Bool} {output : Bytes}

/-- A command with such an output either succeeds and changes nothing but its output, or fails and
changes nothing; and it fails where the output exists and is not to be replaced. -/
structure Outcome.IsAtomic (r : Outcome) (before : FileSystem) (target : Option String) (force : Bool) :
    Prop where
  changes : r.exitCode = 0 ∧ before.SameBut target r.files ∨ r.exitCode = 1 ∧ r.files = before
  spares : ∀ path, target = some path → before.doesExist path = true → force = false → r.exitCode = 1

theorem isAtomic_failure (files : FileSystem) (message : String) (target : Option String)
    (force : Bool) : (Outcome.failure files message).IsAtomic files target force :=
  ⟨.inr ⟨rfl, rfl⟩, fun _ _ _ _ => rfl⟩

/-- A command without an output file does not change any. -/
theorem isAtomic_same (files : FileSystem) (output notes : Bytes) (force : Bool) :
    Outcome.IsAtomic ⟨files, 0, output, notes⟩ files none force :=
  ⟨.inl ⟨rfl, files.sameBut_refl none⟩, nofun⟩

theorem isAtomic_deliver {content : Bytes}
    (h : deliver files target force content = .ok (after, output)) (notes : Bytes) :
    Outcome.IsAtomic ⟨after, 0, output, notes⟩ files target force := by
  cases target with
  | none =>
    obtain ⟨rfl, -⟩ := Prod.mk.inj (Except.ok.inj h)
    exact isAtomic_same files output notes force
  | some path =>
    obtain ⟨hopen, hwrite⟩ := write_of_deliver h
    refine ⟨.inl ⟨rfl, FileSystem.sameBut_of_write hwrite⟩, ?_⟩
    intro other hother hexists hforce
    obtain rfl := Option.some.inj hother
    rw [hopen hexists] at hforce
    cases hforce

section Commands

variable [Compressor]

theorem DiffOptions.isAtomic_run (d : DiffOptions) (o : Options) (files : FileSystem) :
    (d.run o files).IsAtomic files d.output o.force := by
  rw [run]
  cases hcompute : d.compute files with
  | error message => exact isAtomic_failure files message d.output o.force
  | ok r =>
    simp only [bind, Except.bind]
    cases hdeliver : deliver files d.output o.force r.content with
    | error message => exact isAtomic_failure files message d.output o.force
    | ok done => exact isAtomic_deliver hdeliver _

theorem ApplyOptions.isAtomic_run (a : ApplyOptions) (o : Options) (files : FileSystem) :
    (a.run o files).IsAtomic files a.output o.force := by
  rw [run]
  cases hcompute : a.compute files with
  | error message => exact isAtomic_failure files message a.output o.force
  | ok text =>
    simp only [bind, Except.bind]
    cases hdeliver : deliver files a.output o.force (Utf8.encodeLossy text) with
    | error message => exact isAtomic_failure files message a.output o.force
    | ok done => exact isAtomic_deliver hdeliver _

theorem InspectOptions.isAtomic_run (i : InspectOptions) (o : Options) (files : FileSystem) :
    (i.run o files).IsAtomic files none o.force := by
  rw [run]
  cases i.compute files with
  | error message => exact isAtomic_failure files message none o.force
  | ok listing => exact isAtomic_same files _ _ o.force

/-- Once its output is open, a history cannot fail any more. -/
theorem HistoryOptions.isAtomic_run (h : HistoryOptions) (o : Options) (files : FileSystem)
    (htexts : ∀ path ∈ h.files, ∀ text, files.readText path = .ok text → 3 * text.length < 1 <<< 31)
    (hcount : h.files.length < Task.partLimit) :
    (h.run o files).IsAtomic files h.output o.force := by
  rw [run]
  cases hprepare : h.prepare files with
  | error message => exact isAtomic_failure files message h.output o.force
  | ok revisions =>
    rw [prepare] at hprepare
    obtain ⟨-, -, hread⟩ := bind_eq_ok.mp hprepare
    obtain ⟨texts, hfiles, rfl⟩ := exists_texts_of_readRevisions hread
    have hshort : ∀ text ∈ texts, 3 * text.length < 1 <<< 31 := by
      intro text htext
      obtain ⟨i, hi, rfl⟩ := List.getElem_of_mem htext
      have hpath : i < h.files.length := hfiles.length_eq ▸ hi
      exact htexts _ (List.getElem_mem hpath) _ (hfiles.get hpath hi)
    obtain ⟨r, hrecord, -, -, hcheck⟩ := exists_record_files h hcount hfiles hshort
    obtain ⟨notes, hverdict⟩ := verdict_eq (h := h) (o := o) fun _ => hcheck
    simp only [hrecord]
    cases hdeliver : deliver files h.output o.force (r.lines.flatMap HistoryLine.written) with
    | error message => exact isAtomic_failure files message h.output o.force
    | ok done =>
      dsimp only
      rw [hverdict]
      exact isAtomic_deliver hdeliver notes

/-- The file that the output of a command goes to, if it goes to one. -/
def Command.output? : Command → Option String
  | .diff d => d.output
  | .apply a => a.output
  | .history h => h.output
  | .inspect _ | .config => none

/-- The files that a command takes for revisions. -/
def Command.revisions : Command → List String
  | .diff d => [d.previous, d.current]
  | .apply a => [a.previous]
  | .history h => h.files
  | .inspect _ | .config => []

/-- Commands are atomic. With revisions short enough for their payloads, and fewer of them than there are
32-bit words to number tasks in, as on any command line, a command either succeeds and changes no file but
its output, or fails and leaves every file as it was; and where its output exists it fails unless it may be
replaced. -/
theorem Options.run_isAtomic (o : Options) (files : FileSystem)
    (htexts : ∀ path ∈ o.command.revisions, ∀ text, files.readText path = .ok text →
      3 * text.length < 1 <<< 31)
    (hcount : o.command.revisions.length < Task.partLimit) :
    (o.run files).IsAtomic files o.command.output? o.force := by
  rw [run]
  cases hcommand : o.command with
  | diff d => exact d.isAtomic_run o files
  | apply a => exact a.isAtomic_run o files
  | inspect i => exact i.isAtomic_run o files
  | history h =>
    rw [hcommand] at htexts hcount
    exact h.isAtomic_run o files htexts hcount
  | config => exact isAtomic_same files [] _ o.force

end Commands

/-- Two files that are to be recorded in place of a third one, without force. -/
theorem Options.run_isAtomic_existing_output :
    let files : FileSystem := ⟨[(["old"], .file [0x61]), (["new"], .file [0x61, 0xC3, 0xA4]),
      (["log"], .file [0x0A])], []⟩
    let o : Options := ⟨.history ⟨["old", "./new"], some "log", ⟨7, "Lean"⟩, true, Settings.default⟩,
      false, false, 0, false⟩
    (o.run files).exitCode = 1 ∧ (o.run files).files = files := by
  intro files o
  have h := Options.run_isAtomic o files ?_ (by decide)
  · have hfails : (o.run files).exitCode = 1 := h.spares "log" rfl (by decide +kernel) rfl
    refine ⟨hfails, ?_⟩
    rcases h.changes with ⟨hsucceeds, -⟩ | ⟨-, hsame⟩
    · exact absurd (hsucceeds.symm.trans hfails) (by decide)
    · exact hsame
  · have hold : files.readText "old" = .ok [0x61] := by decide +kernel
    have hnew : files.readText "./new" = .ok [0x61, 0xE4] := by decide +kernel
    intro path hpath text htext
    rcases List.mem_cons.mp hpath with rfl | hpath
    · obtain rfl := Except.ok.inj (hold.symm.trans htext)
      decide
    · obtain rfl := List.mem_singleton.mp hpath
      obtain rfl := Except.ok.inj (hnew.symm.trans htext)
      decide

end CommandLine
end EditHistory
