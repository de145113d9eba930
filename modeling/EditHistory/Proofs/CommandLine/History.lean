import EditHistory.Proofs.Archive.History
import EditHistory.Proofs.Archive.Selection
import EditHistory.Proofs.CommandLine.FileSystem
import EditHistory.Proofs.CommandLine.Lines
import EditHistory.Proofs.Text.Utf8

/-! The history of text files. Recording succeeds for all files that can be read, and the lines that are
written are enough to rebuild the files: nothing else has to be kept. -/
namespace EditHistory

theorem Version.admitted_of_valid (mode : SurrogateMode) {revisions : List Revision}
    (h : ∀ r ∈ revisions, r.text.hasUnpaired = false) :
    admitted mode revisions = revisions.map fun r => ⟨r, r.text⟩ := by
  cases mode with
  | discard =>
    rw [admitted, List.filter_eq_self.mpr fun r hr => by simp [h r hr]]
  | replace =>
    refine List.map_congr_left fun r hr => ?_
    rw [Text.replaceUnpaired_of_not_hasUnpaired (h r hr)]

namespace CommandLine

/-! ## Files as revisions -/

/-- The revisions that files with these texts are. -/
def revisionsOf (paths : List String) (texts : List Text) : List Revision :=
  (paths.zip texts).mapIdx fun i x => HistoryOptions.revision i x.1 x.2

variable {files : FileSystem} {paths : List String} {texts : List Text} {interval count : Nat}
  {last : Text} {vs : List Version} {ds : List Diff}

theorem length_revisionsOf (h : paths.length = texts.length) :
    (revisionsOf paths texts).length = texts.length := by
  simp [revisionsOf, h]

theorem map_text_revisionsOf (h : paths.length = texts.length) :
    (revisionsOf paths texts).map (·.text) = texts := by
  refine List.ext_getElem (by simp [length_revisionsOf h]) fun i hi hi' => ?_
  simp [revisionsOf, HistoryOptions.revision]

theorem map_id_revisionsOf (paths : List String) (texts : List Text) :
    (revisionsOf paths texts).map (·.id) = List.range' 1 (revisionsOf paths texts).length := by
  refine List.ext_getElem (by simp) fun i hi hi' => ?_
  simp [revisionsOf, HistoryOptions.revision, Nat.add_comm]

/-- The versions of files are numbered from one on. -/
theorem numbered_revisionsOf (paths : List String) (texts : List Text) :
    Version.Numbered ((revisionsOf paths texts).map fun r => ⟨r, r.text⟩) := by
  rw [Version.Numbered, List.map_map, List.length_map]
  exact map_id_revisionsOf paths texts

theorem pairwise_revisionsOf (paths : List String) (texts : List Text) :
    (revisionsOf paths texts).Pairwise fun x y => x.notAfter y := by
  refine List.pairwise_iff_getElem.mpr fun i j hi hj hij => ?_
  have hlater : (i : Int) < j := by omega
  have hother : Instant.ofSeconds i ≠ Instant.ofSeconds j := fun heq =>
    Int.ne_of_lt hlater (congrArg Instant.seconds heq)
  simp only [revisionsOf, List.getElem_mapIdx, HistoryOptions.revision, Revision.notAfter, if_neg hother]
  simp [Instant.notAfter, Instant.ofSeconds, hlater]

/-- A file that is read as text has no unpaired surrogate in it. -/
theorem hasUnpaired_of_readText {path : String} {text : Text} (h : files.readText path = .ok text) :
    text.hasUnpaired = false := by
  obtain ⟨bytes, -, hdecode⟩ := FileSystem.readText_eq_ok.mp h
  exact Utf8.hasUnpaired_of_decode hdecode

theorem hasUnpaired_of_files
    (hfiles : List.Forall₂ (fun path text => files.readText path = .ok text) paths texts) :
    ∀ text ∈ texts, text.hasUnpaired = false := by
  induction hfiles with
  | nil => simp
  | cons hfirst _ ih => exact List.forall_mem_cons.mpr ⟨hasUnpaired_of_readText hfirst, ih⟩

theorem mapM_readRevision : paths.mapM (readRevision files) = .ok texts ↔
    List.Forall₂ (fun path text => files.readText path = .ok text) paths texts := by
  simp only [mapM_eq_ok, readRevision, faultAt, mapError_eq_ok]

theorem readRevisions_eq {h : HistoryOptions}
    (hfiles : List.Forall₂ (fun path text => files.readText path = .ok text) h.files texts) :
    h.readRevisions files = .ok (revisionsOf h.files texts) := by
  rw [HistoryOptions.readRevisions, mapM_readRevision.mpr hfiles]
  rfl

theorem exists_texts_of_readRevisions {h : HistoryOptions} {revisions : List Revision}
    (hread : h.readRevisions files = .ok revisions) :
    ∃ texts, List.Forall₂ (fun path text => files.readText path = .ok text) h.files texts ∧
      revisions = revisionsOf h.files texts := by
  rw [HistoryOptions.readRevisions] at hread
  obtain ⟨texts, hmapM, hread⟩ := bind_eq_ok.mp hread
  exact ⟨texts, mapM_readRevision.mp hmapM, (Except.ok.inj hread).symm⟩

/-! ## The replay check -/

/-- A version is found among the revisions by its id, which counts from one. -/
def IsNamed (revisions : List Revision) (v : Version) : Prop :=
  v.revision.id ≠ 0 ∧ ∃ r, revisions[v.revision.id - 1]? = some r ∧ r.text = v.text

theorem forM_checkReplayed {revisions : List Revision} (h : Stores interval count last vs ds)
    (hnamed : ∀ v ∈ vs, IsNamed revisions v) :
    (ds.zip (vs.map (·.text))).forM (fun x => HistoryOptions.checkReplayed revisions x.1 x.2) =
      .ok () := by
  induction h with
  | nil => rfl
  | @cons count last v vs d ds _ hid _ _ _ ih =>
    obtain ⟨⟨hpos, r, hfound, htext⟩, hvs⟩ := List.forall_mem_cons.mp hnamed
    have hagrees : HistoryOptions.checkReplayed revisions d v.text = .ok () := by
      rw [HistoryOptions.checkReplayed, HistoryOptions.named?, hid, if_neg hpos, hfound]
      exact if_pos (by rw [htext])
    rw [List.map_cons, List.zip_cons_cons, List.forM, hagrees]
    exact ih hvs

/-- A replay of the diffs agrees with the revisions. -/
theorem exists_checkReplay {revisions : List Revision} (h : Stores interval 0 last vs ds)
    (hword : vs.length < Decimal.wordLimit) (hnamed : ∀ v ∈ vs, IsNamed revisions v) :
    ∃ n, HistoryOptions.checkReplay revisions ds = .ok n := by
  refine ⟨(vs.map (·.text)).length, ?_⟩
  rw [HistoryOptions.checkReplay, h.reconstructAll_eq hword]
  simp only [Except.mapError, bind, Except.bind, forM_checkReplayed h hnamed]
  rfl

/-- Revisions that are numbered from one on are found by their ids. -/
theorem isNamed_of_numbered {revisions : List Revision}
    (h : Version.Numbered (revisions.map fun r => (⟨r, r.text⟩ : Version))) {v : Version}
    (hv : v ∈ revisions.map fun r => (⟨r, r.text⟩ : Version)) : IsNamed revisions v := by
  have hid := List.mem_map_of_mem (f := fun v : Version => v.revision.id) hv
  rw [h, List.mem_range'_1] at hid
  have htext := h.text_of_mem hv
  rw [List.map_map, List.getElem?_map, Option.map_eq_some_iff] at htext
  obtain ⟨r, hfound, hsame⟩ := htext
  exact ⟨Nat.ne_of_gt hid.1, r, hfound, hsame⟩

/-! ## What a command comes to -/

/-- A command leaves a content where its output goes. -/
def Outcome.Delivers (r : Outcome) (before : FileSystem) (target : Option String) (content : Bytes) : Prop :=
  match target with
  | none => r.output = content ∧ r.files = before
  | some path => r.files.readBytes path = .ok content ∧ r.output = []

theorem Outcome.Delivers.content_inj {r : Outcome} {target : Option String} {content content' : Bytes}
    (h : r.Delivers files target content) (h' : r.Delivers files target content') :
    content = content' := by
  cases target with
  | none => exact h.1.symm.trans h'.1
  | some path => exact Except.ok.inj (h.1.symm.trans h'.1)

/-- The output can be opened: a file that exists is to be replaced. -/
def CanDeliver (files : FileSystem) (target : Option String) (force : Bool) : Prop :=
  ∀ path, target = some path →
    (files.doesExist path = true → force = true) ∧ ∃ l, files.target path = .ok l

theorem exists_deliver {target : Option String} {force : Bool} (h : CanDeliver files target force)
    (content : Bytes) : ∃ after output, deliver files target force content = .ok (after, output) ∧
      ∀ exitCode notes, Outcome.Delivers ⟨after, exitCode, output, notes⟩ files target content := by
  cases target with
  | none => exact ⟨files, content, rfl, fun _ _ => ⟨rfl, rfl⟩⟩
  | some path =>
    obtain ⟨hforce, l, htarget⟩ := h path rfl
    have hwrite : files.write path content = .ok (files.put l (.file content)) :=
      FileSystem.write_eq_ok.mpr ⟨l, htarget, rfl⟩
    refine ⟨files.put l (.file content), [], ?_, fun _ _ => ⟨FileSystem.readBytes_write hwrite, rfl⟩⟩
    have hopen : (files.doesExist path && !force) = false := by
      cases hexists : files.doesExist path with
      | false => rfl
      | true => simp [hforce hexists]
    rw [deliver, hopen, hwrite]
    rfl

/-- A file that is delivered is written; one that exists is replaced by force only. -/
theorem write_of_deliver {path : String} {force : Bool} {content output : Bytes} {after : FileSystem}
    (h : deliver files (some path) force content = .ok (after, output)) :
    (files.doesExist path = true → force = true) ∧ files.write path content = .ok after := by
  rw [deliver] at h
  split at h
  · cases h
  · rename_i hopen
    obtain ⟨after', hwrite, h⟩ := map_eq_ok.mp h
    obtain ⟨rfl, -⟩ := Prod.mk.inj h
    refine ⟨fun hexists => ?_, mapError_eq_ok.mp hwrite⟩
    simpa [hexists] using hopen

/-- A replay that agrees, if there is one, makes for a success. -/
theorem verdict_eq {h : HistoryOptions} {o : Options} {revisions : List Revision} {r : Recording}
    (hreplay : h.replayCheck = true → ∃ n, HistoryOptions.checkReplay revisions r.stored = .ok n) :
    ∃ notes, h.verdict o revisions r none = (0, notes) := by
  have hconclude : ∃ notes, h.conclude o revisions r = .ok notes := by
    rw [HistoryOptions.conclude]
    cases hcheck : h.replayCheck with
    | false => exact ⟨_, rfl⟩
    | true =>
      obtain ⟨n, hn⟩ := hreplay hcheck
      rw [hn]
      exact ⟨_, rfl⟩
  obtain ⟨notes, hnotes⟩ := hconclude
  exact ⟨notes, by simp only [HistoryOptions.verdict, hnotes]⟩

/-! ## Lines as a history -/

section Lines

variable [Compressor]

/-- The text that the payload of a line makes of the one before. -/
def HistoryLine.rebuild (codec : Codec) (base : Text) (l : HistoryLine) : Except DeltaError Text := do
  let (_, patch) ← (codec.decodeText l.payload).mapError .decode
  (patch.apply base).mapError .apply

/-- The texts that the payloads of lines lead through, line by line from a text on. -/
def rebuildAll (codec : Codec) : Text → List HistoryLine → Except DeltaError (List Text)
  | _, [] => .ok []
  | base, l :: rest => do
    let text ← l.rebuild codec base
    return text :: (← rebuildAll codec text rest)

/-- Lines that alone lead back to the texts of the files that they name by their positions, from one on.
They name all files but those with nothing new at a place where no full diff is due. -/
structure Rebuilds (settings : Settings) (texts : List Text) (lines : List HistoryLine) : Prop where
  counters : lines.map (·.counter) = List.range' 1 lines.length
  payloads : ∀ l ∈ lines, ∃ patch, settings.codec.decodeText l.payload = .ok (l.widths, patch) ∧
    patch.length = l.edits
  named : ∀ l ∈ lines, 0 < l.revisionId ∧ l.revisionId ≤ texts.length
  ascending : (lines.map (·.revisionId)).Pairwise (· < ·)
  rebuilt : ∃ rebuilt, rebuildAll settings.codec [] lines = .ok rebuilt ∧
    rebuilt.map some = lines.map fun l => texts[l.revisionId - 1]?
  dropped : ∀ i < texts.length, i + 1 ∉ lines.map (·.revisionId) ↔
    Version.IsUnchanged settings.interval texts (lines.map (·.revisionId)) i

variable {settings : Settings} {lines : List HistoryLine}

theorem HistoryLine.Tells.rebuild_eq {codec : Codec} {l : HistoryLine} {d : Diff} {text : Text}
    (h : l.Tells codec d) (happly : d.patch.apply last = .ok text) : l.rebuild codec last = .ok text := by
  rw [rebuild, h.decodeText_eq]
  simp only [Except.mapError, bind, Except.bind, happly]

/-- Lines that tell the diffs of versions lead through the texts of the versions. -/
theorem rebuildAll_eq {codec : Codec} (htells : List.Forall₂ (HistoryLine.Tells codec) lines ds)
    (h : Stores interval count last vs ds) : rebuildAll codec last lines = .ok (vs.map (·.text)) := by
  induction h generalizing lines with
  | nil =>
    cases htells
    rfl
  | @cons count last v vs d ds _ _ _ happly _ ih =>
    cases htells with
    | cons hfirst hrest =>
      rw [rebuildAll, hfirst.rebuild_eq (happly last (.inr rfl))]
      simp only [bind, Except.bind, ih hrest]
      rfl

theorem map_eq_of_tells {codec : Codec} (htells : List.Forall₂ (HistoryLine.Tells codec) lines ds) :
    lines.map (·.counter) = ds.map Diff.counter ∧ lines.map (·.revisionId) = ds.map Diff.revisionId := by
  induction htells with
  | nil => exact ⟨rfl, rfl⟩
  | cons hfirst _ ih =>
    simp only [List.map_cons, hfirst.counter_eq, hfirst.revisionId_eq, ih.1, ih.2, and_self]

theorem exists_patch_of_tells {codec : Codec} (htells : List.Forall₂ (HistoryLine.Tells codec) lines ds) :
    ∀ l ∈ lines, ∃ patch, codec.decodeText l.payload = .ok (l.widths, patch) ∧ patch.length = l.edits := by
  induction htells with
  | nil => simp
  | @cons l d lines ds hfirst _ ih =>
    refine List.forall_mem_cons.mpr ⟨?_, ih⟩
    exact ⟨d.patch, hfirst.decodeText_eq, hfirst.edits_eq.symm⟩

/-- Lines for the diffs that store numbered versions rebuild their texts. -/
theorem rebuilds_of_tells (hnumbered : Version.Numbered vs)
    (htells : List.Forall₂ (HistoryLine.Tells settings.codec) lines ds)
    (h : Stores settings.interval 0 [] (Version.select settings.interval 0 [] vs) ds) :
    Rebuilds settings (vs.map (·.text)) lines := by
  obtain ⟨hcounters, hids⟩ := map_eq_of_tells htells
  rw [h.map_revisionId] at hids
  have hlength : lines.length = (Version.select settings.interval 0 [] vs).length := by
    rw [htells.length_eq, h.length_eq]
  have hsub := Version.select_sublist settings.interval 0 [] vs
  refine ⟨?_, exists_patch_of_tells htells, ?_, ?_, ?_, ?_⟩
  · rw [hcounters, h.map_counter, hlength]
  · intro l hl
    have hmem : l.revisionId ∈ (Version.select settings.interval 0 [] vs).map (·.revision.id) :=
      hids ▸ List.mem_map_of_mem hl
    have hall := (hsub.map (·.revision.id)).subset hmem
    rw [hnumbered, List.mem_range'_1] at hall
    rw [List.length_map]
    omega
  · rw [hids]
    refine (List.Pairwise.sublist (hsub.map (·.revision.id)) ?_)
    rw [hnumbered]
    exact List.pairwise_lt_range'
  · refine ⟨_, rebuildAll_eq htells h, ?_⟩
    have hfound : lines.map (fun l => (vs.map (·.text))[l.revisionId - 1]?) =
        (lines.map (·.revisionId)).map fun id => (vs.map (·.text))[id - 1]? := by
      rw [List.map_map]
      rfl
    rw [hfound, hids, List.map_map, List.map_map]
    refine List.map_congr_left fun v hv => ?_
    exact (hnumbered.text_of_mem (hsub.subset hv)).symm
  · intro i hi
    rw [hids]
    exact hnumbered.not_mem_select_iff (by simpa using hi)

/-! ## The command -/

/-- Revisions are recorded to the last one. -/
theorem exists_record (h : HistoryOptions) {revisions : List Revision}
    (hcount : revisions.length < Task.partLimit) (hsorted : revisions.Pairwise fun x y => x.notAfter y)
    (htexts : ∀ r ∈ revisions, r.text.IsShort) :
    ∃ r, h.record revisions = (r, none) ∧
      Stores h.settings.interval 0 [] (h.settings.versions revisions) r.stored ∧
      List.Forall₂ (HistoryLine.IsFor h.settings.codec) r.lines r.stored := by
  have hcompleted : Task.completed h.heading h.settings.inputLimit revisions < Task.partLimit :=
    Nat.lt_of_le_of_lt (Task.completed_le ..) hcount
  obtain ⟨ds, hstores, hrecorded⟩ := Recorder.exists_go_start hcompleted hsorted htexts
  have hgo : Sharding.recordArticle.go h.settings Recording.start.recorder
      (Task.split h.heading h.settings.inputLimit revisions) =
        .ok (Task.split h.heading h.settings.outputLimit ds) := hrecorded
  have hstart : Recording.start.recorder.state.Measured h.settings.codec.charset := trivial
  obtain ⟨recorder, lines, hfold, hlines⟩ := exists_foldlM_step hgo (Recorder.measured_go hstart hgo)
  rw [Task.flatMap_items_split] at hfold hlines
  refine ⟨⟨recorder, lines, ds⟩, ?_, hstores, hlines⟩
  rw [HistoryOptions.record, hfold]
  rfl

/-- Files that can be read are recorded to the last one, and a replay agrees with them. -/
theorem exists_record_files (h : HistoryOptions) (hcount : h.files.length < Task.partLimit)
    (hfiles : List.Forall₂ (fun path text => files.readText path = .ok text) h.files texts)
    (htexts : ∀ text ∈ texts, 3 * text.length < 1 <<< 31) :
    ∃ r, h.record (revisionsOf h.files texts) = (r, none) ∧
      Stores h.settings.interval 0 [] (Version.select h.settings.interval 0 []
        ((revisionsOf h.files texts).map fun r => ⟨r, r.text⟩)) r.stored ∧
      List.Forall₂ (HistoryLine.IsFor h.settings.codec) r.lines r.stored ∧
      ∃ n, HistoryOptions.checkReplay (revisionsOf h.files texts) r.stored = .ok n := by
  have hlength : h.files.length = texts.length := hfiles.length_eq
  have hrevisions : (revisionsOf h.files texts).length < Task.partLimit := by
    rwa [length_revisionsOf hlength, ← hlength]
  have htext : ∀ r ∈ revisionsOf h.files texts, r.text ∈ texts := by
    intro r hr
    have hmem := List.mem_map_of_mem (f := fun r : Revision => r.text) hr
    rwa [map_text_revisionsOf hlength] at hmem
  have hshort : ∀ r ∈ revisionsOf h.files texts, r.text.IsShort :=
    fun r hr => Text.isShort_of_lt (htexts r.text (htext r hr))
  have hunpaired : ∀ r ∈ revisionsOf h.files texts, r.text.hasUnpaired = false :=
    fun r hr => hasUnpaired_of_files hfiles r.text (htext r hr)
  -- files hold no unpaired surrogates, so all of them are versions, whatever the surrogate mode
  obtain ⟨r, hrecord, hstores, hlines⟩ :=
    exists_record h hrevisions (pairwise_revisionsOf h.files texts) hshort
  rw [Settings.versions, Version.admitted_of_valid _ hunpaired] at hstores
  have hsub := Version.select_sublist h.settings.interval 0 []
    ((revisionsOf h.files texts).map fun r => ⟨r, r.text⟩)
  refine ⟨r, hrecord, hstores, hlines, exists_checkReplay hstores ?_ ?_⟩
  · have hle := hsub.length_le
    rw [List.length_map] at hle
    exact Nat.lt_trans (Nat.lt_of_le_of_lt hle hrevisions) (by decide)
  · exact fun v hv => isNamed_of_numbered (numbered_revisionsOf h.files texts) (hsub.subset hv)

/-- The lines that files are recorded in rebuild them. -/
theorem rebuilds_of_files (hpack : Compressor.IsFaithful) {h : HistoryOptions}
    (hfiles : List.Forall₂ (fun path text => files.readText path = .ok text) h.files texts)
    (hlines : List.Forall₂ (HistoryLine.IsFor h.settings.codec) lines ds)
    (hstores : Stores h.settings.interval 0 [] (Version.select h.settings.interval 0 []
      ((revisionsOf h.files texts).map fun r => ⟨r, r.text⟩)) ds) :
    Rebuilds h.settings texts lines := by
  have htells := hlines.imp fun _ _ hline => hline.tells hpack
  have hrebuilds := rebuilds_of_tells (numbered_revisionsOf h.files texts) htells hstores
  rwa [List.map_map, show ((fun v : Version => v.text) ∘ fun r : Revision => ⟨r, r.text⟩) =
    fun r => r.text from rfl, map_text_revisionsOf hfiles.length_eq] at hrebuilds

/-- A history file alone rebuilds its history. Under settings that are valid, with a compressor that
gives back what it packed, and where the output can be opened, recording any files that can be read
succeeds, with a replay check or without one; and what is written consists of lines that rebuild the
files, and of no other lines. Tasks are numbered in 32-bit words, so there are fewer files than these, as
there are on any command line. -/
theorem HistoryOptions.run_rebuilds (hpack : Compressor.IsFaithful) (h : HistoryOptions) (o : Options)
    (files : FileSystem) (texts : List Text) (hvalid : h.settings.validate = .ok ())
    (hfiles : List.Forall₂ (fun path text => files.readText path = .ok text) h.files texts)
    (htexts : ∀ text ∈ texts, 3 * text.length < 1 <<< 31)
    (hcount : h.files.length < Task.partLimit)
    (houtput : CanDeliver files h.output o.force) :
    (h.run o files).exitCode = 0 ∧ ∃ lines,
      (h.run o files).Delivers files h.output (lines.flatMap HistoryLine.written) ∧
        (∀ found, (h.run o files).Delivers files h.output (found.flatMap HistoryLine.written) →
          found = lines) ∧
        Rebuilds h.settings texts lines := by
  have hprepare : h.prepare files = .ok (revisionsOf h.files texts) := by
    rw [prepare, Recorder.create, hvalid]
    exact readRevisions_eq hfiles
  obtain ⟨r, hrecord, hstores, hlines, hcheck⟩ := exists_record_files h hcount hfiles htexts
  have hrebuilds := rebuilds_of_files hpack hfiles hlines hstores
  obtain ⟨notes, hverdict⟩ := verdict_eq (h := h) (o := o) fun _ => hcheck
  obtain ⟨after, output, hdeliver, hdelivers⟩ :=
    exists_deliver houtput (r.lines.flatMap HistoryLine.written)
  have hrun : h.run o files = ⟨after, 0, output, notes⟩ := by
    simp only [run, hprepare, hrecord, hdeliver, hverdict]
  rw [hrun]
  refine ⟨rfl, r.lines, hdelivers 0 notes, fun found hfound => ?_, hrebuilds⟩
  exact flatMap_written_inj (hfound.content_inj (hdelivers 0 notes))

end Lines

/-- Three files, the last of which changes nothing, recorded to a file that is replaced, with a replay
check. -/
theorem HistoryOptions.run_rebuilds_replaced :
    let files : FileSystem := ⟨[(["old"], .file [0x61]), (["new"], .file [0x61, 0xC3, 0xA4]),
      (["copy"], .file [0x61, 0xC3, 0xA4]), (["log"], .file [0x0A])], []⟩
    let h : HistoryOptions :=
      ⟨["old", "new", "./copy"], some "log", ⟨7, "Lean"⟩, true, Settings.default⟩
    let o : Options := ⟨.history h, true, false, 0, false⟩
    (h.run o files).exitCode = 0 ∧ ∃ lines,
      (h.run o files).Delivers files (some "log") (lines.flatMap HistoryLine.written) ∧
        (∀ found, (h.run o files).Delivers files (some "log") (found.flatMap HistoryLine.written) →
          found = lines) ∧
        Rebuilds h.settings [[0x61], [0x61, 0xE4], [0x61, 0xE4]] lines := by
  intro files h o
  refine HistoryOptions.run_rebuilds isFaithful_deflate h o files [[0x61], [0x61, 0xE4], [0x61, 0xE4]]
    rfl ?_ (by decide) (by decide) ?_
  · exact .cons (by decide +kernel) (.cons (by decide +kernel) (.cons (by decide +kernel) .nil))
  · intro path hpath
    obtain rfl := Option.some.inj hpath
    exact ⟨fun _ => rfl, ["log"], by decide +kernel⟩

end CommandLine
end EditHistory
