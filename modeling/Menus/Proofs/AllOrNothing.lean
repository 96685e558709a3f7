import Menus.Proofs.FileFailures
import Menus.Proofs.Overwriting

/-!
# Documents are processed whole or not at all

A document is backed up before it is written, and its new bytes take the place of the old ones at
once. So whatever step the disk refuses on the way, everything that was there is as before, and
otherwise the document holds its reduced text. What a failure may leave is a backup and a temporary
file beside the document. On a disk that refuses nothing a failure leaves no file at all: once a
document has been read and backed up there is nothing that could keep it from being written. A
backup that is there already is never touched.
-/

namespace Menus

variable {tree after : FileTree} {workingDirectory : Location} {settings : Settings}
  {mode : RunMode} {document : MenuDocument} {backups target : Path} {disk : Disk}

/-! ### Where a backup goes -/

/-- What is left of a path without steps upwards has none. -/
theorem Path.Descends.of_strip? {path base relative : Path} (h : path.Descends)
    (hstrip : path.strip? base = some relative) : relative.Descends := by
  cases hrelative : relative.rooted with
  | true =>
    rw [eq_trimEnd_of_strip? hstrip hrelative]
    exact h.trimEnd
  | false =>
    intro hup
    have hnames := (names_of_strip? hstrip hrelative).2
    refine h.ne_up ".." ?_ rfl
    rw [hnames]
    exact List.mem_append_right _ (List.mem_filter.mpr ⟨hup, by decide⟩)

/-- Taken from another directory, what is left of such a path has steps upwards only if that has. -/
theorem Path.Descends.join_of_strip? {path base relative directory : Path} (h : path.Descends)
    (hstrip : path.strip? base = some relative) (hdirectory : directory.Descends) :
    (directory.join relative).Descends := by
  cases hrooted : relative.rooted with
  | true =>
    rw [Path.join, if_pos hrooted]
    exact h.of_strip? hstrip
  | false => exact hdirectory.join (h.of_strip? hstrip) hrooted

/-- The path that a document is copied to before it is written. -/
def MenuDocument.backupTarget? (document : MenuDocument) (settings : Settings) : Option Path :=
  settings.backupDirectory.bind fun backups =>
    (document.path.strip? document.root).map backups.join

/-- The path of a backup is that of the document below its root, taken from the backup directory. -/
theorem MenuDocument.mem_backupTarget? :
    target ∈ document.backupTarget? settings ↔ ∃ backups ∈ settings.backupDirectory,
      ∃ relative, document.path.strip? document.root = some relative ∧
        target = backups.join relative := by
  simp only [backupTarget?, Option.mem_def, Option.bind_eq_some_iff, Option.map_eq_some_iff]
  simp only [eq_comm]

/-- The place of a backup is that of its path. -/
theorem MenuDocument.mem_backupLocations_iff_backupTarget? {location : Location} :
    location ∈ document.backupLocations settings workingDirectory ↔
      ∃ target ∈ document.backupTarget? settings, location = target.resolved workingDirectory := by
  simp only [mem_backupLocations, mem_backupTarget?, relative]
  constructor
  · rintro ⟨backups, hbackups, hstrip, hlocation⟩
    exact ⟨_, ⟨backups, hbackups, _, hstrip, rfl⟩, hlocation⟩
  · rintro ⟨_, ⟨backups, hbackups, relative, hstrip, rfl⟩, hlocation⟩
    exact ⟨backups, hbackups, by rw [hstrip]; rfl, by rw [hstrip]; exact hlocation⟩

/-! ### What stays -/

/-- Whatever is in a tree is in another one as well. -/
def FileTree.StaysIn (tree after : FileTree) : Prop :=
  ∀ location entry, tree.at? location = some entry → after.at? location = some entry

/-- What stays after one thing and after another stays after both. -/
theorem FileTree.StaysIn.trans {middle : FileTree} (h : tree.StaysIn middle)
    (hafter : middle.StaysIn after) : tree.StaysIn after :=
  fun location entry hentry => hafter location entry (h location entry hentry)

/-- Everything stays when an entry is put where nothing is. -/
theorem FileTree.WithEntry.staysIn {location : Location} {entry : FileEntry}
    (h : tree.WithEntry location entry after) (hnone : tree.at? location = none) :
    tree.StaysIn after := by
  intro other there hthere
  rw [h, if_neg, hthere]
  rintro rfl
  rw [hnone] at hthere
  cases hthere

/-- Everything stays when directories are made. -/
theorem FileTree.AddsDirectories.staysIn (h : tree.AddsDirectories after) : tree.StaysIn after :=
  fun _ _ => h.at?_eq

/-! ### The backup of one document -/

/-- Where a path without steps upwards leads to nothing, but can be copied to once there is room for
it, nothing is at its location. -/
theorem at?_eq_none_of_copy {source : Path} (htarget : target.Descends)
    (hexists : tree.exists? workingDirectory target = false) {middle : FileTree}
    (hmiddle : middle.copy workingDirectory source target = .ok after) :
    tree.at? (target.resolved workingDirectory) = none := by
  obtain ⟨-, emptied, hemptied, -⟩ := FileTree.copy_eq_ok hmiddle
  have hends := FileTree.endsInName_of_isFile (FileTree.isFile_of_write hemptied)
  rw [htarget.resolved_eq, Option.eq_none_iff_forall_ne_some]
  intro entry hentry
  rw [FileTree.exists?, FileTree.find?_of_at?_place htarget hends hentry] at hexists
  cases hexists

/-- What is left once a document has been backed up: something was there already and nothing has
changed, or nothing was there and now the bytes of the document are. -/
def BackedUp (tree : FileTree) (workingDirectory : Location) (document : MenuDocument)
    (target : Path) (saved : FileTree) : Prop :=
  tree.exists? workingDirectory target = true ∧ saved = tree ∨
    tree.at? (target.resolved workingDirectory) = none ∧ tree.Keeps saved ∧
      ∀ location, saved.bytes? location =
        if location = target.resolved workingDirectory then
          tree.bytes? (document.path.resolved workingDirectory)
        else tree.bytes? location

/-- Where a document is backed up to if there is nothing yet, the document is not. -/
theorem resolved_ne_of_at?_eq_none (hfile : tree.isFile workingDirectory document.path = true)
    (hnone : tree.at? (target.resolved workingDirectory) = none) :
    document.path.resolved workingDirectory ≠ target.resolved workingDirectory := by
  intro hsame
  have hbytes := (FileTree.isFile_iff_locate.mp hfile).2
  rw [FileTree.bytes?, hsame, hnone] at hbytes
  cases hbytes

/-- Backing up a document may fail, and then what is there stays. Only directories are new, unless
the disk refuses to complete the backup. -/
theorem backUp_cases (hfile : tree.isFile workingDirectory document.path = true)
    (hpath : document.path.Descends) (hbackups : backups.Descends) {result : Except RunError Bool}
    {saved : FileTree} (h : backUp tree workingDirectory document backups disk = (result, saved)) :
    (∃ error, result = .error error) ∧ tree.StaysIn saved ∧
        (disk = .sound → tree.AddsDirectories saved) ∨
      ∃ relative, document.path.strip? document.root = some relative ∧
        (∃ made, result = .ok made) ∧
        BackedUp tree workingDirectory document (backups.join relative) saved := by
  rw [backUp] at h
  cases hstrip : document.path.strip? document.root with
  | none =>
    simp only [hstrip, Prod.mk.injEq] at h
    obtain ⟨rfl, rfl⟩ := h
    exact Or.inl ⟨⟨_, rfl⟩, fun _ _ => id, fun _ => .refl tree⟩
  | some relative =>
    simp only [hstrip] at h
    split at h
    case isTrue hexists =>
      obtain ⟨rfl, rfl⟩ := Prod.mk.inj h
      exact Or.inr ⟨relative, rfl, ⟨_, rfl⟩, Or.inl ⟨hexists, rfl⟩⟩
    case isFalse hexists =>
      have hfree {middle copied : FileTree}
          (hcopied : middle.copy workingDirectory document.path (backups.join relative) =
            .ok copied) :
          tree.at? ((backups.join relative).resolved workingDirectory) = none :=
        at?_eq_none_of_copy (hpath.join_of_strip? hstrip hbackups) (by simpa using hexists) hcopied
      rcases copyInto_cases tree workingDirectory document.path (backups.join relative) disk with
        ⟨error, other, hcopy, hleft⟩ | ⟨middle, other, hcopy, -, hcopied⟩
      · simp only [hcopy, Prod.mk.injEq] at h
        obtain ⟨rfl, rfl⟩ := h
        refine Or.inl ⟨⟨_, rfl⟩, ?_⟩
        rcases hleft with hmade | ⟨hrefused, middle, copied, bytes, hmade, hcopied, hview⟩
        · exact ⟨hmade.staysIn, fun _ => hmade⟩
        · refine ⟨?_, fun hsound => by simp [hsound] at hrefused⟩
          intro location entry hentry
          rw [hview, if_neg, hmade.at?_eq hentry]
          rintro rfl
          rw [hfree hcopied] at hentry
          cases hentry
      · simp only [hcopy, Prod.mk.injEq] at h
        obtain ⟨rfl, rfl⟩ := h
        have hnone := hfree hcopied
        obtain ⟨hkeeps, -, -, hview⟩ :=
          copyInto_eq_ok hcopy (resolved_ne_of_at?_eq_none hfile hnone)
        exact Or.inr ⟨relative, rfl, ⟨_, rfl⟩, Or.inr ⟨hnone, hkeeps, hview⟩⟩

/-- What is left once a document has been backed up if there is a directory for that. -/
def BackedUpIfAsked (tree : FileTree) (workingDirectory : Location) (settings : Settings)
    (document : MenuDocument) (saved : FileTree) : Prop :=
  settings.backupDirectory = none ∧ saved = tree ∨
    ∃ target ∈ document.backupTarget? settings,
      BackedUp tree workingDirectory document target saved

/-- Backing up a document if there is a directory for that may fail in the same ways. -/
theorem backUpIfAsked_cases (hfile : tree.isFile workingDirectory document.path = true)
    (hpath : document.path.Descends)
    (hbackups : ∀ backups ∈ settings.backupDirectory, backups.Descends) (disk : Disk) :
    (∃ error saved,
        backUpIfAsked tree workingDirectory settings document disk = (.error error, saved) ∧
        tree.StaysIn saved ∧ (disk = .sound → tree.AddsDirectories saved)) ∨
      ∃ saved, backUpIfAsked tree workingDirectory settings document disk = (.ok (), saved) ∧
        BackedUpIfAsked tree workingDirectory settings document saved := by
  cases hdirectory : settings.backupDirectory with
  | none => exact Or.inr ⟨tree, by simp [backUpIfAsked, hdirectory], Or.inl ⟨hdirectory, rfl⟩⟩
  | some backups =>
    cases hbackUp : backUp tree workingDirectory document backups disk with
    | mk result saved =>
      rcases backUp_cases hfile hpath (hbackups backups hdirectory) hbackUp with
        ⟨⟨error, rfl⟩, hleft⟩ | ⟨relative, hstrip, ⟨made, rfl⟩, hsaved⟩
      · exact Or.inl ⟨error, saved, by simp [backUpIfAsked, hdirectory, hbackUp, Except.map], hleft⟩
      · refine Or.inr ⟨saved, by simp [backUpIfAsked, hdirectory, hbackUp, Except.map], Or.inr ?_⟩
        exact ⟨_, MenuDocument.mem_backupTarget?.mpr ⟨backups, hdirectory, relative, hstrip, rfl⟩,
          hsaved⟩

/-- A backup keeps files files and directories directories. -/
theorem BackedUpIfAsked.keeps {saved : FileTree}
    (h : BackedUpIfAsked tree workingDirectory settings document saved) : tree.Keeps saved := by
  rcases h with ⟨-, rfl⟩ | ⟨target, -, ⟨-, rfl⟩ | ⟨-, hkeeps, -⟩⟩
  · exact .refl _
  · exact .refl _
  · exact hkeeps

/-- A backup replaces nothing. -/
theorem BackedUpIfAsked.staysIn {saved : FileTree}
    (h : BackedUpIfAsked tree workingDirectory settings document saved) : tree.StaysIn saved := by
  intro location entry hentry
  rcases h with ⟨-, rfl⟩ | ⟨target, -, ⟨-, rfl⟩ | ⟨hnone, hkeeps, hview⟩⟩
  · exact hentry
  · exact hentry
  · cases entry with
    | directory => exact hkeeps.directory location hentry
    | file bytes =>
      rw [← FileTree.bytes?_eq_some_iff] at hentry ⊢
      rw [hview, if_neg, hentry]
      rintro rfl
      rw [FileTree.bytes?, hnone] at hentry
      cases hentry

/-- A backup makes no file but the one at its target. -/
theorem BackedUpIfAsked.bytes?_eq {saved : FileTree}
    (h : BackedUpIfAsked tree workingDirectory settings document saved) {location : Location}
    (hlocation : ∀ target ∈ document.backupTarget? settings,
      location ≠ target.resolved workingDirectory) :
    saved.bytes? location = tree.bytes? location := by
  rcases h with ⟨-, rfl⟩ | ⟨target, htarget, ⟨-, rfl⟩ | ⟨-, -, hview⟩⟩
  · rfl
  · rfl
  · rw [hview, if_neg (hlocation target htarget)]

/-- What a failure to write a document leaves: everything that was there, and files only where the
backup goes and, when the disk refuses to delete it, beside the document. On a disk that refuses
nothing only directories are new. -/
structure LeftByFailure (tree : FileTree) (workingDirectory : Location) (settings : Settings)
    (document : MenuDocument) (disk : Disk) (after : FileTree) : Prop where
  stays : tree.StaysIn after
  files : ∀ location, after.bytes? location ≠ tree.bytes? location →
    location ∈ document.backupLocations settings workingDirectory ∨
      (disk.fault? .discard document.path).isSome ∧
        ∃ name, location = (document.path.resolved workingDirectory).dropLast ++ [name]
  sound : disk = .sound → tree.AddsDirectories after

/-- Nothing but the place of its backup and a temporary file beside it is touched when a document
that is backed up cannot be replaced. -/
theorem leftByFailure_of_replaceFile {saved : FileTree} {bytes : ByteArray} {error : FileError}
    (hfile : tree.isFile workingDirectory document.path = true)
    (hbackedUp : BackedUpIfAsked tree workingDirectory settings document saved)
    (hkept : tree.KeepsFiles (document.backupLocations settings workingDirectory) saved)
    (hreplaced :
      saved.replaceFile workingDirectory document.path bytes disk = (.error error, after))
    (hleft : saved.LeavesTemporary workingDirectory document.path disk after) :
    LeftByFailure tree workingDirectory settings document disk after := by
  have hthere := hbackedUp.keeps.isFile hfile
  refine ⟨?_, fun location hchanged => ?_, fun hsound => ?_⟩
  · rcases hleft with rfl | ⟨-, directory, name, bytes, -, hnone, hview⟩
    · exact hbackedUp.staysIn
    · exact hbackedUp.staysIn.trans (hview.staysIn hnone)
  · by_cases hplace : location ∈ document.backupLocations settings workingDirectory
    · exact Or.inl hplace
    · rw [← hkept location hplace] at hchanged
      rcases hleft with rfl | ⟨hrefused, directory, name, bytes, hlocate, -, hview⟩
      · exact absurd rfl hchanged
      · obtain ⟨holder, last, hholder, -, hresolved⟩ := FileTree.locate_holder hthere
        obtain rfl : directory = holder := Except.ok.inj (hlocate.symm.trans hholder)
        refine Or.inr ⟨hrefused, name, ?_⟩
        rw [hresolved, List.dropLast_concat]
        by_contra hother
        exact hchanged (hview.keepsFiles location (by simpa using hother))
  · obtain ⟨written, hwritten, -⟩ := FileTree.exists_replaceFile hthere bytes
    rw [hsound, hwritten] at hreplaced
    cases hreplaced

/-- A document is backed up and then written, unless something is in the way or refused. -/
theorem saveReduced_cases (hfile : tree.isFile workingDirectory document.path = true)
    (hpath : document.path.Descends)
    (hbackups : ∀ backups ∈ settings.backupDirectory, backups.Descends) (reduced : String)
    (disk : Disk) :
    (∃ error after,
        saveReduced tree workingDirectory settings document reduced disk = (.error error, after) ∧
        LeftByFailure tree workingDirectory settings document disk after) ∨
      ∃ saved written,
        saveReduced tree workingDirectory settings document reduced disk = (.ok (), written) ∧
        BackedUpIfAsked tree workingDirectory settings document saved ∧
        saved.WithEntry (document.path.resolved workingDirectory) (.file reduced.toUTF8)
          written := by
  have hkept := keepsFiles_backUpIfAsked tree workingDirectory settings document disk
  rcases backUpIfAsked_cases hfile hpath hbackups disk with
    ⟨error, saved, hfailed, hstays, hsound⟩ | ⟨saved, hsaved, hbackedUp⟩
  · rw [hfailed] at hkept
    refine Or.inl ⟨error, saved, by simp [saveReduced, hfailed], hstays, ?_, hsound⟩
    intro location hchanged
    by_contra hplace
    exact hchanged (hkept location fun hmem => hplace (Or.inl hmem))
  · rw [hsaved] at hkept
    rcases FileTree.replaceFile_cases saved workingDirectory document.path reduced.toUTF8 disk with
      ⟨error, after, hreplaced, hleft⟩ | ⟨written, hwritten, hreplaced⟩
    · exact Or.inl ⟨.file document.path error, after,
        by simp only [saveReduced, hsaved, hreplaced, Except.mapError],
        leftByFailure_of_replaceFile hfile hbackedUp hkept hreplaced hleft⟩
    · exact Or.inr ⟨saved, written, by simp only [saveReduced, hsaved, hreplaced, Except.mapError],
        hbackedUp, FileTree.withEntry_of_write hwritten⟩

/-- The backup that was asked for is there: something was, or the bytes of the document are now. -/
theorem BackedUpIfAsked.exists_backup {saved : FileTree}
    (h : BackedUpIfAsked tree workingDirectory settings document saved) {bytes : ByteArray}
    (hbytes : tree.bytes? (document.path.resolved workingDirectory) = some bytes)
    (hasked : settings.backupDirectory.isSome) :
    ∃ target ∈ document.backupTarget? settings, tree.exists? workingDirectory target = true ∨
      target.resolved workingDirectory ≠ document.path.resolved workingDirectory ∧
        saved.bytes? (target.resolved workingDirectory) = some bytes := by
  rcases h with ⟨hnone, -⟩ | ⟨target, htarget, ⟨hexists, -⟩ | ⟨hnone, -, hview⟩⟩
  · rw [hnone] at hasked
    cases hasked
  · exact ⟨target, htarget, Or.inl hexists⟩
  · refine ⟨target, htarget, Or.inr ⟨fun hsame => ?_, by rw [hview, if_pos rfl, hbytes]⟩⟩
    rw [← hsame, FileTree.bytes?, hnone] at hbytes
    cases hbytes

/-! ### Processing one document -/

/-- Nothing changes when a document is only checked, or when there is nothing to write. -/
theorem process_eq_self {outcome : Except RunError Outcome}
    (h : process tree workingDirectory settings mode document disk = (outcome, after))
    (hquiet : mode = .check ∨ outcome = .ok .skipped ∨ outcome = .ok .unchanged ∨
      (∃ path error, outcome = .error (.document path error)) ∨
      ∃ error, disk.attempt .read document.path
        (tree.readText workingDirectory document.path) = .error error) : after = tree := by
  rcases process_cases tree workingDirectory settings mode document disk with
    ⟨hkept, -⟩ | ⟨before, reduced, rfl, hread, -, -, hprocess⟩
  · rwa [h] at hkept
  · rw [h] at hprocess
    cases hsaved : saveReduced tree workingDirectory settings document reduced disk with
    | mk result saved =>
      rw [hsaved] at hprocess
      obtain ⟨houtcome, -⟩ := Prod.mk.inj hprocess
      rcases hquiet with hmode | hskipped | hunchanged | ⟨path, error, herror⟩ | ⟨error, herror⟩
      · cases hmode
      · cases result <;> simp [houtcome, Except.map] at hskipped
      · cases result <;> simp [houtcome, Except.map] at hunchanged
      · cases result with
        | ok => simp [houtcome, Except.map] at herror
        | error cause =>
          obtain rfl : cause = .document path error := by
            simpa [houtcome, Except.map] using herror
          rcases saveReduced_eq_error hsaved with ⟨_, _, hcause, -⟩ | ⟨-, hcause⟩ <;> cases hcause
      · rw [hread] at herror
        cases herror

/-- **A document is processed whole or not at all.** Without steps upwards in its path and in the
backup directory, and whatever steps the disk refuses, processing a document changes nothing at all
when it only checks or when there is nothing to write. Whatever fails, the document keeps its bytes,
and other files change only where its backup goes and, as long as the disk refuses to delete it, in
a temporary file beside it; none do on a disk that refuses nothing. When the document is modified it
holds exactly its reduced text, what it held is in its backup unless something was there before, and
all other files are as they were. In every case whatever is anywhere else stays, so that a backup
which is there already is not altered. -/
theorem process_all_or_nothing (hpath : document.path.Descends)
    (hbackups : ∀ backups ∈ settings.backupDirectory, backups.Descends)
    {outcome : Except RunError Outcome}
    (h : process tree workingDirectory settings mode document disk = (outcome, after)) :
    ((mode = .check ∨ outcome = .ok .skipped ∨ outcome = .ok .unchanged ∨
        (∃ path error, outcome = .error (.document path error)) ∨
        ∃ error, disk.attempt .read document.path
          (tree.readText workingDirectory document.path) = .error error) → after = tree) ∧
      (∀ error, outcome = .error error →
        after.bytes? (document.path.resolved workingDirectory) =
            tree.bytes? (document.path.resolved workingDirectory) ∧
          (∀ location, after.bytes? location ≠ tree.bytes? location →
            (∃ target ∈ document.backupTarget? settings,
                location = target.resolved workingDirectory) ∨
              (disk.fault? .discard document.path).isSome ∧
                ∃ name, location = (document.path.resolved workingDirectory).dropLast ++ [name]) ∧
          (disk = .sound → ∀ location, after.bytes? location = tree.bytes? location)) ∧
      (∀ before reduced, mode = .write → outcome = .ok (.modified before reduced) →
        tree.bytes? (document.path.resolved workingDirectory) = some before.toUTF8 ∧
          reduceDocument before settings.lineEnding = .ok reduced ∧
          after.bytes? (document.path.resolved workingDirectory) = some reduced.toUTF8 ∧
          (∀ location, location ≠ document.path.resolved workingDirectory →
            (∀ target ∈ document.backupTarget? settings,
              location ≠ target.resolved workingDirectory) →
            after.bytes? location = tree.bytes? location) ∧
          (settings.backupDirectory.isSome → ∃ target ∈ document.backupTarget? settings,
            tree.exists? workingDirectory target = true ∨
              after.bytes? (target.resolved workingDirectory) = some before.toUTF8)) ∧
      ∀ location, location ≠ document.path.resolved workingDirectory →
        ∀ entry, tree.at? location = some entry → after.at? location = some entry := by
  refine ⟨process_eq_self h, ?_⟩
  rcases process_cases tree workingDirectory settings mode document disk with
    ⟨hkept, houtcome⟩ | ⟨before, reduced, rfl, hread, hreduce, -, hprocess⟩
  · rw [h] at hkept houtcome
    obtain rfl : after = tree := hkept
    refine ⟨fun _ _ => ⟨rfl, fun _ hchanged => absurd rfl hchanged, fun _ _ => rfl⟩,
      fun before reduced hmode hmodified => ?_, fun _ _ _ => id⟩
    simp [hmode, hmodified, rewrittenWith?] at houtcome
  · obtain ⟨hfile, hbytes⟩ := FileTree.readText_eq_ok (Disk.attempt_eq_ok_iff.mp hread).2
    rw [h] at hprocess
    rcases saveReduced_cases hfile hpath hbackups reduced disk with
      ⟨error, left, hfailed, hleft⟩ | ⟨saved, written, hwritten, hsaved, hview⟩
    · rw [hfailed] at hprocess
      obtain ⟨rfl, rfl⟩ : outcome = .error error ∧ after = left := Prod.mk.inj hprocess
      refine ⟨fun _ _ => ⟨?_, ?_, fun hsound => (hleft.sound hsound).bytes?_eq⟩,
        fun _ _ _ hmodified => ?_, fun location _ => hleft.stays location⟩
      · rw [hbytes]
        exact FileTree.bytes?_eq_some_iff.mpr
          (hleft.stays _ _ (FileTree.bytes?_eq_some_iff.mp hbytes))
      · intro location hchanged
        exact (hleft.files location hchanged).imp_left
          MenuDocument.mem_backupLocations_iff_backupTarget?.mp
      · cases hmodified
    · rw [hwritten] at hprocess
      obtain ⟨rfl, rfl⟩ : outcome = .ok (.modified before reduced) ∧ after = written :=
        Prod.mk.inj hprocess
      have helsewhere {location : Location}
          (hlocation : location ≠ document.path.resolved workingDirectory) :
          after.at? location = saved.at? location := by
        rw [hview, if_neg hlocation]
      refine ⟨fun _ herror => ?_, ?_, fun location hlocation entry hentry => ?_⟩
      · cases herror
      · rintro _ _ - ⟨⟩
        refine ⟨hbytes, hreduce, ?_, fun location hlocation htargets => ?_, fun hasked => ?_⟩
        · rw [FileTree.bytes?, hview, if_pos rfl]
          rfl
        · rw [FileTree.bytes?, helsewhere hlocation, ← FileTree.bytes?, hsaved.bytes?_eq htargets]
        · obtain ⟨target, htarget, hexists | ⟨hapart, hcopied⟩⟩ :=
            hsaved.exists_backup hbytes hasked
          · exact ⟨target, htarget, Or.inl hexists⟩
          · refine ⟨target, htarget, Or.inr ?_⟩
            rw [FileTree.bytes?, helsewhere hapart, ← FileTree.bytes?, hcopied]
      · rw [helsewhere hlocation, hsaved.staysIn _ _ hentry]

/-- A disk that is taken away after three bytes of a temporary file. -/
def unpluggedDisk : Disk where
  fault? := fun step _ =>
    match step with
    | .fill => some { error := .missing, progress := some 3 }
    | .discard => some { error := .missing }
    | _ => none
  drawnName := Disk.sound.drawnName

/-- A document is rewritten after a backup, for which a directory is made. If the disk is taken away
meanwhile, the document is as before. -/
theorem process_all_or_nothing_beside_menu :
    let settings : Settings := { backupDirectory := some (Path.ofText "x/kept") }
    let document : MenuDocument := ⟨⟨true, ["other"]⟩, ⟨true, ["other", "menu.selfml"]⟩⟩
    (∃ after, process besideMenu [] settings .write document =
        (.ok (.modified "(menu snippet.x action.y)" "(menu snippet.x)"), after) ∧
      after.bytes? ["other", "menu.selfml"] = some "(menu snippet.x)".toUTF8 ∧
      after.bytes? ["x", "kept", "menu.selfml"] = some "(menu snippet.x action.y)".toUTF8 ∧
      ∀ location, location ≠ ["other", "menu.selfml"] →
        ∀ entry, besideMenu.at? location = some entry → after.at? location = some entry) ∧
    ∃ left, process besideMenu [] settings .write document unpluggedDisk =
        (.error (.file document.path .missing), left) ∧
      left.bytes? ["other", "menu.selfml"] = some "(menu snippet.x action.y)".toUTF8 ∧
      ∀ location, left.bytes? location ≠ besideMenu.bytes? location →
        location = ["x", "kept", "menu.selfml"] ∨ ∃ name, location = ["other", name] := by
  intro settings document
  have hplace : document.path.resolved [] = ["other", "menu.selfml"] := by decide +kernel
  have hthere : ∀ target ∈ document.backupTarget? settings,
      target.resolved [] = ["x", "kept", "menu.selfml"] := by decide +kernel
  constructor
  · have houtcome : (process besideMenu [] settings .write document).1 =
        .ok (.modified "(menu snippet.x action.y)" "(menu snippet.x)") := by decide +kernel
    obtain ⟨after, hprocess⟩ : ∃ after, process besideMenu [] settings .write document =
        (.ok (.modified "(menu snippet.x action.y)" "(menu snippet.x)"), after) :=
      ⟨_, by rw [← houtcome]⟩
    obtain ⟨-, -, hmodified, hkept⟩ :=
      process_all_or_nothing (by decide +kernel) (by decide +kernel) hprocess
    obtain ⟨-, -, hwritten, -, hbackup⟩ := hmodified _ _ rfl rfl
    rw [hplace] at hwritten hkept
    refine ⟨after, hprocess, hwritten, ?_, hkept⟩
    obtain ⟨target, htarget, hexists | hcopied⟩ := hbackup rfl
    · have hnone : ∀ target ∈ document.backupTarget? settings,
          besideMenu.exists? [] target = false := by decide +kernel
      rw [hnone target htarget] at hexists
      cases hexists
    · rwa [hthere target htarget] at hcopied
  · have houtcome : (process besideMenu [] settings .write document unpluggedDisk).1 =
        .error (.file document.path .missing) := by decide +kernel
    obtain ⟨left, hprocess⟩ : ∃ left, process besideMenu [] settings .write document
        unpluggedDisk = (.error (.file document.path .missing), left) :=
      ⟨_, by rw [← houtcome]⟩
    obtain ⟨-, hfailed, -, -⟩ :=
      process_all_or_nothing (by decide +kernel) (by decide +kernel) hprocess
    obtain ⟨hbytes, hfiles, -⟩ := hfailed _ rfl
    rw [hplace] at hbytes
    refine ⟨left, hprocess, by rw [hbytes]; decide +kernel, fun location hchanged => ?_⟩
    rcases hfiles location hchanged with ⟨target, htarget, rfl⟩ | ⟨-, name, hname⟩
    · exact Or.inl (hthere target htarget)
    · rw [hplace] at hname
      exact Or.inr ⟨name, hname⟩

end Menus
