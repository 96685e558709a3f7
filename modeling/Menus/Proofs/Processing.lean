import Menus.Run
import Menus.Proofs.Collecting
import Menus.Proofs.Replacing

/-!
# What processing one document does

For a document that is a file below its root, the outcome depends only on the bytes of the document
and on whether a file stands in the way of its backup. Nothing changes in the tree unless the
document is modified. Then its reduced text is written in its place, after its bytes were copied to
the place of the backup if nothing was there.
-/

namespace Menus

variable {tree : FileTree} {workingDirectory : Location} {settings : Settings} {mode : RunMode}
  {document : MenuDocument} {backups : Path}

/-! ### Making room and copying -/

/-- Room is made for a target unless a file stands on the way to it. -/
theorem exists_makeRoom (hworking : tree.at? workingDirectory = some .directory) {target : Path}
    (hdescends : target.Descends) (hends : target.EndsInName)
    (hclear : tree.IsClear (target.place workingDirectory).dropLast) :
    ∃ made, makeRoom tree workingDirectory target = (.ok (), made) ∧
      tree.WithDirectories (target.place workingDirectory).dropLast made := by
  obtain ⟨parent, hparent, hrooted, hnames, hparentDescends⟩ :=
    Path.exists_parent? hends.names_ne_nil
  have hplace := Path.place_eq_dropLast hends.names_ne_nil hrooted hnames workingDirectory
  rw [← hplace] at hclear ⊢
  obtain ⟨made, hmade, hview⟩ :=
    FileTree.exists_makeDirectories hworking (hparentDescends hdescends) hclear
  exact ⟨made, by simp [makeRoom, hparent, hmade, Except.mapError], hview⟩

/-- No room is made where a file stands on the way. -/
theorem makeRoom_of_blocked (hworking : tree.at? workingDirectory = some .directory) {target : Path}
    (hdescends : target.Descends) (hends : target.EndsInName)
    (hblocked : ¬tree.IsClear (target.place workingDirectory).dropLast) :
    makeRoom tree workingDirectory target =
      (.error (.file (target.parent?.getD .empty)
        (tree.blockedError (target.place workingDirectory).dropLast)), tree) := by
  obtain ⟨parent, hparent, hrooted, hnames, hparentDescends⟩ :=
    Path.exists_parent? hends.names_ne_nil
  have hplace := Path.place_eq_dropLast hends.names_ne_nil hrooted hnames workingDirectory
  rw [← hplace] at hblocked ⊢
  have hfails :=
    FileTree.makeDirectories_of_blocked hworking (hparentDescends hdescends) hblocked
  simp [makeRoom, hparent, hfails, Except.mapError]

/-- A file is copied to a target that is no directory unless a file stands on the way to it. -/
theorem exists_copyInto (hworking : tree.at? workingDirectory = some .directory)
    {source target : Path} {bytes : ByteArray} (hsource : source.Descends)
    (hsourceEnds : source.EndsInName)
    (hbytes : tree.bytes? (source.place workingDirectory) = some bytes)
    (htarget : target.Descends) (htargetEnds : target.EndsInName)
    (hclear : tree.IsClear (target.place workingDirectory).dropLast)
    (hfree : tree.at? (target.place workingDirectory) ≠ some .directory)
    (hapart : source.place workingDirectory ≠ target.place workingDirectory) :
    ∃ copied, copyInto tree workingDirectory source target = (.ok (), copied) ∧
      tree.WithFile (target.place workingDirectory) bytes copied := by
  obtain ⟨directory, name, hplace, -⟩ :=
    FileTree.exists_place_eq htarget htargetEnds workingDirectory
  obtain ⟨made, hmade, hmadeView⟩ := exists_makeRoom hworking htarget htargetEnds hclear
  rw [hplace, List.dropLast_concat] at hmadeView hclear
  have hkept : made.bytes? (source.place workingDirectory) = some bytes := by
    rw [FileTree.bytes?, hmadeView, if_neg]
    · exact hbytes
    · intro habove
      rw [hclear _ habove] at hbytes
      cases hbytes
  have hdirectory : made.at? (target.place workingDirectory).dropLast = some .directory := by
    rw [hplace, List.dropLast_concat, hmadeView, if_pos List.prefix_rfl]
  have hfree' : made.at? (target.place workingDirectory) ≠ some .directory := by
    rwa [hmadeView, hplace, if_neg (FileTree.not_prefix_of_concat directory name), ← hplace]
  obtain ⟨copied, hcopied, hcopiedView⟩ :=
    FileTree.exists_copy (hmadeView.keeps_directory hworking) hsource hsourceEnds hkept htarget
      htargetEnds hdirectory hfree' hapart
  refine ⟨copied, by rw [copyInto, hmade]; simp [hcopied], ?_⟩
  intro other
  rw [hcopiedView other, hmadeView other, hplace]
  by_cases hother : other = directory ++ [name]
  · simp [hother]
  · simp [hother, List.prefix_concat_iff]

/-! ### Backups -/

/-- The place of the backup of a document. -/
def MenuDocument.backupPlace (document : MenuDocument) (backups : Path)
    (workingDirectory : Location) : Location :=
  backups.place workingDirectory ++ document.relative.names

/-- Why a document cannot be backed up: nothing is at the place of its backup, and a file stands on
the way there. -/
def blockedBackup? (tree : FileTree) (workingDirectory : Location) (document : MenuDocument)
    (backups : Path) : Option RunError :=
  let place := document.backupPlace backups workingDirectory
  if tree.at? place = none ∧ ¬tree.IsClear place.dropLast then
    some (.file ((backups.join document.relative).parent?.getD .empty)
      (tree.blockedError place.dropLast))
  else none

/-- What a backup puts at a location: the bytes of the document at its own place, unless something
is there, and directories on the way. -/
def backupAt? (tree : FileTree) (workingDirectory : Location) (document : MenuDocument)
    (backups : Path) (location : Location) : Option FileEntry :=
  let place := document.backupPlace backups workingDirectory
  if tree.at? place = none then
    if location = place then tree.at? (document.path.place workingDirectory)
    else if location <+: place then some .directory
    else none
  else none

/-- The path of a backup leads down from the backup directory to its place. -/
theorem MenuDocument.Stands.backup_path (hstands : document.Stands tree workingDirectory)
    (hbackups : backups.Descends) :
    (backups.join document.relative).Descends ∧ (backups.join document.relative).EndsInName ∧
      (backups.join document.relative).place workingDirectory =
        document.backupPlace backups workingDirectory :=
  ⟨hbackups.join hstands.relative_descends hstands.relative_rooted,
    hstands.relative_endsInName.join hstands.relative_rooted backups,
    Path.place_join backups hstands.relative_rooted workingDirectory⟩

/-- Whether there is something at the place of a backup decides whether one is made. -/
theorem backUp_eq (hworking : tree.at? workingDirectory = some .directory)
    (hstands : document.Stands tree workingDirectory) (hbackups : backups.Descends) :
    backUp tree workingDirectory document backups =
      if tree.at? (document.backupPlace backups workingDirectory) = none then
        match copyInto tree workingDirectory document.path (backups.join document.relative) with
        | (.error error, tree) => (.error error, tree)
        | (.ok (), tree) => (.ok true, tree)
      else (.ok false, tree) := by
  obtain ⟨hdescends, hends, hplace⟩ := hstands.backup_path hbackups
  rw [backUp, hstands.strip_eq]
  simp only [FileTree.exists?, FileTree.find?_eq hworking hdescends hends, hplace]
  cases tree.at? (document.backupPlace backups workingDirectory) <;> rfl

/-- A backup that is blocked fails, and nothing changes. -/
theorem backUp_of_blocked (hworking : tree.at? workingDirectory = some .directory)
    (hstands : document.Stands tree workingDirectory) (hbackups : backups.Descends)
    {error : RunError}
    (h : blockedBackup? tree workingDirectory document backups = some error) :
    backUp tree workingDirectory document backups = (.error error, tree) := by
  obtain ⟨hdescends, hends, hplace⟩ := hstands.backup_path hbackups
  rw [blockedBackup?] at h
  split at h
  case isTrue hblocked =>
    rw [← hplace] at hblocked
    have hroom := makeRoom_of_blocked hworking hdescends hends hblocked.2
    rw [hplace] at hblocked hroom
    rw [backUp_eq hworking hstands hbackups, if_pos hblocked.1, copyInto, hroom,
      ← Option.some.inj h]
  case isFalse => cases h

/-- A backup that is not blocked is there afterwards, and nothing else has changed. -/
theorem exists_backUp (hworking : tree.at? workingDirectory = some .directory)
    (hstands : document.Stands tree workingDirectory) (hbackups : backups.Descends)
    (h : blockedBackup? tree workingDirectory document backups = none) :
    ∃ made saved, backUp tree workingDirectory document backups = (.ok made, saved) ∧
      ∀ location, saved.at? location =
        (backupAt? tree workingDirectory document backups location).or (tree.at? location) := by
  obtain ⟨hdescends, hends, hplace⟩ := hstands.backup_path hbackups
  rw [backUp_eq hworking hstands hbackups]
  by_cases hnone : tree.at? (document.backupPlace backups workingDirectory) = none
  · rw [if_pos hnone]
    have hclear : tree.IsClear (document.backupPlace backups workingDirectory).dropLast := by
      by_contra hblocked
      rw [blockedBackup?, if_pos ⟨hnone, hblocked⟩] at h
      cases h
    obtain ⟨bytes, hbytes⟩ := Option.isSome_iff_exists.mp hstands.isFile
    have hfile := FileTree.bytes?_eq_some_iff.mp hbytes
    rw [← hplace] at hnone hclear
    have hapart : document.path.place workingDirectory ≠
        (backups.join document.relative).place workingDirectory := by
      intro hsame
      rw [← hsame, hfile] at hnone
      cases hnone
    obtain ⟨copied, hcopied, hview⟩ := exists_copyInto hworking hstands.descends
      hstands.endsInName hbytes hdescends hends hclear (by rw [hnone]; nofun) hapart
    refine ⟨true, copied, by rw [hcopied], fun location => ?_⟩
    rw [hview location, backupAt?, ← hplace, if_pos hnone, hfile]
    split
    · rfl
    · split <;> rfl
  · rw [if_neg hnone]
    refine ⟨false, tree, rfl, fun location => ?_⟩
    rw [backupAt?, if_neg hnone, Option.none_or]

/-- A location above the place of a backup is above the directory of the backup. -/
theorem prefix_dropLast_backupPlace (hstands : document.Stands tree workingDirectory)
    (backups : Path) {location : Location}
    (h : location <+: document.backupPlace backups workingDirectory)
    (hne : location ≠ document.backupPlace backups workingDirectory) :
    location <+: (document.backupPlace backups workingDirectory).dropLast := by
  obtain ⟨directory, name, hplace⟩ :
      ∃ directory name, document.backupPlace backups workingDirectory = directory ++ [name] := by
    rw [MenuDocument.backupPlace]
    rcases List.eq_nil_or_concat document.relative.names with hnil | ⟨names, name, hnames⟩
    · exact absurd hnil hstands.relative_endsInName.names_ne_nil
    · exact ⟨backups.place workingDirectory ++ names, name, by simp [hnames]⟩
  rw [hplace] at h hne ⊢
  rw [List.dropLast_concat]
  exact (List.prefix_concat_iff.mp h).resolve_left hne

/-- A backup changes nothing that is there. -/
theorem backupAt?_or (hstands : document.Stands tree workingDirectory)
    (h : blockedBackup? tree workingDirectory document backups = none) {location : Location}
    {entry : FileEntry} (hentry : tree.at? location = some entry) :
    (backupAt? tree workingDirectory document backups location).or (tree.at? location) =
      some entry := by
  rw [backupAt?]
  split
  case isFalse => exact hentry
  case isTrue hnone =>
    have hne : location ≠ document.backupPlace backups workingDirectory := by
      rintro rfl
      rw [hnone] at hentry
      cases hentry
    have hclear : tree.IsClear (document.backupPlace backups workingDirectory).dropLast := by
      by_contra hblocked
      rw [blockedBackup?, if_pos ⟨hnone, hblocked⟩] at h
      cases h
    rw [if_neg hne]
    split
    case isFalse => exact hentry
    case isTrue habove =>
      have habove := prefix_dropLast_backupPlace hstands backups habove hne
      rw [(hclear.mono habove).eq_directory hentry, Option.some_or]

/-! ### Processing -/

/-- The paths of settings with one backup directory. -/
theorem Settings.descends_of_backupDirectory (hdirectory : settings.backupDirectory = some backups)
    (hbackups : backups.Descends) : ∀ backups ∈ settings.backupDirectory, backups.Descends := by
  rw [hdirectory]
  rintro _ ⟨⟩
  exact hbackups

/-- What becomes of a document with some bytes when its backup is blocked or not. -/
def outcomeOf (settings : Settings) (mode : RunMode) (path : Path) (blocked : Option RunError)
    (bytes : ByteArray) : Except RunError Outcome :=
  match String.fromUTF8? bytes with
  | none => .error (.file path .notText)
  | some before =>
    match reduceDocument before settings.lineEnding with
    | .error .empty => .ok .skipped
    | .error error => .error (.document path error)
    | .ok reduced =>
      if reduced = before then .ok .unchanged
      else
        match mode, blocked with
        | .write, some error => .error error
        | _, _ => .ok (.modified before reduced)

/-- Why a document cannot be backed up, if there is a directory for that. -/
def blocked? (tree : FileTree) (workingDirectory : Location) (settings : Settings)
    (document : MenuDocument) : Option RunError :=
  settings.backupDirectory.bind (blockedBackup? tree workingDirectory document)

/-- What the backup of a document puts at a location, if there is a directory for that. -/
def savedAt? (tree : FileTree) (workingDirectory : Location) (settings : Settings)
    (document : MenuDocument) (location : Location) : Option FileEntry :=
  settings.backupDirectory.bind fun backups =>
    backupAt? tree workingDirectory document backups location

/-- The text that a document is rewritten with. -/
def rewrittenWith? (mode : RunMode) (outcome : Except RunError Outcome) : Option String :=
  match outcome with
  | .ok (.modified _ reduced) => if mode = .write then some reduced else none
  | _ => none

/-- What processing a document puts at a location: its reduced text at its own place and a
backup. -/
def entryFrom? (tree : FileTree) (workingDirectory : Location) (settings : Settings)
    (mode : RunMode) (document : MenuDocument) (location : Location) : Option FileEntry :=
  (rewrittenWith? mode (process tree workingDirectory settings mode document).1).bind fun reduced =>
    if location = document.path.place workingDirectory then some (.file reduced.toUTF8)
    else savedAt? tree workingDirectory settings document location

/-- The bytes of a text are read as that text. -/
theorem fromUTF8?_toUTF8 (text : String) : String.fromUTF8? text.toUTF8 = some text := by
  have hvalid : text.toUTF8.IsValidUTF8 := text.isValidUTF8
  rw [String.fromUTF8?, dif_pos hvalid]
  rfl

/-- The text of a file, if its bytes are text. -/
theorem readText_eq (hworking : tree.at? workingDirectory = some .directory)
    (hstands : document.Stands tree workingDirectory) {bytes : ByteArray}
    (hbytes : tree.bytes? (document.path.place workingDirectory) = some bytes) :
    tree.readText workingDirectory document.path =
      match String.fromUTF8? bytes with
      | some text => .ok text
      | none => .error .notText := by
  have hread := (FileTree.read_eq_ok_iff hworking hstands.descends hstands.endsInName).mpr hbytes
  rw [FileTree.readText, hread]
  rfl

/-- Writing a document fails exactly if its backup is blocked, and then nothing changes. -/
theorem saveReduced_of_blocked (hworking : tree.at? workingDirectory = some .directory)
    (hstands : document.Stands tree workingDirectory)
    (hbackups : ∀ backups ∈ settings.backupDirectory, backups.Descends) {error : RunError}
    (h : blocked? tree workingDirectory settings document = some error) (reduced : String) :
    saveReduced tree workingDirectory settings document reduced = (.error error, tree) := by
  obtain ⟨backups, hdirectory, hblocked⟩ := Option.bind_eq_some_iff.mp h
  have hfails := backUp_of_blocked hworking hstands (hbackups backups hdirectory) hblocked
  simp [saveReduced, backUpIfAsked, hdirectory, hfails, Except.map]

/-- What is there stays when a document is backed up. -/
theorem savedAt?_or (hstands : document.Stands tree workingDirectory)
    (h : blocked? tree workingDirectory settings document = none) {location : Location}
    {entry : FileEntry} (hentry : tree.at? location = some entry) :
    (savedAt? tree workingDirectory settings document location).or (tree.at? location) =
      some entry := by
  rw [savedAt?]
  rw [blocked?] at h
  cases hdirectory : settings.backupDirectory with
  | none => exact hentry
  | some backups =>
    rw [hdirectory] at h
    exact backupAt?_or hstands h hentry

/-- A backup that is not blocked is made if there is a directory for that. -/
theorem exists_backUpIfAsked (hworking : tree.at? workingDirectory = some .directory)
    (hstands : document.Stands tree workingDirectory)
    (hbackups : ∀ backups ∈ settings.backupDirectory, backups.Descends)
    (h : blocked? tree workingDirectory settings document = none) :
    ∃ saved, backUpIfAsked tree workingDirectory settings document = (.ok (), saved) ∧
      ∀ location, saved.at? location =
        (savedAt? tree workingDirectory settings document location).or (tree.at? location) := by
  rw [blocked?] at h
  cases hdirectory : settings.backupDirectory with
  | none => exact ⟨tree, by simp [backUpIfAsked, hdirectory], by simp [savedAt?, hdirectory]⟩
  | some backups =>
    rw [hdirectory] at h
    obtain ⟨made, saved, hsaved, hview⟩ :=
      exists_backUp hworking hstands (hbackups backups hdirectory) h
    exact ⟨saved, by simp [backUpIfAsked, hdirectory, hsaved, Except.map],
      fun location => by rw [hview, savedAt?, hdirectory, Option.bind_some]⟩

/-- A document whose backup is not blocked is written. -/
theorem exists_saveReduced (hworking : tree.at? workingDirectory = some .directory)
    (hstands : document.Stands tree workingDirectory)
    (hbackups : ∀ backups ∈ settings.backupDirectory, backups.Descends)
    (h : blocked? tree workingDirectory settings document = none) (reduced : String) :
    ∃ saved, saveReduced tree workingDirectory settings document reduced = (.ok (), saved) ∧
      ∀ location, saved.at? location =
        (if location = document.path.place workingDirectory then some (.file reduced.toUTF8)
          else savedAt? tree workingDirectory settings document location).or
            (tree.at? location) := by
  obtain ⟨middle, hmiddle, hmiddleView⟩ := exists_backUpIfAsked hworking hstands hbackups h
  have hkept {location : Location} {entry : FileEntry} (hentry : tree.at? location = some entry) :
      middle.at? location = some entry := by
    rw [hmiddleView, savedAt?_or hstands h hentry]
  have hfile : middle.isFile workingDirectory document.path = true := by
    obtain ⟨bytes, hbytes⟩ := Option.isSome_iff_exists.mp hstands.isFile
    have hthere := FileTree.bytes?_eq_some_iff.mpr (hkept (FileTree.bytes?_eq_some_iff.mp hbytes))
    exact (FileTree.isFile_iff (hkept hworking) hstands.descends).mpr
      ⟨hstands.endsInName, by simp [hthere]⟩
  obtain ⟨written, hwritten, hview⟩ := FileTree.exists_replaceFile hfile reduced.toUTF8
  rw [hstands.descends.resolved_eq] at hview
  refine ⟨written, by simp only [saveReduced, hmiddle, hwritten, Except.mapError],
    fun location => ?_⟩
  rw [hview location, hmiddleView location]
  split <;> rfl

/-- A document that is not rewritten leaves the tree alone. -/
theorem process_eq_of_kept {outcome : Except RunError Outcome}
    (hprocess : process tree workingDirectory settings mode document = (outcome, tree))
    (hkept : rewrittenWith? mode outcome = none) :
    (process tree workingDirectory settings mode document).1 = outcome ∧
      ∀ location, (process tree workingDirectory settings mode document).2.at? location =
        (entryFrom? tree workingDirectory settings mode document location).or
          (tree.at? location) := by
  refine ⟨by rw [hprocess], fun location => ?_⟩
  simp only [entryFrom?, hprocess, hkept, Option.bind_none, Option.none_or]

/-- A document whose reduced text is another one is modified in writing unless its backup is
blocked. -/
theorem process_write_eq (hworking : tree.at? workingDirectory = some .directory)
    (hstands : document.Stands tree workingDirectory)
    (hbackups : ∀ backups ∈ settings.backupDirectory, backups.Descends) {before reduced : String}
    (hread : tree.readText workingDirectory document.path = .ok before)
    (hreduce : reduceDocument before settings.lineEnding = .ok reduced) (hne : reduced ≠ before) :
    (process tree workingDirectory settings .write document).1 =
        (match blocked? tree workingDirectory settings document with
          | some error => .error error
          | none => .ok (.modified before reduced)) ∧
      ∀ location, (process tree workingDirectory settings .write document).2.at? location =
        (entryFrom? tree workingDirectory settings .write document location).or
          (tree.at? location) := by
  cases hblocked : blocked? tree workingDirectory settings document with
  | some error =>
    exact process_eq_of_kept (by simp [process, hread, hreduce, hne,
      saveReduced_of_blocked hworking hstands hbackups hblocked]) rfl
  | none =>
    obtain ⟨saved, hsaved, hview⟩ := exists_saveReduced hworking hstands hbackups hblocked reduced
    have hprocess : process tree workingDirectory settings .write document =
        (.ok (.modified before reduced), saved) := by
      simp [process, hread, hreduce, hne, hsaved]
    refine ⟨by rw [hprocess], fun location => ?_⟩
    simp only [entryFrom?, hprocess, rewrittenWith?, if_true, Option.bind_some]
    exact hview location

/-- The outcome of processing a document is decided by its bytes and by what is in the way of its
backup, and the tree changes as that outcome says. -/
theorem process_eq (hworking : tree.at? workingDirectory = some .directory)
    (hstands : document.Stands tree workingDirectory)
    (hbackups : ∀ backups ∈ settings.backupDirectory, backups.Descends) {bytes : ByteArray}
    (hbytes : tree.bytes? (document.path.place workingDirectory) = some bytes) :
    (process tree workingDirectory settings mode document).1 =
        outcomeOf settings mode document.path (blocked? tree workingDirectory settings document)
          bytes ∧
      ∀ location, (process tree workingDirectory settings mode document).2.at? location =
        (entryFrom? tree workingDirectory settings mode document location).or
          (tree.at? location) := by
  have hread := readText_eq hworking hstands hbytes
  cases htext : String.fromUTF8? bytes with
  | none =>
    rw [htext] at hread
    rw [outcomeOf, htext]
    exact process_eq_of_kept (by simp [process, hread]) rfl
  | some before =>
    rw [htext] at hread
    simp only [outcomeOf, htext]
    cases hreduce : reduceDocument before settings.lineEnding with
    | error error =>
      cases error <;> exact process_eq_of_kept (by simp [process, hread, hreduce]) rfl
    | ok reduced =>
      by_cases hsame : reduced = before
      · simp only [if_pos hsame]
        exact process_eq_of_kept (by simp [process, hread, hreduce, hsame]) rfl
      · simp only [if_neg hsame]
        cases mode with
        | check => exact process_eq_of_kept (by simp [process, hread, hreduce, hsame]) rfl
        | write =>
          have hwrite := process_write_eq hworking hstands hbackups hread hreduce hsame
          cases hblocked : blocked? tree workingDirectory settings document <;>
            rwa [hblocked] at hwrite

end Menus
