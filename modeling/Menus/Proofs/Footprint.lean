import Menus.Proofs.Processing
import Menus.Proofs.Resolving

/-!
# What a run can change

Whatever paths are given, with steps upwards or without, a run changes only files at locations that
can be told before: those of its documents, and those that the paths of the documents from their
root lead to when they are taken from the backup directory instead. Such a location is below the
backup directory as long as the path never leads above the root.
-/

namespace Menus

namespace FileTree

variable {tree middle after : FileTree} {workingDirectory : Location} {path : Path}
  {places : List Location}

/-- Another tree has the same files, but for some locations. -/
def KeepsFiles (tree : FileTree) (places : List Location) (after : FileTree) : Prop :=
  ∀ location, location ∉ places → after.bytes? location = tree.bytes? location

/-- A tree has the same files as itself. -/
theorem KeepsFiles.refl (tree : FileTree) (places : List Location) : tree.KeepsFiles places tree :=
  fun _ _ => rfl

/-- What two steps keep is kept by both together. -/
theorem KeepsFiles.trans (h : tree.KeepsFiles places middle)
    (hafter : middle.KeepsFiles places after) : tree.KeepsFiles places after :=
  fun location hlocation => (hafter location hlocation).trans (h location hlocation)

/-- Files that are the same but for some locations are so but for more of them. -/
theorem KeepsFiles.mono (h : tree.KeepsFiles places after) {others : List Location}
    (hothers : places ⊆ others) : tree.KeepsFiles others after :=
  fun location hlocation => h location fun hmem => hlocation (hothers hmem)

/-- Only the file at a location is new. -/
theorem WithEntry.keepsFiles {location : Location} {entry : FileEntry}
    (h : tree.WithEntry location entry after) : tree.KeepsFiles [location] after := by
  intro other hother
  rw [bytes?, h, if_neg (by simpa using hother), bytes?]

/-- What writing a file comes to: it is put into the directory of its path. -/
theorem write_eq_ok {bytes : ByteArray} (h : tree.write workingDirectory path bytes = .ok after) :
    ∃ directory name,
      tree.locateParent workingDirectory path.dropSlashes = .ok (directory, name) ∧
        path.endsInSlash = false ∧ tree.Takes directory name (.file bytes) ∧
        tree.put directory name (.file bytes) = after := by
  rw [write] at h
  cases hparent : tree.locateParent workingDirectory path.dropSlashes with
  | error error => simp [hparent, bind, Except.bind] at h
  | ok parent =>
    obtain ⟨directory, name⟩ := parent
    simp only [hparent, bind, Except.bind] at h
    split at h
    case isTrue => cases h
    case isFalse hslash =>
      split at h
      case isTrue => cases h
      case isFalse hname =>
        split at h
        case isTrue => cases h
        case isFalse hfree =>
          obtain ⟨hidle, hup⟩ : isIdleSegment name = false ∧ name ≠ ".." := by simpa using hname
          have hdirectory := (resolved_eq_of_locateParent hparent hidle hup).1
          exact ⟨directory, name, rfl, by simpa using hslash,
            takes_file hdirectory ⟨hidle, hup⟩ hfree bytes, Except.ok.inj h⟩

/-- Writing a file changes what is at the resolved location of its path and nothing else. -/
theorem withEntry_of_write {bytes : ByteArray}
    (h : tree.write workingDirectory path bytes = .ok after) :
    tree.WithEntry (path.resolved workingDirectory) (.file bytes) after := by
  obtain ⟨directory, name, hparent, -, htakes, rfl⟩ := write_eq_ok h
  obtain ⟨-, hresolved⟩ := resolved_eq_of_locateParent hparent htakes.2.1.1 htakes.2.1.2
  rw [Path.resolved_dropSlashes] at hresolved
  intro other
  rw [at?_put htakes, hresolved]

/-! ### Making directories -/

/-- Another tree has directories where nothing was, and is the same everywhere else. -/
def AddsDirectories (tree after : FileTree) : Prop :=
  ∀ location, after.at? location = tree.at? location ∨
    tree.at? location = none ∧ after.at? location = some .directory

/-- No directory has to be added to a tree to have it. -/
theorem AddsDirectories.refl (tree : FileTree) : tree.AddsDirectories tree := fun _ => Or.inl rfl

/-- Directories that are added in two steps are added. -/
theorem AddsDirectories.trans (h : tree.AddsDirectories middle)
    (hafter : middle.AddsDirectories after) : tree.AddsDirectories after := by
  intro location
  rcases hafter location with hsame | ⟨hnone, hdirectory⟩ <;>
    rcases h location with hbefore | ⟨hfree, hmade⟩
  · exact Or.inl (hsame.trans hbefore)
  · exact Or.inr ⟨hfree, hsame.trans hmade⟩
  · exact Or.inr ⟨hbefore ▸ hnone, hdirectory⟩
  · exact Or.inr ⟨hfree, hdirectory⟩

/-- Whatever is there stays. -/
theorem AddsDirectories.at?_eq (h : tree.AddsDirectories after) {location : Location}
    {entry : FileEntry} (hentry : tree.at? location = some entry) :
    after.at? location = some entry := by
  rcases h location with hsame | ⟨hnone, -⟩
  · exact hsame.trans hentry
  · rw [hnone] at hentry
    cases hentry

/-- Added directories change no file. -/
theorem AddsDirectories.bytes?_eq (h : tree.AddsDirectories after) (location : Location) :
    after.bytes? location = tree.bytes? location := by
  rcases h location with hsame | ⟨hnone, hmade⟩
  · rw [bytes?, hsame, bytes?]
  · rw [bytes?, hmade, bytes?, hnone]
    rfl

/-- A directory is made where nothing was. -/
theorem addsDirectories_of_makeDirectory
    (h : tree.makeDirectory workingDirectory path = .ok after) : tree.AddsDirectories after := by
  rw [makeDirectory] at h
  cases hparent : tree.locateParent workingDirectory path.trimEnd with
  | error error => simp [hparent, bind, Except.bind] at h
  | ok parent =>
    obtain ⟨directory, name⟩ := parent
    simp only [hparent, bind, Except.bind] at h
    split at h
    case isTrue => cases h
    case isFalse hname =>
      split at h
      case isTrue => cases h
      case isFalse hfree =>
        obtain ⟨hidle, hup⟩ : isIdleSegment name = false ∧ name ≠ ".." := by simpa using hname
        have hnone : tree.at? (directory ++ [name]) = none := by simpa using hfree
        have htakes : tree.Takes directory name .directory :=
          ⟨(resolved_eq_of_locateParent hparent hidle hup).1, ⟨hidle, hup⟩, Or.inl hnone⟩
        intro location
        rw [← Except.ok.inj h, at?_put htakes]
        split
        case isTrue hlocation => exact Or.inr ⟨hlocation ▸ hnone, rfl⟩
        case isFalse => exact Or.inl rfl

/-- Making directories adds directories, also when it fails. -/
theorem addsDirectories_makeDirectoriesOf (tree : FileTree) (workingDirectory : Location)
    (paths : List Path) :
    tree.AddsDirectories (tree.makeDirectoriesOf workingDirectory paths).2 := by
  induction paths generalizing tree with
  | nil => exact .refl _
  | cons path parents ih =>
    rw [makeDirectoriesOf]
    split
    · exact .refl _
    · split
      case h_1 made hmade => exact addsDirectories_of_makeDirectory hmade
      case h_2 => exact .refl _
      case h_3 =>
        have hparents := ih tree
        split
        case h_1 middle hmiddle => rwa [hmiddle] at hparents
        case h_2 middle hmiddle =>
          rw [hmiddle] at hparents
          split
          case h_1 made hmade => exact hparents.trans (addsDirectories_of_makeDirectory hmade)
          case h_2 => exact hparents
      case h_4 => exact .refl _

/-! ### Copying -/

/-- What copying a file comes to: the target is emptied, and then what is left of the source is
written there. -/
theorem copy_eq_ok {source target : Path}
    (h : tree.copy workingDirectory source target = .ok after) :
    tree.isFile workingDirectory source = true ∧
      ∃ emptied, tree.write workingDirectory target .empty = .ok emptied ∧
        emptied.write workingDirectory target
          ((emptied.bytes? (source.resolved workingDirectory)).getD .empty) = .ok after := by
  rw [copy] at h
  cases hlocate : tree.locate workingDirectory source with
  | error error => simp [hlocate, bind, Except.bind] at h
  | ok location =>
    obtain rfl := eq_resolved_of_locate hlocate
    simp only [hlocate, bind, Except.bind] at h
    split at h
    case h_1 => cases h
    case h_2 => cases h
    case h_3 bytes hfile =>
      refine ⟨by simp [isFile, find?, hlocate, hfile, FileEntry.bytes?], ?_⟩
      cases hemptied : tree.write workingDirectory target .empty with
      | error error => simp [hemptied] at h
      | ok emptied =>
        simp only [hemptied] at h
        exact ⟨emptied, rfl, h⟩

/-- Copying puts a file at the resolved location of the target and changes nothing else. -/
theorem withEntry_of_copy {source target : Path}
    (h : tree.copy workingDirectory source target = .ok after) :
    ∃ bytes, tree.WithEntry (target.resolved workingDirectory) (.file bytes) after := by
  obtain ⟨-, emptied, hemptied, hcopied⟩ := copy_eq_ok h
  exact ⟨_, (withEntry_of_write hemptied).again (withEntry_of_write hcopied)⟩

/-- What is left of a copy that a disk refuses: everything is as before, or there is a file at the
target, which can be copied to. -/
theorem copyPart_cases (tree : FileTree) (workingDirectory : Location) (source target : Path)
    (progress : Option Nat) :
    tree.copyPart workingDirectory source target progress = tree ∨
      ∃ copied bytes, tree.copy workingDirectory source target = .ok copied ∧
        tree.WithEntry (target.resolved workingDirectory) (.file bytes)
          (tree.copyPart workingDirectory source target progress) := by
  cases progress with
  | none => exact Or.inl rfl
  | some count =>
    cases hcopied : tree.copy workingDirectory source target with
    | error error => exact Or.inl (by simp [copyPart, hcopied])
    | ok copied =>
      obtain ⟨bytes, hview⟩ := withEntry_of_copy hcopied
      obtain ⟨written, hpart⟩ : ∃ written,
          tree.copyPart workingDirectory source target (some count) =
            (copied.write workingDirectory target written).toOption.getD copied :=
        ⟨_, by simp only [copyPart, hcopied]; rfl⟩
      rw [hpart]
      cases hwritten : copied.write workingDirectory target written with
      | error error => exact Or.inr ⟨copied, bytes, rfl, hview⟩
      | ok part =>
        exact Or.inr ⟨copied, written, rfl, hview.again (withEntry_of_write hwritten)⟩

end FileTree

open FileTree (KeepsFiles)

variable {tree : FileTree} {workingDirectory : Location} {settings : Settings} {mode : RunMode}
  {document : MenuDocument} {documents : List MenuDocument}

/-! ### One document -/

/-- Making room makes directories only, also when it fails. -/
theorem addsDirectories_makeRoom (tree : FileTree) (workingDirectory : Location) (target : Path)
    (disk : Disk) : tree.AddsDirectories (makeRoom tree workingDirectory target disk).2 := by
  rw [makeRoom]
  split
  case h_1 => exact .refl _
  case h_2 =>
    split
    case h_1 => exact FileTree.addsDirectories_makeDirectoriesOf _ _ _
    case h_2 => exact FileTree.addsDirectories_makeDirectoriesOf _ _ _

/-- Copying to a target makes directories for it, and then the file is copied, or it fails. In a
failure the disk may refuse to complete a file that it has begun. -/
theorem copyInto_cases (tree : FileTree) (workingDirectory : Location) (source target : Path)
    (disk : Disk) :
    (∃ error after, copyInto tree workingDirectory source target disk = (.error error, after) ∧
        (tree.AddsDirectories after ∨ (disk.fault? .copy target).isSome ∧
          ∃ middle copied bytes, tree.AddsDirectories middle ∧
            middle.copy workingDirectory source target = .ok copied ∧
            middle.WithEntry (target.resolved workingDirectory) (.file bytes) after)) ∨
      ∃ middle after, copyInto tree workingDirectory source target disk = (.ok (), after) ∧
        tree.AddsDirectories middle ∧
        middle.copy workingDirectory source target = .ok after := by
  have hroom := addsDirectories_makeRoom tree workingDirectory target disk
  rw [copyInto]
  split
  case h_1 error made hmade =>
    rw [hmade] at hroom
    exact Or.inl ⟨error, made, rfl, Or.inl hroom⟩
  case h_2 made hmade =>
    rw [hmade] at hroom
    split
    case h_1 fault hfault =>
      refine Or.inl ⟨_, _, rfl, ?_⟩
      rcases FileTree.copyPart_cases made workingDirectory source target fault.progress with
        hkept | ⟨copied, bytes, hcopied, hview⟩
      · exact Or.inl (by rwa [hkept])
      · exact Or.inr ⟨by simp [hfault], made, copied, bytes, hroom, hcopied, hview⟩
    case h_2 =>
      split
      case h_1 error _ => exact Or.inl ⟨_, made, rfl, Or.inl hroom⟩
      case h_2 copied hcopied => exact Or.inr ⟨made, copied, rfl, hroom, hcopied⟩

/-- Copying to a target changes no other file, also when it fails. -/
theorem keepsFiles_copyInto (tree : FileTree) (workingDirectory : Location) (source target : Path)
    (disk : Disk := .sound) : tree.KeepsFiles [target.resolved workingDirectory]
      (copyInto tree workingDirectory source target disk).2 := by
  have hadded {middle after : FileTree} {bytes : ByteArray} (hmade : tree.AddsDirectories middle)
      (hview : middle.WithEntry (target.resolved workingDirectory) (.file bytes) after) :
      tree.KeepsFiles [target.resolved workingDirectory] after := by
    intro location hlocation
    rw [hview.keepsFiles location hlocation, hmade.bytes?_eq]
  rcases copyInto_cases tree workingDirectory source target disk with
    ⟨error, after, hcopy, hmade | ⟨-, middle, copied, bytes, hmade, -, hview⟩⟩ |
    ⟨middle, after, hcopy, hmade, hcopied⟩ <;> rw [hcopy]
  · exact fun location _ => hmade.bytes?_eq location
  · exact hadded hmade hview
  · obtain ⟨bytes, hview⟩ := FileTree.withEntry_of_copy hcopied
    exact hadded hmade hview

/-- Where the backup of a document goes that has a path from its root. -/
def MenuDocument.backupLocations (document : MenuDocument) (settings : Settings)
    (workingDirectory : Location) : List Location :=
  settings.backupDirectory.toList.flatMap fun backups =>
    (document.path.strip? document.root).toList.map fun relative =>
      (backups.join relative).resolved workingDirectory

/-- The locations that processing a document may change: its own and that of its backup. -/
def MenuDocument.footprint (document : MenuDocument) (settings : Settings)
    (workingDirectory : Location) : List Location :=
  document.path.resolved workingDirectory :: document.backupLocations settings workingDirectory

/-- A document has a place for its backup if there is a path to it from its root. -/
theorem MenuDocument.mem_backupLocations {location : Location} :
    location ∈ document.backupLocations settings workingDirectory ↔
      ∃ backups ∈ settings.backupDirectory,
        document.path.strip? document.root = some document.relative ∧
          location = (backups.join document.relative).resolved workingDirectory := by
  rw [relative]
  cases hstrip : document.path.strip? document.root with
  | none => simp [backupLocations, hstrip]
  | some relative => simp [backupLocations, hstrip]

/-- Backing up a document changes no file but the backup, also when it fails. -/
theorem keepsFiles_backUp (tree : FileTree) (workingDirectory : Location) (document : MenuDocument)
    (backups : Path) (disk : Disk) :
    tree.KeepsFiles ((document.path.strip? document.root).toList.map fun relative =>
        (backups.join relative).resolved workingDirectory)
      (backUp tree workingDirectory document backups disk).2 := by
  rw [backUp]
  cases document.path.strip? document.root with
  | none => exact .refl _ _
  | some relative =>
    have hcopy :=
      keepsFiles_copyInto tree workingDirectory document.path (backups.join relative) disk
    dsimp only
    split
    case isTrue => exact .refl _ _
    case isFalse =>
      split
      case h_1 failed hfailed => rwa [hfailed] at hcopy
      case h_2 copied hcopied => rwa [hcopied] at hcopy

/-- So does backing it up if there is a directory for that. -/
theorem keepsFiles_backUpIfAsked (tree : FileTree) (workingDirectory : Location)
    (settings : Settings) (document : MenuDocument) (disk : Disk := .sound) :
    tree.KeepsFiles (document.backupLocations settings workingDirectory)
      (backUpIfAsked tree workingDirectory settings document disk).2 := by
  rw [backUpIfAsked, MenuDocument.backupLocations]
  cases settings.backupDirectory with
  | none => exact .refl _ _
  | some backups =>
    exact (keepsFiles_backUp tree workingDirectory document backups disk).mono (by simp)

/-- Writing a document changes its file, which then holds the reduced text, and that of its backup.
A failure may leave the backup. -/
theorem keepsFiles_saveReduced (tree : FileTree) (workingDirectory : Location) (settings : Settings)
    (document : MenuDocument) (reduced : String) :
    tree.KeepsFiles (document.footprint settings workingDirectory)
        (saveReduced tree workingDirectory settings document reduced).2 ∧
      ((saveReduced tree workingDirectory settings document reduced).1 = .ok () →
        (saveReduced tree workingDirectory settings document reduced).2.bytes?
          (document.path.resolved workingDirectory) = some reduced.toUTF8) := by
  have hbackup := (keepsFiles_backUpIfAsked tree workingDirectory settings document).mono
    (List.subset_cons_self (document.path.resolved workingDirectory) _)
  rw [saveReduced]
  split
  case h_1 saved hsaved =>
    rw [hsaved] at hbackup
    exact ⟨hbackup, fun hok => by cases hok⟩
  case h_2 saved hsaved =>
    rw [hsaved] at hbackup
    rcases FileTree.replaceFile_sound_cases saved workingDirectory document.path reduced.toUTF8 with
      ⟨error, hfailed⟩ | ⟨written, hwritten, hreplaced⟩
    · rw [hfailed]
      exact ⟨hbackup, fun hok => by cases hok⟩
    · have hview := FileTree.withEntry_of_write hwritten
      rw [hreplaced]
      refine ⟨hbackup.trans (hview.keepsFiles.mono (by simp)), fun _ => ?_⟩
      rw [FileTree.bytes?, hview, if_pos rfl]
      rfl

/-- What processing a document can do to the files: nothing, or what writing its reduced text does.
It is rewritten with a text that differs from the one it holds. -/
theorem process_cases (tree : FileTree) (workingDirectory : Location) (settings : Settings)
    (mode : RunMode) (document : MenuDocument) (disk : Disk := .sound) :
    (process tree workingDirectory settings mode document disk).2 = tree ∧
        rewrittenWith? mode (process tree workingDirectory settings mode document disk).1 = none ∨
      ∃ before reduced, mode = .write ∧
        disk.attempt .read document.path (tree.readText workingDirectory document.path) =
          .ok before ∧
        reduceDocument before settings.lineEnding = .ok reduced ∧ reduced ≠ before ∧
        process tree workingDirectory settings mode document disk =
          ((saveReduced tree workingDirectory settings document reduced disk).1.map
              fun _ => .modified before reduced,
            (saveReduced tree workingDirectory settings document reduced disk).2) := by
  rw [process]
  split
  case h_1 => exact Or.inl ⟨rfl, rfl⟩
  case h_2 before hread =>
    split
    case h_1 => exact Or.inl ⟨rfl, rfl⟩
    case h_2 => exact Or.inl ⟨rfl, rfl⟩
    case h_3 reduced hreduce =>
      split
      case isTrue => exact Or.inl ⟨rfl, rfl⟩
      case isFalse hne =>
        cases mode with
        | check => exact Or.inl ⟨rfl, rfl⟩
        | write =>
          refine Or.inr ⟨before, reduced, rfl, hread, hreduce, hne, ?_⟩
          dsimp only
          split
          case h_1 failed hfailed => rw [hfailed]; rfl
          case h_2 saved hsaved => rw [hsaved]; rfl

/-- A document that writing modifies was read and reduced to another text, which its file holds
then. -/
theorem process_of_modified {before reduced : String}
    (h : (process tree workingDirectory settings .write document).1 =
      .ok (.modified before reduced)) :
    tree.readText workingDirectory document.path = .ok before ∧
      reduceDocument before settings.lineEnding = .ok reduced ∧ reduced ≠ before ∧
      (process tree workingDirectory settings .write document).2.bytes?
        (document.path.resolved workingDirectory) = some reduced.toUTF8 := by
  rcases process_cases tree workingDirectory settings .write document with
    ⟨-, hkept⟩ | ⟨text, written, -, hread, hreduce, hne, hprocess⟩
  · simp [h, rewrittenWith?] at hkept
  · have hfile := (keepsFiles_saveReduced tree workingDirectory settings document written).2
    rw [hprocess] at h ⊢
    dsimp only at h ⊢
    cases hsaved : (saveReduced tree workingDirectory settings document written).1 with
    | error error => simp [hsaved, Except.map] at h
    | ok =>
      obtain ⟨rfl, rfl⟩ : text = before ∧ written = reduced := by
        simpa [hsaved, Except.map] using h
      exact ⟨hread, hreduce, hne, hfile hsaved⟩

/-- Processing a document changes files only in its footprint. -/
theorem keepsFiles_process (tree : FileTree) (workingDirectory : Location) (settings : Settings)
    (mode : RunMode) (document : MenuDocument) :
    tree.KeepsFiles (document.footprint settings workingDirectory)
      (process tree workingDirectory settings mode document).2 := by
  rcases process_cases tree workingDirectory settings mode document with
    ⟨hkept, -⟩ | ⟨before, reduced, -, -, -, -, hprocess⟩
  · rw [hkept]
    exact .refl _ _
  · rw [hprocess]
    exact (keepsFiles_saveReduced tree workingDirectory settings document reduced).1

/-! ### Whole runs -/

/-- A run changes only files in the footprints of its documents. -/
theorem keepsFiles_run (tree : FileTree) (workingDirectory : Location) (settings : Settings)
    (mode : RunMode) (documents : List MenuDocument) :
    tree.KeepsFiles (documents.flatMap fun document => document.footprint settings workingDirectory)
      (run tree workingDirectory settings mode documents).2 := by
  induction documents generalizing tree with
  | nil => exact .refl _ _
  | cons document documents ih =>
    rw [List.flatMap_cons]
    refine ((keepsFiles_process tree workingDirectory settings mode document).mono
      (List.subset_append_left _ _)).trans ?_
    exact (ih _).mono (List.subset_append_right _ _)

/-- **What a run changes.** A file that a run changes is a document, or lies where the path of a
document from the root leads when it is taken from the backup directory on. That is below the backup
directory as long as the path does not lead above the root, which it never does when the given paths
have no steps upwards. -/
theorem changed_by_run {surroundings : Surroundings}
    (hworking : tree.at? surroundings.workingDirectory = some .directory) {paths : List Path}
    (hcollect : collect tree surroundings settings paths = .ok documents) {location : Location}
    (hchanged :
      (run tree surroundings.workingDirectory settings .write documents).2.bytes? location ≠
        tree.bytes? location) :
    (∃ document ∈ documents, location = document.path.resolved surroundings.workingDirectory) ∨
      ∃ backups ∈ settings.backupDirectory, ∃ document ∈ documents,
        location = (backups.join document.relative).resolved surroundings.workingDirectory ∧
        (document.relative.StaysBelow → ∃ names, names ≠ [] ∧
          location = backups.resolved surroundings.workingDirectory ++ names) ∧
        ((∀ path ∈ paths, path.Descends) → document.relative.StaysBelow) := by
  have hmem : location ∈ documents.flatMap
      fun document => document.footprint settings surroundings.workingDirectory := by
    by_contra hout
    exact hchanged (keepsFiles_run tree surroundings.workingDirectory settings .write documents
      location hout)
  obtain ⟨document, hdocument, hlocation⟩ := List.mem_flatMap.mp hmem
  rcases List.mem_cons.mp hlocation with hplace | hbackup
  · exact Or.inl ⟨document, hdocument, hplace⟩
  · obtain ⟨backups, hbackups, -, hplace⟩ := MenuDocument.mem_backupLocations.mp hbackup
    refine Or.inr ⟨backups, hbackups, document, hdocument, hplace, fun hstays => ?_,
      fun hpaths => ?_⟩
    · rw [hplace, Path.resolved_join backups hstays.1]
      obtain ⟨names, hnames, hresolve⟩ :=
        hstays.exists_resolve_eq (backups.resolved surroundings.workingDirectory)
      exact ⟨names, hnames, hresolve⟩
    · obtain ⟨⟨root, hcollected⟩, -⟩ := exists_collected hworking hpaths hcollect
      have hstands := hcollected.stands document hdocument
      exact hstands.relative_descends.staysBelow hstands.relative_rooted
        hstands.relative_endsInName.names_ne_nil

/-- A directory without a document next to one that holds one, and a third one. -/
def besideMenu : FileTree :=
  let tree := (FileTree.empty.put [] "sub" .directory).put [] "other" .directory
  (tree.put [] "x" .directory).put ["other"] "menu.selfml"
    (.file "(menu snippet.x action.y)".toUTF8)

/-- Given paths with steps upwards, from which the document is found without one. -/
theorem changed_by_run_beside_menu :
    let settings : Settings := { backupDirectory := some (Path.ofText "x/kept") }
    let paths := [Path.ofText "sub/..", Path.ofText "sub/../other"]
    let documents : List MenuDocument :=
      [⟨⟨true, ["sub", ".."]⟩, ⟨true, ["sub", "..", "other", "menu.selfml"]⟩⟩]
    let location := ["x", "kept", "other", "menu.selfml"]
    collect besideMenu ⟨[], {}⟩ settings paths = .ok documents ∧
      (run besideMenu [] settings .write documents).2.bytes? location ≠
        besideMenu.bytes? location ∧
      ((∃ document ∈ documents, location = document.path.resolved []) ∨
        ∃ backups ∈ settings.backupDirectory, ∃ document ∈ documents,
          location = (backups.join document.relative).resolved [] ∧
          (document.relative.StaysBelow → ∃ names, names ≠ [] ∧
            location = backups.resolved [] ++ names) ∧
          ((∀ path ∈ paths, path.Descends) → document.relative.StaysBelow)) := by
  intro settings paths documents location
  have hcollect : collect besideMenu ⟨[], {}⟩ settings paths = .ok documents :=
    collect_of_found_in_order
      [(⟨true, ["sub", ".."]⟩, [⟨true, ["sub", "..", "other", "menu.selfml"]⟩]),
        (⟨true, ["sub", "..", "other"]⟩, [⟨true, ["sub", "..", "other", "menu.selfml"]⟩])]
      (by decide +kernel) (by decide +kernel)
  have hchanged : (run besideMenu [] settings .write documents).2.bytes? location ≠
      besideMenu.bytes? location := by decide +kernel
  exact ⟨hcollect, hchanged, changed_by_run (by decide) hcollect hchanged⟩

/-- A directory that is given together with the one above it, by a step upwards, is their common
root. From there another directory is found by a step upwards, which leads out of the backup
directory as well. -/
theorem backup_beside_directory :
    let settings : Settings := { backupDirectory := some (Path.ofText "x/kept") }
    let paths := [Path.ofText "sub", Path.ofText "sub/.."]
    let documents : List MenuDocument :=
      [⟨⟨true, ["sub"]⟩, ⟨true, ["sub", "..", "other", "menu.selfml"]⟩⟩]
    let location := ["x", "other", "menu.selfml"]
    let after := (run besideMenu [] settings .write documents).2
    collect besideMenu ⟨[], {}⟩ settings paths = .ok documents ∧
      after.bytes? location = some "(menu snippet.x action.y)".toUTF8 ∧
      besideMenu.bytes? location = none ∧
      ¬((∃ document ∈ documents, location = document.path.resolved []) ∨
        (Path.ofText "x/kept").resolved [] <+: location) := by
  intro settings paths documents location after
  refine ⟨?_, by decide +kernel, by decide +kernel, by decide +kernel⟩
  exact collect_of_found_in_order
    [(⟨true, ["sub"]⟩, []),
      (⟨true, ["sub", ".."]⟩, [⟨true, ["sub", "..", "other", "menu.selfml"]⟩])]
    (by decide +kernel) (by decide +kernel)

end Menus
