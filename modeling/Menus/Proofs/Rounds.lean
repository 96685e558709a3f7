import Menus.Proofs.RunOrder

/-!
# Rounds of collecting and running

One directory for backups is used again and again: documents are collected, some of them are
rewritten, and what a round leaves is what the next one finds. Whatever is there stays until it is
rewritten as a document, and all that is new among the backups is on the way to the backup of a
document that was rewritten.

A document is backed up at its path from the root it was collected under, and the root depends on
the paths that are given. So an earlier document can already have its backup where that of another
one is to go, and a backup inside a directory that is walked can be collected as a document itself.
-/

namespace Menus

/-- What a run over the documents that some paths lead to makes of them, with the tree it leaves.
Nothing happens when they cannot be collected. -/
def round (tree : FileTree) (surroundings : Surroundings) (settings : Settings)
    (paths : List Path) : List RunResult × FileTree :=
  match collect tree surroundings settings paths with
  | .error _ => ([], tree)
  | .ok documents => run tree surroundings.workingDirectory settings .write documents

/-- The documents that are modified in rounds one after the other, with the tree that is left. -/
def rounds (tree : FileTree) (surroundings : Surroundings) (settings : Settings) :
    List (List Path) → List MenuDocument × FileTree
  | [] => ([], tree)
  | paths :: others =>
    let (results, after) := round tree surroundings settings paths
    let (modified, last) := rounds after surroundings settings others
    (modifiedOf results ++ modified, last)

/-- The documents of a round: those that its paths lead to, if they can be collected. -/
def roundDocuments (tree : FileTree) (surroundings : Surroundings) (settings : Settings)
    (paths : List Path) : List MenuDocument :=
  match collect tree surroundings settings paths with
  | .error _ => []
  | .ok documents => documents

/-- The documents that are collected in rounds one after the other. -/
def roundsDocuments (tree : FileTree) (surroundings : Surroundings) (settings : Settings) :
    List (List Path) → List MenuDocument
  | [] => []
  | paths :: others =>
    roundDocuments tree surroundings settings paths ++
      roundsDocuments (round tree surroundings settings paths).2 surroundings settings others

variable {tree : FileTree} {surroundings : Surroundings} {settings : Settings} {backups : Path}
  {paths : List Path} {history : List (List Path)} {location : Location}

/-! ### One round -/

/-- A round is a run over separate documents that given paths lead to. -/
theorem exists_round (settings : Settings)
    (hworking : tree.at? surroundings.workingDirectory = some .directory)
    (hpaths : ∀ path ∈ paths, path.Descends) :
    ∃ root, Separate tree surroundings.workingDirectory root
        (roundDocuments tree surroundings settings paths) ∧
      (∀ document ∈ roundDocuments tree surroundings settings paths, ∃ path ∈ paths,
        path.place surroundings.workingDirectory <+:
          document.path.place surroundings.workingDirectory) ∧
      round tree surroundings settings paths =
        run tree surroundings.workingDirectory settings .write
          (roundDocuments tree surroundings settings paths) := by
  rw [round, roundDocuments]
  cases hcollect : collect tree surroundings settings paths with
  | error error => exact ⟨.empty, ⟨hworking, by simp, by simp, List.Pairwise.nil⟩, by simp, rfl⟩
  | ok documents =>
    obtain ⟨⟨root, hcollected⟩, hfound⟩ := exists_collected hworking hpaths hcollect
    exact ⟨root, hcollected.separate hworking, hfound, rfl⟩

section Step

variable (hworking : tree.at? surroundings.workingDirectory = some .directory)
  (hpaths : ∀ path ∈ paths, path.Descends)
  (hbackups : ∀ backups ∈ settings.backupDirectory, backups.Descends)

include hworking hpaths hbackups

/-- The working directory stays. -/
theorem at?_round_working : (round tree surroundings settings paths).2.at?
    surroundings.workingDirectory = some .directory := by
  obtain ⟨root, h, -, hround⟩ := exists_round settings hworking hpaths
  rw [hround]
  exact at?_run_of_some h hbackups hworking fun document hdocument _ => h.working_ne_place hdocument

/-- Every document that a round modifies was a file below its root before. -/
theorem stands_of_mem_round {document : MenuDocument}
    (hdocument : document ∈ modifiedOf (round tree surroundings settings paths).1) :
    document.Stands tree surroundings.workingDirectory := by
  obtain ⟨root, h, -, hround⟩ := exists_round settings hworking hpaths
  rw [hround, mem_modifiedOf_run h hbackups] at hdocument
  exact h.stands document hdocument.1

/-- Every document that a round modifies was collected for it. -/
theorem mem_roundDocuments_of_modified {document : MenuDocument}
    (hdocument : document ∈ modifiedOf (round tree surroundings settings paths).1) :
    document ∈ roundDocuments tree surroundings settings paths := by
  obtain ⟨root, h, -, hround⟩ := exists_round settings hworking hpaths
  rw [hround, mem_modifiedOf_run h hbackups] at hdocument
  exact hdocument.1

/-- Whatever is there stays in a round, unless it is a document that the round modifies. -/
theorem at?_round_of_some {entry : FileEntry} (hentry : tree.at? location = some entry)
    (hplaces : ∀ document ∈ modifiedOf (round tree surroundings settings paths).1,
      location ≠ document.path.place surroundings.workingDirectory) :
    (round tree surroundings settings paths).2.at? location = some entry := by
  obtain ⟨root, h, -, hround⟩ := exists_round settings hworking hpaths
  rw [hround] at hplaces ⊢
  exact at?_run_of_some h hbackups hentry fun document hdocument hrewritten =>
    hplaces document ((mem_modifiedOf_run h hbackups).mpr ⟨hdocument, hrewritten⟩)

/-- A file is still a file after a round. -/
theorem isFile_round (hfile : (tree.bytes? location).isSome) :
    ((round tree surroundings settings paths).2.bytes? location).isSome := by
  by_cases hplace : ∃ document ∈ modifiedOf (round tree surroundings settings paths).1,
      location = document.path.place surroundings.workingDirectory
  · obtain ⟨root, h, -, hround⟩ := exists_round settings hworking hpaths
    rw [hround] at hplace ⊢
    obtain ⟨document, hdocument, rfl⟩ := hplace
    rw [mem_modifiedOf_run h hbackups] at hdocument
    exact isFile_run_place h hbackups hdocument.1 hdocument.2
  · obtain ⟨bytes, hbytes⟩ := Option.isSome_iff_exists.mp hfile
    rw [FileTree.bytes?_eq_some_iff] at hbytes
    have hkept := at?_round_of_some hworking hpaths hbackups hbytes
      fun document hdocument hsame => hplace ⟨document, hdocument, hsame⟩
    rw [FileTree.bytes?, hkept]
    rfl

/-- What is new after a round is the backup of a document that it modifies, with the bytes the
document had, or a directory on the way there. -/
theorem exists_backup_of_new {entry : FileEntry} (hnone : tree.at? location = none)
    (hentry : (round tree surroundings settings paths).2.at? location = some entry) :
    ∃ document ∈ modifiedOf (round tree surroundings settings paths).1,
      ∃ backups ∈ settings.backupDirectory,
        location = document.backupPlace backups surroundings.workingDirectory ∧
            tree.at? (document.path.place surroundings.workingDirectory) = some entry ∨
          location <+: document.backupPlace backups surroundings.workingDirectory ∧
            entry = .directory := by
  obtain ⟨root, h, -, hround⟩ := exists_round settings hworking hpaths
  rw [hround, at?_run h hbackups, hnone, Option.or_none] at hentry
  obtain ⟨document, hdocument, hfrom⟩ := (entryFromRun?_eq_some_iff h hbackups).mp hentry
  have hmodified := (mem_modifiedOf_run h hbackups).mpr ⟨hdocument, isRewritten_of_entryFrom? hfrom⟩
  rw [hround]
  refine ⟨document, hmodified, ?_⟩
  rcases entryFrom?_cases h.working (h.stands document hdocument) hbackups hfrom with
    rfl | ⟨backups, hdirectory, -, -, ⟨hplace, hfile⟩ | ⟨habove, hdir⟩⟩
  · have hfile := (h.stands document hdocument).isFile
    rw [FileTree.bytes?, hnone] at hfile
    cases hfile
  · exact ⟨backups, hdirectory, Or.inl ⟨hplace, hfile⟩⟩
  · exact ⟨backups, hdirectory, Or.inr ⟨habove.trans (List.dropLast_prefix _), hdir⟩⟩

/-- A modified document whose backup is not there yet is backed up with the bytes it had. -/
theorem exists_backup_of_mem_round {document : MenuDocument}
    (hdocument : document ∈ modifiedOf (round tree surroundings settings paths).1)
    (hdirectory : backups ∈ settings.backupDirectory)
    (hnone : tree.at? (document.backupPlace backups surroundings.workingDirectory) = none) :
    ∃ bytes, tree.bytes? (document.path.place surroundings.workingDirectory) = some bytes ∧
      (round tree surroundings settings paths).2.bytes?
        (document.backupPlace backups surroundings.workingDirectory) = some bytes := by
  obtain ⟨root, h, -, hround⟩ := exists_round settings hworking hpaths
  rw [hround, mem_modifiedOf_run h hbackups] at hdocument
  obtain ⟨bytes, hbytes⟩ := Option.isSome_iff_exists.mp (h.stands document hdocument.1).isFile
  refine ⟨bytes, hbytes, ?_⟩
  rw [hround, FileTree.bytes?,
    at?_run_backupPlace h hbackups hdocument.1 hdocument.2 hdirectory hnone, ← FileTree.bytes?,
    hbytes]

end Step

/-! ### All rounds -/

/-- What rounds that modify some documents can make of a tree: all files stay, and with their bytes
if they are none of these documents, and what is new is on the way to the backup of one of them. -/
structure Advance (workingDirectory : Location) (settings : Settings) (tree : FileTree)
    (modified : List MenuDocument) (after : FileTree) : Prop where
  working : after.at? workingDirectory = some .directory
  isFile : ∀ location, (tree.bytes? location).isSome → (after.bytes? location).isSome
  stands : ∀ document ∈ modified, document.Stands after workingDirectory
  keeps : ∀ location entry, tree.at? location = some entry →
    (∀ document ∈ modified, location ≠ document.path.place workingDirectory) →
      after.at? location = some entry
  backup_of_new : ∀ location, tree.at? location = none → after.at? location ≠ none →
    ∃ document ∈ modified, ∃ backups ∈ settings.backupDirectory,
      location <+: document.backupPlace backups workingDirectory

namespace Advance

variable {workingDirectory : Location} {middle after : FileTree}
  {modified others : List MenuDocument}

/-- Nothing happens to a tree without rounds. -/
theorem refl (settings : Settings) (hworking : tree.at? workingDirectory = some .directory) :
    Advance workingDirectory settings tree [] tree where
  working := hworking
  isFile _ hfile := hfile
  stands := by simp
  keeps _ _ hentry _ := hentry
  backup_of_new _ hnone hsome := absurd hnone hsome

/-- What two rounds after one another make of a tree. -/
theorem trans (hfirst : Advance workingDirectory settings tree modified middle)
    (hsecond : Advance workingDirectory settings middle others after) :
    Advance workingDirectory settings tree (modified ++ others) after where
  working := hsecond.working
  isFile location hfile := hsecond.isFile location (hfirst.isFile location hfile)
  stands := by
    refine List.forall_mem_append.mpr ⟨fun document hdocument => ?_, hsecond.stands⟩
    have hstands := hfirst.stands document hdocument
    exact { hstands with isFile := hsecond.isFile _ hstands.isFile }
  keeps location entry hentry hplaces := by
    obtain ⟨hplaces, hotherPlaces⟩ := List.forall_mem_append.mp hplaces
    exact hsecond.keeps location entry (hfirst.keeps location entry hentry hplaces) hotherPlaces
  backup_of_new location hnone hsome := by
    by_cases hmiddle : middle.at? location = none
    · obtain ⟨document, hdocument, habove⟩ := hsecond.backup_of_new location hmiddle hsome
      exact ⟨document, List.mem_append_right _ hdocument, habove⟩
    · obtain ⟨document, hdocument, habove⟩ := hfirst.backup_of_new location hnone hmiddle
      exact ⟨document, List.mem_append_left _ hdocument, habove⟩

end Advance

/-- One round does no more to a tree than its modified documents account for. -/
theorem advance_round (hworking : tree.at? surroundings.workingDirectory = some .directory)
    (hpaths : ∀ path ∈ paths, path.Descends)
    (hbackups : ∀ backups ∈ settings.backupDirectory, backups.Descends) :
    Advance surroundings.workingDirectory settings tree
      (modifiedOf (round tree surroundings settings paths).1)
      (round tree surroundings settings paths).2 where
  working := at?_round_working hworking hpaths hbackups
  isFile _ hfile := isFile_round hworking hpaths hbackups hfile
  stands document hdocument := by
    have hstands := stands_of_mem_round hworking hpaths hbackups hdocument
    exact { hstands with isFile := isFile_round hworking hpaths hbackups hstands.isFile }
  keeps _ _ hentry hplaces := at?_round_of_some hworking hpaths hbackups hentry hplaces
  backup_of_new location hnone hsome := by
    obtain ⟨entry, hentry⟩ := Option.ne_none_iff_exists'.mp hsome
    obtain ⟨document, hdocument, backups, hdirectory, hplace⟩ :=
      exists_backup_of_new hworking hpaths hbackups hnone hentry
    refine ⟨document, hdocument, backups, hdirectory, ?_⟩
    rcases hplace with ⟨rfl, -⟩ | ⟨habove, -⟩
    · exact List.prefix_rfl
    · exact habove

/-- Round after round, no more happens to a tree. -/
theorem advance_rounds (hworking : tree.at? surroundings.workingDirectory = some .directory)
    (hhistory : ∀ paths ∈ history, ∀ path ∈ paths, path.Descends)
    (hbackups : ∀ backups ∈ settings.backupDirectory, backups.Descends) :
    Advance surroundings.workingDirectory settings tree
      (rounds tree surroundings settings history).1
      (rounds tree surroundings settings history).2 := by
  induction history generalizing tree with
  | nil => exact Advance.refl settings hworking
  | cons paths history ih =>
    rw [List.forall_mem_cons] at hhistory
    have hfirst := advance_round hworking hhistory.1 hbackups
    exact hfirst.trans (ih hfirst.working hhistory.2)

/-- Every document that is modified in some round was collected for one. -/
theorem mem_roundsDocuments_of_modified
    (hworking : tree.at? surroundings.workingDirectory = some .directory)
    (hhistory : ∀ paths ∈ history, ∀ path ∈ paths, path.Descends)
    (hbackups : ∀ backups ∈ settings.backupDirectory, backups.Descends) {document : MenuDocument}
    (hdocument : document ∈ (rounds tree surroundings settings history).1) :
    document ∈ roundsDocuments tree surroundings settings history := by
  induction history generalizing tree with
  | nil => cases hdocument
  | cons paths history ih =>
    rw [List.forall_mem_cons] at hhistory
    rcases List.mem_append.mp hdocument with hfirst | hrest
    · exact List.mem_append_left _
        (mem_roundDocuments_of_modified hworking hhistory.1 hbackups hfirst)
    · exact List.mem_append_right _
        (ih (at?_round_working hworking hhistory.1 hbackups) hhistory.2 hrest)

/-- Every document that is collected in some round is one that a path given there leads to. -/
theorem exists_path_of_mem_roundsDocuments
    (hworking : tree.at? surroundings.workingDirectory = some .directory)
    (hhistory : ∀ paths ∈ history, ∀ path ∈ paths, path.Descends)
    (hbackups : ∀ backups ∈ settings.backupDirectory, backups.Descends) {document : MenuDocument}
    (hdocument : document ∈ roundsDocuments tree surroundings settings history) :
    ∃ paths ∈ history, ∃ path ∈ paths, path.place surroundings.workingDirectory <+:
      document.path.place surroundings.workingDirectory := by
  induction history generalizing tree with
  | nil => cases hdocument
  | cons paths history ih =>
    rw [List.forall_mem_cons] at hhistory
    rcases List.mem_append.mp hdocument with hfirst | hrest
    · obtain ⟨root, -, hfound, -⟩ := exists_round settings hworking hhistory.1
      exact ⟨paths, List.mem_cons_self, hfound document hfirst⟩
    · obtain ⟨others, hothers, hpath⟩ :=
        ih (at?_round_working hworking hhistory.1 hbackups) hhistory.2 hrest
      exact ⟨others, List.mem_cons_of_mem _ hothers, hpath⟩

/-! ### Originals -/

section Originals

variable (hworking : tree.at? surroundings.workingDirectory = some .directory)
  (hhistory : ∀ paths ∈ history, ∀ path ∈ paths, path.Descends)
  (hpaths : ∀ path ∈ paths, path.Descends) (hdirectory : settings.backupDirectory = some backups)
  (hbackups : backups.Descends)
  (hvacant : ∀ names, names ≠ [] →
    tree.at? (backups.place surroundings.workingDirectory ++ names) = none)
  {document : MenuDocument}
  (hdocument : document ∈ modifiedOf
    (round (rounds tree surroundings settings history).2 surroundings settings paths).1)

include hworking hhistory hpaths hdirectory hbackups hvacant hdocument

/-- Nothing is at the place of a backup after some rounds in which the backup directory was filled,
unless a document that was modified before has its backup there or below. -/
theorem at?_backupPlace_rounds
    (hnew : ∀ other ∈ (rounds tree surroundings settings history).1,
      ¬document.relative.names <+: other.relative.names) :
    (rounds tree surroundings settings history).2.at?
      (document.backupPlace backups surroundings.workingDirectory) = none := by
  have hall := Settings.descends_of_backupDirectory hdirectory hbackups
  have hadvance := advance_rounds hworking hhistory hall
  have hstands := stands_of_mem_round hadvance.working hpaths hall hdocument
  have hfree := hvacant _ hstands.relative_endsInName.names_ne_nil
  by_contra hsome
  obtain ⟨other, hother, others, hothers, habove⟩ := hadvance.backup_of_new _ hfree hsome
  obtain rfl : backups = others := Option.some.inj (hdirectory.symm.trans hothers)
  exact hnew other hother ((List.prefix_append_right_inj _).mp habove)

/-- A document that is modified after some rounds is backed up with the bytes it has then, unless
one that was modified before has its backup at the same place or below. -/
theorem exists_backup_after_rounds
    (hnew : ∀ other ∈ (rounds tree surroundings settings history).1,
      ¬document.relative.names <+: other.relative.names) :
    ∃ bytes, (rounds tree surroundings settings history).2.bytes?
        (document.path.place surroundings.workingDirectory) = some bytes ∧
      (round (rounds tree surroundings settings history).2 surroundings settings paths).2.bytes?
        (document.backupPlace backups surroundings.workingDirectory) = some bytes := by
  have hall := Settings.descends_of_backupDirectory hdirectory hbackups
  have hreached := (advance_rounds hworking hhistory hall).working
  have hfree :=
    at?_backupPlace_rounds hworking hhistory hpaths hdirectory hbackups hvacant hdocument hnew
  exact exists_backup_of_mem_round hreached hpaths hall hdocument hdirectory hfree

/-- **Under one root no original is lost.** A document that was not modified before is backed up
with the bytes it has then, as long as all documents that were modified before have the same
root. -/
theorem exists_backup_under_one_root
    (hroots : ∀ other ∈ (rounds tree surroundings settings history).1, other.root = document.root)
    (hfirst : ∀ other ∈ (rounds tree surroundings settings history).1,
      document.path.place surroundings.workingDirectory ≠
        other.path.place surroundings.workingDirectory) :
    ∃ bytes, (rounds tree surroundings settings history).2.bytes?
        (document.path.place surroundings.workingDirectory) = some bytes ∧
      (round (rounds tree surroundings settings history).2 surroundings settings paths).2.bytes?
        (document.backupPlace backups surroundings.workingDirectory) = some bytes := by
  have hall := Settings.descends_of_backupDirectory hdirectory hbackups
  have hadvance := advance_rounds hworking hhistory hall
  have hstands := stands_of_mem_round hadvance.working hpaths hall hdocument
  have hnew : ∀ other ∈ (rounds tree surroundings settings history).1,
      ¬document.relative.names <+: other.relative.names := fun other hother habove =>
    not_prefix_of_backupPlace hstands (hadvance.stands other hother) (hroots other hother).symm
      (hfirst other hother) backups ((List.prefix_append_right_inj _).mpr habove)
  have hfree :=
    at?_backupPlace_rounds hworking hhistory hpaths hdirectory hbackups hvacant hdocument hnew
  exact exists_backup_of_mem_round hadvance.working hpaths hall hdocument hdirectory hfree

end Originals

/-- Two directories with documents of the same name, and one of another name. -/
def sameNames : FileTree :=
  let tree := (FileTree.empty.put [] "a" .directory).put [] "b" .directory
  let tree := tree.put ["a"] "menu.selfml" (.file "(menu snippet.x action.y)".toUTF8)
  let tree := tree.put ["b"] "menu.selfml" (.file "(menu snippet.z action.w)".toUTF8)
  tree.put ["b"] "extra.selfml" (.file "(menu snippet.z action.w)".toUTF8)

/-- Settings with one directory for all backups. -/
def backedUp : Settings := { backupDirectory := some (Path.ofText "kept") }

/-- The second document has another name, and so its backup has a place of its own. -/
theorem exists_backup_after_rounds_of_other_name :
    let reached := rounds sameNames ⟨[], {}⟩ backedUp [[Path.ofText "a"]]
    let last := round reached.2 ⟨[], {}⟩ backedUp [Path.ofText "b/extra.selfml"]
    let document : MenuDocument := ⟨Path.ofText "/b", Path.ofText "/b/extra.selfml"⟩
    document ∈ modifiedOf last.1 ∧
      ∃ bytes, reached.2.bytes? (document.path.place []) = some bytes ∧
        last.2.bytes? (document.backupPlace (Path.ofText "kept") []) = some bytes := by
  intro reached last document
  have hdocument : document ∈ modifiedOf last.1 := by decide +kernel
  have hvacant (names : Location) (_ : names ≠ []) :
      sameNames.at? ((Path.ofText "kept").place [] ++ names) = none := by
    have hnone : sameNames.at? ((Path.ofText "kept").place []) = none := by decide +kernel
    exact FileTree.at?_eq_none_below hnone (List.prefix_append _ _)
  exact ⟨hdocument, exists_backup_after_rounds (by decide) (by decide +kernel) (by decide +kernel)
    rfl (by decide +kernel) hvacant hdocument (by decide +kernel)⟩

/-- The original of a document is lost when its backup would go where another one has its backup:
the two were found in different directories, but have the same path from there. -/
theorem original_lost :
    let original := "(menu snippet.z action.w)".toUTF8
    let reached := rounds sameNames ⟨[], {}⟩ backedUp [[Path.ofText "a"]]
    let last := round reached.2 ⟨[], {}⟩ backedUp [Path.ofText "b"]
    let document : MenuDocument := ⟨Path.ofText "/b", Path.ofText "/b/menu.selfml"⟩
    (∀ names, sameNames.at? (["kept"] ++ names) = none) ∧
      (∀ path ∈ [Path.ofText "a", Path.ofText "b"],
        ¬path.place [] <+: ["kept"] ∧ ¬["kept"] <+: path.place []) ∧
      document ∈ modifiedOf last.1 ∧ (∀ other ∈ reached.1, other.path ≠ document.path) ∧
      reached.2.bytes? ["b", "menu.selfml"] = some original ∧
      ∀ names, last.2.bytes? (["kept"] ++ names) ≠ some original := by
  intro original reached last document
  have hnone : sameNames.at? ["kept"] = none := by decide +kernel
  have hmodified : document ∈ modifiedOf last.1 ∧
      (∀ other ∈ reached.1, other.path ≠ document.path) ∧
      reached.2.bytes? ["b", "menu.selfml"] = some original ∧
      ∀ names ∈ last.2.filesBelow ["kept"], last.2.bytes? (["kept"] ++ names) ≠ some original := by
    decide +kernel
  obtain ⟨hdocument, hfirst, hbytes, hkept⟩ := hmodified
  refine ⟨fun names => FileTree.at?_eq_none_below hnone (List.prefix_append _ _), by decide +kernel,
    hdocument, hfirst, hbytes, fun names hnames => ?_⟩
  have hfile : (last.2.bytes? (["kept"] ++ names)).isSome := by
    rw [hnames]
    rfl
  exact hkept names (FileTree.mem_filesBelow.mpr hfile) hnames

/-! ### Backups -/

/-- A backup has the bytes of the document it was made of, and keeps them in all later rounds that
do not collect it as a document itself. -/
theorem backup_stays (hworking : tree.at? surroundings.workingDirectory = some .directory)
    (hpaths : ∀ path ∈ paths, path.Descends) {later : List (List Path)}
    (hlater : ∀ paths ∈ later, ∀ path ∈ paths, path.Descends)
    (hdirectory : settings.backupDirectory = some backups) (hbackups : backups.Descends)
    {names : Location} {bytes : ByteArray}
    (hnone : tree.at? (backups.place surroundings.workingDirectory ++ names) = none)
    (hmade : (round tree surroundings settings paths).2.bytes?
      (backups.place surroundings.workingDirectory ++ names) = some bytes)
    (hapart : ∀ document ∈
        roundsDocuments (round tree surroundings settings paths).2 surroundings settings later,
      document.path.place surroundings.workingDirectory ≠
        backups.place surroundings.workingDirectory ++ names) :
    (∃ document ∈ modifiedOf (round tree surroundings settings paths).1,
      document.relative.names = names ∧
        tree.bytes? (document.path.place surroundings.workingDirectory) = some bytes) ∧
    (rounds (round tree surroundings settings paths).2 surroundings settings later).2.bytes?
      (backups.place surroundings.workingDirectory ++ names) = some bytes := by
  have hall := Settings.descends_of_backupDirectory hdirectory hbackups
  have hreached := at?_round_working hworking hpaths hall
  rw [FileTree.bytes?_eq_some_iff] at hmade
  constructor
  · obtain ⟨document, hdocument, others, hothers, ⟨hplace, hfile⟩ | ⟨-, hentry⟩⟩ :=
      exists_backup_of_new hworking hpaths hall hnone hmade
    · obtain rfl : backups = others := Option.some.inj (hdirectory.symm.trans hothers)
      exact ⟨document, hdocument, (List.append_cancel_left hplace).symm,
        FileTree.bytes?_eq_some_iff.mpr hfile⟩
    · cases hentry
  · rw [FileTree.bytes?_eq_some_iff]
    refine (advance_rounds hreached hlater hall).keeps _ _ hmade fun document hdocument hsame => ?_
    exact hapart document (mem_roundsDocuments_of_modified hreached hlater hall hdocument)
      hsame.symm

/-- Later rounds walk the directories of the documents but not that of the backups. -/
theorem backup_stays_in_other_rounds :
    let kept := (Path.ofText "kept").place [] ++ ["menu.selfml"]
    let bytes := "(menu snippet.x action.y)".toUTF8
    let first := round sameNames ⟨[], {}⟩ backedUp [Path.ofText "a"]
    let later := [[Path.ofText "b"], [Path.ofText "a", Path.ofText "b"]]
    sameNames.at? kept = none ∧ first.2.bytes? kept = some bytes ∧
      (rounds first.2 ⟨[], {}⟩ backedUp later).2.bytes? kept = some bytes := by
  intro kept bytes first later
  have hnone : sameNames.at? kept = none := by decide +kernel
  have hmade : first.2.bytes? kept = some bytes := by decide +kernel
  have hlater : ∀ paths ∈ later, ∀ path ∈ paths, path.Descends := by decide +kernel
  have hreached : first.2.at? [] = some .directory := rfl
  have hapart : ∀ document ∈ roundsDocuments first.2 ⟨[], {}⟩ backedUp later,
      document.path.place [] ≠ kept := by
    intro document hdocument hsame
    obtain ⟨paths, hpaths, path, hpath, habove⟩ :=
      exists_path_of_mem_roundsDocuments hreached hlater (by decide +kernel) hdocument
    have hnever : ∀ paths ∈ later, ∀ path ∈ paths, ¬path.place [] <+: kept := by decide +kernel
    exact hnever paths hpaths path hpath (hsame ▸ habove)
  have hstays := backup_stays (by decide) (by decide +kernel) hlater rfl (by decide +kernel) hnone
    hmade hapart
  exact ⟨hnone, hmade, hstays.2⟩

/-- Settings whose backups are inside a directory with documents. -/
def backedUpInside : Settings := { backupDirectory := some (Path.ofText "b/originals") }

/-- A backup inside a directory that is walked is collected as a document in the next round, and
rewritten. -/
theorem backup_rewritten :
    let first := round sameNames ⟨[], {}⟩ backedUpInside [Path.ofText "b"]
    (∀ names, sameNames.at? (["b", "originals"] ++ names) = none) ∧
      first.2.bytes? ["b", "originals", "menu.selfml"] =
        some "(menu snippet.z action.w)".toUTF8 ∧
      (rounds first.2 ⟨[], {}⟩ backedUpInside [[Path.ofText "b"]]).2.bytes?
        ["b", "originals", "menu.selfml"] = some "(menu snippet.z)".toUTF8 := by
  intro first
  have hnone : sameNames.at? ["b", "originals"] = none := by decide +kernel
  have hcollect : collect first.2 ⟨[], {}⟩ backedUpInside [Path.ofText "b"] =
      .ok [⟨Path.ofText "/b", Path.ofText "/b/menu.selfml"⟩,
        ⟨Path.ofText "/b", Path.ofText "/b/originals/menu.selfml"⟩] :=
    collect_of_found_in_order
      [(Path.ofText "/b", [Path.ofText "/b/menu.selfml", Path.ofText "/b/originals/menu.selfml"])]
      (by decide +kernel) (by decide +kernel)
  have hrun : (run first.2 [] backedUpInside .write
      [⟨Path.ofText "/b", Path.ofText "/b/menu.selfml"⟩,
        ⟨Path.ofText "/b", Path.ofText "/b/originals/menu.selfml"⟩]).2.bytes?
      ["b", "originals", "menu.selfml"] = some "(menu snippet.z)".toUTF8 := by decide +kernel
  refine ⟨fun names => FileTree.at?_eq_none_below hnone (List.prefix_append _ _),
    by decide +kernel, ?_⟩
  simp only [rounds, round, hcollect]
  exact hrun

end Menus
