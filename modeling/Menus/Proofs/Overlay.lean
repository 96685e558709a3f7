import Menus.Proofs.Overwriting

/-!
# Restoring as an overlay

Restoring lays the files below one directory over another directory: whatever is below the first is
at the same place below the second then, and no other file has changed. This is so however the two
directories are written, with steps upwards or without, as long as neither is inside the other. Once
it has succeeded it succeeds again, and then it changes nothing.

There is one exception. A lone hyphen leads to a directory like every other name, but a walk takes
it for the standard input, and so nothing is restored from there.
-/

namespace Menus

/-- Names that lead down from a directory come after the location of the directory. -/
theorem Path.resolved_foldl_child {names : Location} (hnames : ∀ name ∈ names, IsProperName name)
    (directory : Path) (workingDirectory : Location) :
    (names.foldl child directory).resolved workingDirectory =
      directory.resolved workingDirectory ++ names := by
  obtain ⟨hrooted, hdown, -, -⟩ := foldl_child hnames directory
  rw [resolved, hrooted, hdown, resolve_append, ← resolved,
    resolve_of_ne_up fun name hname => (hnames name hname).2]

/-- Names that are taken from a directory on come after the location of the directory. -/
theorem Path.resolved_join_names {names : Location} (hnames : ∀ name ∈ names, IsProperName name)
    (directory : Path) (workingDirectory : Location) :
    (directory.join ⟨false, names⟩).resolved workingDirectory =
      directory.resolved workingDirectory ++ names := by
  rw [resolved_join directory rfl, (names_of_properNames hnames).2.1,
    resolve_of_ne_up fun name hname => (hnames name hname).2]

/-- Different names lead to different paths from a directory. -/
theorem Path.components_join_names {names : Location} (hnames : ∀ name ∈ names, IsProperName name)
    (directory : Path) :
    (directory.join ⟨false, names⟩).components = directory.components ++ names.map .name := by
  obtain ⟨hdescends, hself, -⟩ := names_of_properNames hnames
  have hhere := startsHere_of_properNames hnames
  rw [components_join directory rfl hhere, components_eq ⟨false, names⟩, hhere, hself,
    map_ofSegment fun name hname => (hnames name hname).2]
  rfl

variable {tree after : FileTree} {workingDirectory : Location} {backups target : Path}
  {files : List Location} {restored : List Path}

/-! ### Copying files one after the other -/

/-- What is left by copying files from below one directory to below another. -/
structure Overlaid (tree : FileTree) (workingDirectory : Location) (backups target : Path)
    (files : List Location) (after : FileTree) : Prop where
  keeps : tree.Keeps after
  isFile_source : ∀ names ∈ files,
    after.isFile workingDirectory (names.foldl Path.child backups) = true
  isFile_target : ∀ names ∈ files,
    after.isFile workingDirectory (target.join ⟨false, names⟩) = true
  copied : ∀ names ∈ files, after.bytes? (target.resolved workingDirectory ++ names) =
    tree.bytes? (backups.resolved workingDirectory ++ names)
  kept : ∀ location, (∀ names ∈ files, location ≠ target.resolved workingDirectory ++ names) →
    after.bytes? location = tree.bytes? location

/-- Files that are all copied lie over the target, if none of them goes below the source. -/
theorem restoreAll_eq_ok (hproper : ∀ names ∈ files, ∀ name ∈ names, IsProperName name)
    (hapart : ∀ names ∈ files, ¬backups.resolved workingDirectory <+:
      target.resolved workingDirectory ++ names)
    (h : restoreAll tree workingDirectory backups target files = (.ok restored, after)) :
    restored = (files.map fun names => target.join ⟨false, names⟩) ∧
      Overlaid tree workingDirectory backups target files after := by
  induction files generalizing tree restored with
  | nil =>
    obtain ⟨hnone, rfl⟩ := Prod.mk.inj h
    obtain rfl := Except.ok.inj hnone
    exact ⟨rfl, .refl _, by simp, by simp, by simp, fun _ _ => rfl⟩
  | cons names files ih =>
    rw [List.forall_mem_cons] at hproper hapart
    have hsource := Path.resolved_foldl_child hproper.1 backups workingDirectory
    have htarget := Path.resolved_join_names hproper.1 target workingDirectory
    have hdiffer (others : Location) : backups.resolved workingDirectory ++ others ≠
        target.resolved workingDirectory ++ names :=
      fun hsame => hapart.1 (hsame ▸ List.prefix_append _ _)
    rw [restoreAll] at h
    split at h
    case h_1 => cases h
    case h_2 copied hcopy =>
      obtain ⟨rest, hrest, rfl⟩ : ∃ rest, restoreAll copied workingDirectory backups target files =
          (.ok rest, after) ∧ target.join ⟨false, names⟩ :: rest = restored := by
        cases hrest : restoreAll copied workingDirectory backups target files with
        | mk result last =>
          cases result <;> simp_all [Except.map]
      obtain ⟨hkeeps, hisSource, hisTarget, hview⟩ :=
        copyInto_eq_ok hcopy (by rw [hsource, htarget]; exact hdiffer names)
      rw [hsource, htarget] at hview
      obtain ⟨rfl, hover⟩ := ih hproper.2 hapart.2 hrest
      refine ⟨rfl, hkeeps.trans hover.keeps, ?_, ?_, ?_, ?_⟩
      · exact List.forall_mem_cons.mpr ⟨hover.keeps.isFile hisSource, hover.isFile_source⟩
      · exact List.forall_mem_cons.mpr ⟨hover.keeps.isFile hisTarget, hover.isFile_target⟩
      · have hothers (others : Location) :
            copied.bytes? (backups.resolved workingDirectory ++ others) =
              tree.bytes? (backups.resolved workingDirectory ++ others) := by
          rw [hview, if_neg (hdiffer others)]
        refine List.forall_mem_cons.mpr
          ⟨?_, fun others hmem => (hover.copied others hmem).trans (hothers others)⟩
        by_cases hagain : names ∈ files
        · rw [hover.copied names hagain, hothers]
        · rw [hover.kept, hview, if_pos rfl]
          rintro others hmem hsame
          exact hagain (List.append_cancel_left hsame ▸ hmem)
      · intro location hlocation
        rw [List.forall_mem_cons] at hlocation
        rw [hover.kept location hlocation.2, hview, if_neg hlocation.1]

/-- Files are all copied over files that are there, and no directory is made. -/
theorem exists_restoreAll_over (hproper : ∀ names ∈ files, ∀ name ∈ names, IsProperName name)
    (hapart : ∀ names ∈ files, ¬backups.resolved workingDirectory <+:
      target.resolved workingDirectory ++ names)
    (hsource : ∀ names ∈ files,
      tree.isFile workingDirectory (names.foldl Path.child backups) = true)
    (htarget : ∀ names ∈ files,
      tree.isFile workingDirectory (target.join ⟨false, names⟩) = true) :
    ∃ after, restoreAll tree workingDirectory backups target files =
        (.ok (files.map fun names => target.join ⟨false, names⟩), after) ∧
      (∀ names ∈ files, after.at? (target.resolved workingDirectory ++ names) =
        tree.at? (backups.resolved workingDirectory ++ names)) ∧
      ∀ location, (∀ names ∈ files, location ≠ target.resolved workingDirectory ++ names) →
        after.at? location = tree.at? location := by
  induction files generalizing tree with
  | nil => exact ⟨tree, rfl, by simp, fun _ _ => rfl⟩
  | cons names files ih =>
    rw [List.forall_mem_cons] at hproper hapart hsource htarget
    have hsourcePlace := Path.resolved_foldl_child hproper.1 backups workingDirectory
    have htargetPlace := Path.resolved_join_names hproper.1 target workingDirectory
    have hdiffer (others : Location) : backups.resolved workingDirectory ++ others ≠
        target.resolved workingDirectory ++ names :=
      fun hsame => hapart.1 (hsame ▸ List.prefix_append _ _)
    obtain ⟨copied, hcopied, hview⟩ := exists_copyInto_over hsource.1 htarget.1
      (by rw [hsourcePlace, htargetPlace]; exact hdiffer names)
    obtain ⟨hkeeps, -⟩ := copyInto_eq_ok hcopied
      (by rw [hsourcePlace, htargetPlace]; exact hdiffer names)
    rw [hsourcePlace, htargetPlace] at hview
    have hothers (others : Location) : copied.at? (backups.resolved workingDirectory ++ others) =
        tree.at? (backups.resolved workingDirectory ++ others) := by
      rw [hview, if_neg (hdiffer others)]
    obtain ⟨after, hafter, hcopies, hkept⟩ := ih hproper.2 hapart.2
      (fun others hmem => hkeeps.isFile (hsource.2 others hmem))
      (fun others hmem => hkeeps.isFile (htarget.2 others hmem))
    refine ⟨after, by simp [restoreAll, hcopied, hafter, Except.map], ?_, ?_⟩
    · refine List.forall_mem_cons.mpr
        ⟨?_, fun others hmem => (hcopies others hmem).trans (hothers others)⟩
      by_cases hagain : names ∈ files
      · rw [hcopies names hagain, hothers]
      · rw [hkept, hview, if_pos rfl]
        rintro others hmem hsame
        exact hagain (List.append_cancel_left hsame ▸ hmem)
    · intro location hlocation
      rw [List.forall_mem_cons] at hlocation
      rw [hkept location hlocation.2, hview, if_neg hlocation.1]

namespace Overlaid

variable (h : Overlaid tree workingDirectory backups target files after)
  (hapart : ∀ names, ¬backups.resolved workingDirectory <+:
    target.resolved workingDirectory ++ names)

include h hapart

/-- What was copied is still what it was. -/
theorem bytes?_source (names : Location) :
    after.bytes? (backups.resolved workingDirectory ++ names) =
      tree.bytes? (backups.resolved workingDirectory ++ names) :=
  h.kept _ fun others _ hsame => hapart others (hsame ▸ List.prefix_append _ _)

/-- There are the same files as before to copy from. -/
theorem filesBelow_perm : (after.filesBelow (backups.resolved workingDirectory)).Perm
    (tree.filesBelow (backups.resolved workingDirectory)) := by
  rw [List.perm_ext_iff_of_nodup (FileTree.nodup_filesBelow _ _) (FileTree.nodup_filesBelow _ _)]
  intro names
  rw [FileTree.mem_filesBelow, FileTree.mem_filesBelow, h.bytes?_source hapart]

/-- Files that were copied can be copied again, which changes nothing. -/
theorem exists_restoreAll {others : List Location}
    (hproper : ∀ names ∈ others, ∀ name ∈ names, IsProperName name) (hothers : others ⊆ files) :
    ∃ again, restoreAll after workingDirectory backups target others =
        (.ok (others.map fun names => target.join ⟨false, names⟩), again) ∧
      ∀ location, again.at? location = after.at? location := by
  have hsource : ∀ names ∈ others,
      after.isFile workingDirectory (names.foldl Path.child backups) = true :=
    fun names hnames => h.isFile_source names (hothers hnames)
  obtain ⟨again, hagain, hcopies, hkept⟩ := exists_restoreAll_over hproper
    (fun names _ => hapart names) hsource fun names hnames => h.isFile_target names (hothers hnames)
  refine ⟨again, hagain, fun location => ?_⟩
  by_cases hplace : ∃ names ∈ others, location = target.resolved workingDirectory ++ names
  case neg => exact hkept location fun names hnames hsame => hplace ⟨names, hnames, hsame⟩
  case pos =>
    obtain ⟨names, hnames, rfl⟩ := hplace
    have hfile := (FileTree.isFile_iff_locate.mp (hsource names hnames)).2
    rw [Path.resolved_foldl_child (hproper names hnames)] at hfile
    obtain ⟨bytes, hbytes⟩ := Option.isSome_iff_exists.mp hfile
    have hcopied := h.copied names (hothers hnames)
    rw [← h.bytes?_source hapart, hbytes] at hcopied
    rw [hcopies names hnames, FileTree.bytes?_eq_some_iff.mp hbytes,
      FileTree.bytes?_eq_some_iff.mp hcopied]

end Overlaid

/-! ### The files below a directory -/

/-- No files are found in what is taken for the standard input. -/
theorem FileTree.backedUpFiles_of_isStandardInput (h : backups.isStandardInput = true)
    (tree : FileTree) (location : Location) : tree.backedUpFiles backups location = [] := by
  rw [backedUpFiles, if_pos h]

/-- In every other directory all files are found. -/
theorem FileTree.backedUpFiles_of_not_isStandardInput (h : backups.isStandardInput = false)
    (tree : FileTree) (location : Location) :
    tree.backedUpFiles backups location = tree.filesBelow location := by
  rw [backedUpFiles, if_neg (by simp [h])]

/-- Restoring succeeds when there is a directory and all files that are found in it are copied. -/
theorem restore_eq_ok_iff :
    restore tree workingDirectory backups target = (.ok restored, after) ↔
      tree.locate workingDirectory backups = .ok (backups.resolved workingDirectory) ∧
        tree.at? (backups.resolved workingDirectory) = some .directory ∧
        ∃ copied, restoreAll tree workingDirectory backups target
            (tree.backedUpFiles backups (backups.resolved workingDirectory)) =
              (.ok copied, after) ∧
          restored = Path.inOrder copied := by
  constructor
  · intro h
    rw [restore] at h
    split at h
    case h_1 => cases h
    case h_2 location hlocate =>
      obtain rfl := FileTree.eq_resolved_of_locate hlocate
      split at h
      case isFalse => cases h
      case isTrue hdirectory =>
        refine ⟨hlocate, hdirectory, ?_⟩
        cases hall : restoreAll tree workingDirectory backups target
            (tree.backedUpFiles backups (backups.resolved workingDirectory)) with
        | mk result last =>
          cases result with
          | error error => simp [hall, Except.map] at h
          | ok copied =>
            simp only [hall, Except.map, Prod.mk.injEq, Except.ok.injEq] at h
            exact ⟨copied, by rw [h.2], h.1.symm⟩
  · rintro ⟨hlocate, hdirectory, copied, hcopied, rfl⟩
    simp [restore, hlocate, hdirectory, hcopied, Except.map]

/-- From what is taken for the standard input nothing is restored, though a directory is there. -/
theorem restore_of_isStandardInput (hstandard : backups.isStandardInput = true)
    (hlocate : tree.locate workingDirectory backups = .ok (backups.resolved workingDirectory))
    (hdirectory : tree.at? (backups.resolved workingDirectory) = some .directory) (target : Path) :
    restore tree workingDirectory backups target = (.ok [], tree) := by
  refine restore_eq_ok_iff.mpr ⟨hlocate, hdirectory, [], ?_, List.mergeSort_nil.symm⟩
  rw [FileTree.backedUpFiles_of_isStandardInput hstandard]
  rfl

/-- Files below one directory are at different paths below another. -/
theorem nodup_components_join (hproper : ∀ names ∈ files, ∀ name ∈ names, IsProperName name)
    (hnodup : files.Nodup) (target : Path) :
    ((files.map fun names => target.join ⟨false, names⟩).map Path.components).Nodup := by
  rw [List.map_map]
  refine hnodup.map_on fun names hnames others hothers hsame => ?_
  simp only [Function.comp_apply, Path.components_join_names (hproper names hnames),
    Path.components_join_names (hproper others hothers), List.append_cancel_left_eq] at hsame
  exact List.map_injective_iff.mpr (fun _ _ => Component.name.inj) hsame

/-- Files below one directory have the same order below another, in whatever order they are
found. -/
theorem inOrder_join_eq_of_perm {others : List Location}
    (hproper : ∀ names ∈ files, ∀ name ∈ names, IsProperName name) (hnodup : files.Nodup)
    (hperm : others.Perm files) (target : Path) :
    Path.inOrder (others.map fun names => target.join ⟨false, names⟩) =
      Path.inOrder (files.map fun names => target.join ⟨false, names⟩) :=
  Path.inOrder_eq_of_spellings
    (Path.spellings_eq_of_perm (hperm.map _) (nodup_components_join hproper hnodup target))

/-- **Restoring is an overlay.** The files below a directory are laid over another one, neither of
which is inside the other or is the other. What succeeds puts each of them to its place there, gives
these places, each once and in order, and keeps every other file, those of the backups among them.
To do it again succeeds as well, with the same places, and changes nothing. Only from a directory
whose path is taken for the standard input nothing is restored and nothing changes. -/
theorem restore_lays_over
    (hbelow : ¬backups.resolved workingDirectory <+: target.resolved workingDirectory)
    (habove : ¬target.resolved workingDirectory <+: backups.resolved workingDirectory)
    (h : restore tree workingDirectory backups target = (.ok restored, after)) :
    (backups.isStandardInput = true → restored = [] ∧ after = tree) ∧
      (backups.isStandardInput = false →
        (∀ names bytes, tree.bytes? (backups.resolved workingDirectory ++ names) = some bytes →
            after.bytes? (target.resolved workingDirectory ++ names) = some bytes) ∧
          (∀ location,
            (∀ names, (tree.bytes? (backups.resolved workingDirectory ++ names)).isSome →
              location ≠ target.resolved workingDirectory ++ names) →
            after.bytes? location = tree.bytes? location) ∧
          (∀ path, path ∈ restored ↔ ∃ names,
            (tree.bytes? (backups.resolved workingDirectory ++ names)).isSome ∧
              path = target.join ⟨false, names⟩ ∧
              path.resolved workingDirectory = target.resolved workingDirectory ++ names)) ∧
      (∀ names, after.bytes? (backups.resolved workingDirectory ++ names) =
        tree.bytes? (backups.resolved workingDirectory ++ names)) ∧
      (restored.Pairwise fun first second => first.precedes second = true) ∧
      ∃ again, restore after workingDirectory backups target = (.ok restored, again) ∧
        ∀ location, again.at? location = after.at? location := by
  cases hstandard : backups.isStandardInput with
  | true =>
    obtain ⟨hlocate, hdirectory, -⟩ := restore_eq_ok_iff.mp h
    obtain ⟨rfl, rfl⟩ : restored = [] ∧ after = tree := by
      rw [restore_of_isStandardInput hstandard hlocate hdirectory] at h
      obtain ⟨hnone, rfl⟩ := Prod.mk.inj h
      exact ⟨(Except.ok.inj hnone).symm, rfl⟩
    refine ⟨fun _ => ⟨rfl, rfl⟩, fun hwalked => ?_, fun _ => rfl, .nil, after, h, fun _ => rfl⟩
    cases hwalked
  | false =>
    obtain ⟨hlocate, hdirectory, copied, hcopied, rfl⟩ := restore_eq_ok_iff.mp h
    have hwalk (tree : FileTree) := FileTree.backedUpFiles_of_not_isStandardInput hstandard tree
      (backups.resolved workingDirectory)
    have hproper (tree : FileTree) :
        ∀ names ∈ tree.filesBelow (backups.resolved workingDirectory),
          ∀ name ∈ names, IsProperName name :=
      fun _ hnames => FileTree.isProperName_of_mem_filesBelow hnames
    have hapart (names : Location) : ¬backups.resolved workingDirectory <+:
        target.resolved workingDirectory ++ names := fun hboth =>
      (List.prefix_or_prefix_of_prefix hboth (List.prefix_append _ names)).elim hbelow habove
    rw [hwalk] at hcopied
    obtain ⟨rfl, hover⟩ := restoreAll_eq_ok (hproper tree) (fun names _ => hapart names) hcopied
    have hkept := hover.kept
    have hplaced := hover.copied
    simp only [FileTree.mem_filesBelow] at hkept hplaced
    refine ⟨fun hskipped => ?_, fun _ => ⟨fun names bytes hbytes => ?_, hkept, fun path => ?_⟩,
      hover.bytes?_source hapart, ?_, ?_⟩
    · cases hskipped
    · rw [hplaced names (by rw [hbytes]; rfl), hbytes]
    · simp only [Path.mem_inOrder, List.mem_map]
      constructor
      · rintro ⟨names, hnames, rfl⟩
        exact ⟨names, FileTree.mem_filesBelow.mp hnames, rfl,
          Path.resolved_join_names (hproper tree names hnames) target workingDirectory⟩
      · rintro ⟨names, hfile, rfl, -⟩
        exact ⟨names, FileTree.mem_filesBelow.mpr hfile, rfl⟩
    · exact Path.pairwise_inOrder_of_nodup
        (nodup_components_join (hproper tree) (FileTree.nodup_filesBelow _ _) target)
    · have hperm := hover.filesBelow_perm hapart
      obtain ⟨again, hagain, hsame⟩ :=
        hover.exists_restoreAll hapart (hproper after) hperm.subset
      refine ⟨again, restore_eq_ok_iff.mpr ⟨hover.keeps.locate_eq hlocate,
        hover.keeps.directory _ hdirectory, _, by rwa [hwalk], ?_⟩, hsame⟩
      exact (inOrder_join_eq_of_perm (hproper tree) (FileTree.nodup_filesBelow _ _) hperm
        target).symm

/-- Backups of two menus, one of them hidden, beside a directory with one of the menus. -/
def backupsBesideMenu : FileTree :=
  let tree := (FileTree.empty.put [] "kept" .directory).put [] "menus" .directory
  let tree := (tree.put ["kept"] "deep" .directory).put ["menus"] "main.selfml" (.file "".toUTF8)
  (tree.put ["kept"] "main.selfml" (.file "(menu)".toUTF8)).put ["kept", "deep"] ".hidden"
    (.file "(menu snippet.x)".toUTF8)

/-- The missing directory is made, and the backups are reached by a step upwards. -/
theorem restore_lays_over_menu :
    let backups := Path.ofText "../kept"
    let target := Path.ofText "."
    let restored := [Path.ofText "./deep/.hidden", Path.ofText "./main.selfml"]
    ∃ after, restore backupsBesideMenu ["menus"] backups target = (.ok restored, after) ∧
      after.bytes? ["menus", "deep", ".hidden"] = some "(menu snippet.x)".toUTF8 ∧
      after.bytes? ["kept", "main.selfml"] = some "(menu)".toUTF8 ∧
      ∃ again, restore after ["menus"] backups target = (.ok restored, again) ∧
        ∀ location, again.at? location = after.at? location := by
  intro backups target restored
  have hbackups : backups.resolved ["menus"] = ["kept"] := by decide +kernel
  have htarget : target.resolved ["menus"] = ["menus"] := by decide +kernel
  have hresult : (restoreAll backupsBesideMenu ["menus"] backups target
      (backupsBesideMenu.backedUpFiles backups (backups.resolved ["menus"]))).1 = .ok restored := by
    decide +kernel
  obtain ⟨after, hcopied⟩ : ∃ after, restoreAll backupsBesideMenu ["menus"] backups target
      (backupsBesideMenu.backedUpFiles backups (backups.resolved ["menus"])) =
        (.ok restored, after) :=
    ⟨_, by rw [← hresult]⟩
  have hsorted : restored = Path.inOrder restored :=
    (List.mergeSort_of_pairwise (by decide +kernel)).symm
  have hrestored := restore_eq_ok_iff.mpr
    ⟨by decide +kernel, by decide +kernel, restored, hcopied, hsorted⟩
  obtain ⟨-, hwalked, hkept, -, hagain⟩ :=
    restore_lays_over (by decide +kernel) (by decide +kernel) hrestored
  obtain ⟨hover, -⟩ := hwalked (by decide +kernel)
  rw [hbackups, htarget] at hover
  rw [hbackups] at hkept
  exact ⟨after, hrestored, hover ["deep", ".hidden"] _ (by decide +kernel),
    (hkept ["main.selfml"]).trans (by decide +kernel), hagain⟩

/-- The backup of a menu in a directory whose path is taken for the standard input. -/
def backupBehindHyphen : FileTree :=
  (FileTree.empty.put [] "-" .directory).put ["-"] "menu.selfml" (.file "(menu)".toUTF8)

/-- Restoring succeeds without the backup that is there. -/
theorem restore_without_backup :
    let backups := Path.ofText "-"
    let target := Path.ofText "a"
    restore backupBehindHyphen [] backups target = (.ok [], backupBehindHyphen) ∧
      backupBehindHyphen.bytes? (backups.resolved [] ++ ["menu.selfml"]) =
        some "(menu)".toUTF8 ∧
      backupBehindHyphen.bytes? (target.resolved [] ++ ["menu.selfml"]) = none := by
  intro backups target
  have hrestored : restore backupBehindHyphen [] backups target = (.ok [], backupBehindHyphen) :=
    restore_of_isStandardInput (by decide +kernel) (by decide +kernel) (by decide +kernel) target
  exact ⟨hrestored, by decide +kernel, by decide +kernel⟩

/-- A directory that is restored onto itself loses what is in its files. -/
example :
    (restore backupsBesideMenu [] (Path.ofText "kept") (Path.ofText "kept")).2.bytes?
      ["kept", "main.selfml"] = some .empty := by decide +kernel

end Menus
