import Menus.Proofs.Overlay
import Menus.Proofs.RunOrder

/-!
# Restoring what a run changed

Restoring copies every file below one directory to the same place below another. When a run had its
backups made where no file was before, the files there are the documents it rewrote, with the bytes
they had. So restoring takes back all that the run did outside that directory. Two ways to write the
directory are exceptions: backups can go to the path without text, which leads to no directory to
restore from, and to a lone hyphen, which restoring takes for the standard input.
-/

namespace Menus

variable {tree : FileTree} {workingDirectory : Location} {settings : Settings}
  {documents : List MenuDocument} {root backups : Path}

/-! ### Copying one directory to another -/

/-- What is taken for the standard input is written as something. -/
theorem Path.isEmpty_of_isStandardInput {path : Path} (h : path.isStandardInput = true) :
    path.isEmpty = false := by
  refine isEmpty_of_names fun hnames => ?_
  rw [isStandardInput, components_eq, hnames] at h
  split_ifs at h <;> simp at h

/-- A directory is restored when its files are all below the target already, and the target is not
inside it. -/
theorem exists_restore (hworking : tree.at? workingDirectory = some .directory) {target : Path}
    (hsource : backups.Descends) (htarget : target.Descends) (hempty : backups.isEmpty = false)
    (hwalked : backups.isStandardInput = false)
    (hdirectory : tree.at? (backups.place workingDirectory) = some .directory)
    (hover : ∀ names, (tree.bytes? (backups.place workingDirectory ++ names)).isSome →
      (tree.bytes? (target.place workingDirectory ++ names)).isSome ∧
        ¬backups.place workingDirectory <+: target.place workingDirectory ++ names) :
    ∃ after, restore tree workingDirectory backups target =
        (.ok (Path.inOrder ((tree.filesBelow (backups.place workingDirectory)).map fun names =>
          target.join ⟨false, names⟩)), after) ∧
      (∀ names, (tree.bytes? (backups.place workingDirectory ++ names)).isSome →
        after.bytes? (target.place workingDirectory ++ names) =
          tree.bytes? (backups.place workingDirectory ++ names)) ∧
      ∀ location, (∀ names, (tree.bytes? (backups.place workingDirectory ++ names)).isSome →
        location ≠ target.place workingDirectory ++ names) →
          after.at? location = tree.at? location := by
  have hsourcePlace := hsource.resolved_eq workingDirectory
  have htargetPlace := htarget.resolved_eq workingDirectory
  have hproper : ∀ names ∈ tree.filesBelow (backups.place workingDirectory),
      ∀ name ∈ names, IsProperName name :=
    fun _ hnames => FileTree.isProperName_of_mem_filesBelow hnames
  have hne : ∀ names ∈ tree.filesBelow (backups.place workingDirectory), names ≠ [] := by
    rintro names hnames rfl
    have hfile := FileTree.mem_filesBelow.mp hnames
    rw [List.append_nil, FileTree.bytes?, hdirectory] at hfile
    cases hfile
  have hapart : ∀ names ∈ tree.filesBelow (backups.place workingDirectory),
      ¬backups.resolved workingDirectory <+: target.resolved workingDirectory ++ names := by
    intro names hnames
    rw [hsourcePlace, htargetPlace]
    exact (hover names (FileTree.mem_filesBelow.mp hnames)).2
  have hfiles : ∀ names ∈ tree.filesBelow (backups.place workingDirectory),
      tree.isFile workingDirectory (names.foldl Path.child backups) = true := by
    intro names hnames
    obtain ⟨hrooted, hfound, hdescends, hends⟩ := Path.foldl_child (hproper names hnames) backups
    rw [FileTree.isFile_iff hworking (hdescends hsource), Path.place, hrooted, hfound,
      ← List.append_assoc]
    exact ⟨hends (hne names hnames), FileTree.mem_filesBelow.mp hnames⟩
  have htargets : ∀ names ∈ tree.filesBelow (backups.place workingDirectory),
      tree.isFile workingDirectory (target.join ⟨false, names⟩) = true := by
    intro names hnames
    obtain ⟨hdescends, hself, hends⟩ := Path.names_of_properNames (hproper names hnames)
    rw [FileTree.isFile_iff hworking (htarget.join hdescends rfl), Path.place_join target rfl,
      hself]
    exact ⟨(hends (hne names hnames)).join rfl target,
      (hover names (FileTree.mem_filesBelow.mp hnames)).1⟩
  obtain ⟨after, hafter, hcopied, hkept⟩ :=
    exists_restoreAll_over hproper hapart hfiles htargets
  rw [hsourcePlace, htargetPlace] at hcopied
  rw [htargetPlace] at hkept
  simp only [FileTree.mem_filesBelow] at hcopied hkept
  have hwalk := FileTree.backedUpFiles_of_not_isStandardInput hwalked tree
    (backups.place workingDirectory)
  refine ⟨after, restore_eq_ok_iff.mpr ⟨?_, ?_, _, by rwa [hsourcePlace, hwalk], rfl⟩,
    fun names hnames => ?_, hkept⟩
  · rw [hsourcePlace, FileTree.locate_eq_place hempty hworking hsource hdirectory]
  · rwa [hsourcePlace]
  · rw [FileTree.bytes?, hcopied names hnames, FileTree.bytes?]

/-! ### What a run leaves among the backups -/

section Backups

variable (h : Separate tree workingDirectory root documents)
  (hbackups : ∀ backups ∈ settings.backupDirectory, backups.Descends)
  (hdirectory : settings.backupDirectory = some backups)
  (hvacant : ∀ names, tree.bytes? (backups.place workingDirectory ++ names) = none)

include hvacant in
/-- No document is below a directory without files. -/
theorem not_below_of_vacant {document : MenuDocument}
    (hstands : document.Stands tree workingDirectory) :
    ¬backups.place workingDirectory <+: document.path.place workingDirectory := by
  rintro ⟨names, hnames⟩
  have hfile := hstands.isFile
  rw [← hnames, hvacant names] at hfile
  cases hfile

include h hbackups hdirectory

/-- Outside the backups a run changes no file but the documents it rewrites. -/
theorem bytes?_run_of_not_below {location : Location}
    (hbelow : ¬backups.place workingDirectory <+: location)
    (hplaces : ∀ document ∈ modifiedOf (run tree workingDirectory settings .write documents).1,
      location ≠ document.path.place workingDirectory) :
    (run tree workingDirectory settings .write documents).2.bytes? location =
      tree.bytes? location := by
  simp only [mem_modifiedOf_run h hbackups] at hplaces
  refine bytes?_run_of_apart h hbackups fun document hdocument hrewritten =>
    ⟨hplaces document ⟨hdocument, hrewritten⟩, fun others hothers hsame => hbelow ?_⟩
  obtain rfl : backups = others := Option.some.inj (hdirectory.symm.trans hothers)
  exact hsame ▸ List.prefix_append _ _

include hvacant

/-- After a run the files among the backups are the documents it rewrote, with the bytes they
had. -/
theorem bytes?_run_backups
    (hfree : ∀ document ∈ documents,
      tree.at? (document.backupPlace backups workingDirectory) ≠ some .directory)
    {names : Location} {bytes : ByteArray} :
    (run tree workingDirectory settings .write documents).2.bytes?
        (backups.place workingDirectory ++ names) = some bytes ↔
      ∃ document ∈ modifiedOf (run tree workingDirectory settings .write documents).1,
        document.relative.names = names ∧
          tree.bytes? (document.path.place workingDirectory) = some bytes := by
  simp only [mem_modifiedOf_run h hbackups]
  constructor
  · intro hafter
    rw [FileTree.bytes?_eq_some_iff, at?_run h hbackups] at hafter
    cases hput : entryFromRun? tree workingDirectory settings .write documents
        (backups.place workingDirectory ++ names) with
    | none =>
      rw [hput, Option.none_or, ← FileTree.bytes?_eq_some_iff, hvacant names] at hafter
      cases hafter
    | some put =>
      rw [hput, Option.some_or] at hafter
      obtain rfl := Option.some.inj hafter
      obtain ⟨document, hdocument, hfrom⟩ := (entryFromRun?_eq_some_iff h hbackups).mp hput
      have hstands := h.stands document hdocument
      rcases entryFrom?_cases h.working hstands hbackups hfrom with
        hplace | ⟨others, hothers, -, -, ⟨hplace, hfile⟩ | ⟨-, hentry⟩⟩
      · exact absurd ⟨names, hplace⟩ (not_below_of_vacant hvacant hstands)
      · obtain rfl : backups = others := Option.some.inj (hdirectory.symm.trans hothers)
        exact ⟨document, ⟨hdocument, isRewritten_of_entryFrom? hfrom⟩,
          (List.append_cancel_left hplace).symm, FileTree.bytes?_eq_some_iff.mpr hfile⟩
      · cases hentry
  · rintro ⟨document, ⟨hdocument, hrewritten⟩, rfl, hbytes⟩
    have hnone : tree.at? (document.backupPlace backups workingDirectory) = none :=
      (FileTree.bytes?_eq_none_iff.mp (hvacant _)).resolve_right (hfree document hdocument)
    rw [FileTree.bytes?_eq_some_iff] at hbytes ⊢
    rw [← hbytes]
    exact at?_run_backupPlace h hbackups hdocument hrewritten hdirectory hnone

/-- The files among the backups are at the places of the rewritten documents below their root. -/
theorem filesBelow_run_perm
    (hfree : ∀ document ∈ documents,
      tree.at? (document.backupPlace backups workingDirectory) ≠ some .directory) :
    ((run tree workingDirectory settings .write documents).2.filesBelow
        (backups.place workingDirectory)).Perm
      ((modifiedOf (run tree workingDirectory settings .write documents).1).map
        fun document => document.relative.names) := by
  have hnodup : ((modifiedOf (run tree workingDirectory settings .write documents).1).map
      fun document => document.relative.names).Nodup :=
    h.nodup_relative.sublist ((modifiedOf_run_sublist h hbackups).map _)
  rw [List.perm_ext_iff_of_nodup (FileTree.nodup_filesBelow _ _) hnodup]
  intro names
  rw [FileTree.mem_filesBelow, Option.isSome_iff_exists, List.mem_map]
  simp only [bytes?_run_backups h hbackups hdirectory hvacant hfree]
  constructor
  · rintro ⟨bytes, document, hdocument, hnames, -⟩
    exact ⟨document, hdocument, hnames⟩
  · rintro ⟨document, hdocument, hnames⟩
    have hmem := ((mem_modifiedOf_run h hbackups).mp hdocument).1
    obtain ⟨bytes, hbytes⟩ := Option.isSome_iff_exists.mp (h.stands document hmem).isFile
    exact ⟨bytes, document, hdocument, hnames, hbytes⟩

/-- After a run that modifies a document there is a directory of backups. -/
theorem at?_run_backups
    (hfree : ∀ document ∈ documents,
      tree.at? (document.backupPlace backups workingDirectory) ≠ some .directory)
    (hmodified : modifiedOf (run tree workingDirectory settings .write documents).1 ≠ []) :
    (run tree workingDirectory settings .write documents).2.at?
      (backups.place workingDirectory) = some .directory := by
  obtain ⟨document, hdocument⟩ := List.exists_mem_of_ne_nil _ hmodified
  have hmem := ((mem_modifiedOf_run h hbackups).mp hdocument).1
  have hfile : document.relative.names ∈
      (run tree workingDirectory settings .write documents).2.filesBelow
        (backups.place workingDirectory) :=
    (filesBelow_run_perm h hbackups hdirectory hvacant hfree).mem_iff.mpr
      (List.mem_map_of_mem hdocument)
  obtain ⟨bytes, hbytes⟩ := Option.isSome_iff_exists.mp (FileTree.mem_filesBelow.mp hfile)
  exact FileTree.at?_of_at?_append (FileTree.bytes?_eq_some_iff.mp hbytes)
    (h.stands document hmem).relative_endsInName.names_ne_nil

end Backups

/-! ### Restoring after a run -/

/-- The working directory is still there after a run. -/
theorem at?_run_workingDirectory (h : Separate tree workingDirectory root documents)
    (hbackups : ∀ backups ∈ settings.backupDirectory, backups.Descends) :
    (run tree workingDirectory settings .write documents).2.at? workingDirectory =
      some .directory :=
  at?_run_of_some h hbackups h.working fun _ hdocument _ => h.working_ne_place hdocument

/-- What restoring gives is the rewritten documents, in the order of their paths. -/
theorem map_components_restored (h : Collected tree workingDirectory root documents)
    {modified : List MenuDocument} (hmodified : modified.Sublist documents) {files : List Location}
    (hfiles : files.Perm (modified.map fun document => document.relative.names)) :
    (Path.inOrder (files.map fun names => root.join ⟨false, names⟩)).map Path.components =
      modified.map fun document => document.path.components := by
  have hincreasing : (modified.map MenuDocument.path).Pairwise fun path other =>
      other.precedes path = false :=
    List.pairwise_map.mpr ((h.increasing.sublist hmodified).imp Path.precedes_asymm)
  have hjoined : (modified.map fun document => document.relative.names).map
        (fun names => (root.join ⟨false, names⟩).components) =
      (modified.map MenuDocument.path).map Path.components := by
    rw [List.map_map, List.map_map]
    exact List.map_congr_left fun document hdocument =>
      h.components_join (hmodified.subset hdocument)
  have hperm : ((files.map fun names => root.join ⟨false, names⟩).map Path.components).Perm
      ((modified.map MenuDocument.path).map Path.components) := by
    rw [← hjoined, List.map_map]
    exact hfiles.map _
  have hsame := Path.map_components_eq (Path.pairwise_inOrder _) hincreasing
    (((Path.inOrder_perm _).map Path.components).trans hperm)
  rw [hsame, List.map_map]
  rfl

/-- The documents that a run rewrote are all restored, and nothing else changes. -/
theorem exists_restore_run (h : Collected tree workingDirectory root documents)
    (hworking : tree.at? workingDirectory = some .directory)
    (hall : ∀ backups ∈ settings.backupDirectory, backups.Descends)
    (hdirectory : settings.backupDirectory = some backups) (hempty : backups.isEmpty = false)
    (hwalked : backups.isStandardInput = false)
    (hvacant : ∀ names, tree.bytes? (backups.place workingDirectory ++ names) = none)
    (hfree : ∀ document ∈ documents,
      tree.at? (document.backupPlace backups workingDirectory) ≠ some .directory)
    {ran : List RunResult × FileTree}
    (hran : run tree workingDirectory settings .write documents = ran)
    (hmodified : modifiedOf ran.1 ≠ []) :
    ∃ after, restore ran.2 workingDirectory backups root =
        (.ok (Path.inOrder ((ran.2.filesBelow (backups.place workingDirectory)).map fun names =>
          root.join ⟨false, names⟩)), after) ∧
      (∀ document ∈ modifiedOf ran.1, after.bytes? (document.path.place workingDirectory) =
        tree.bytes? (document.path.place workingDirectory)) ∧
      ∀ location,
        (∀ document ∈ modifiedOf ran.1, location ≠ document.path.place workingDirectory) →
          after.at? location = ran.2.at? location := by
  subst hran
  have hseparate := h.separate hworking
  have hmem {document : MenuDocument} (hdocument : document ∈
      modifiedOf (run tree workingDirectory settings .write documents).1) :=
    (mem_modifiedOf_run hseparate hall).mp hdocument
  have hplace : ∀ document ∈ modifiedOf (run tree workingDirectory settings .write documents).1,
      document.path.place workingDirectory =
        root.place workingDirectory ++ document.relative.names := by
    intro document hdocument
    rw [(h.stands document (hmem hdocument).1).place_eq, h.root_eq document (hmem hdocument).1]
  have hfiles {names : Location} := FileTree.mem_filesBelow.symm.trans
    (((filesBelow_run_perm hseparate hall hdirectory hvacant hfree).mem_iff (a := names)).trans
      List.mem_map)
  have hover : ∀ names, ((run tree workingDirectory settings .write documents).2.bytes?
        (backups.place workingDirectory ++ names)).isSome →
      ((run tree workingDirectory settings .write documents).2.bytes?
          (root.place workingDirectory ++ names)).isSome ∧
        ¬backups.place workingDirectory <+: root.place workingDirectory ++ names := by
    intro names hnames
    obtain ⟨document, hdocument, rfl⟩ := hfiles.mp hnames
    rw [← hplace document hdocument]
    exact ⟨isFile_run_place hseparate hall (hmem hdocument).1 (hmem hdocument).2,
      not_below_of_vacant hvacant (h.stands document (hmem hdocument).1)⟩
  obtain ⟨after, hafter, hcopied, hkept⟩ := exists_restore
    (at?_run_workingDirectory hseparate hall) (hall backups hdirectory) h.root_descends hempty
    hwalked (at?_run_backups hseparate hall hdirectory hvacant hfree hmodified) hover
  refine ⟨after, hafter, ?_, ?_⟩
  · intro document hdocument
    obtain ⟨bytes, hbytes⟩ := Option.isSome_iff_exists.mp
      (h.stands document (hmem hdocument).1).isFile
    have hbackup := (bytes?_run_backups hseparate hall hdirectory hvacant hfree).mpr
      ⟨document, hdocument, rfl, hbytes⟩
    rw [hplace document hdocument, hcopied _ (hfiles.mpr ⟨document, hdocument, rfl⟩), hbackup,
      ← hplace document hdocument, hbytes]
  · intro location hlocation
    refine hkept location fun names hnames hsame => ?_
    obtain ⟨document, hdocument, rfl⟩ := hfiles.mp hnames
    exact hlocation document hdocument (hsame.trans (hplace document hdocument).symm)

/-- From the path without text nothing is restored. -/
theorem restore_of_isEmpty (hempty : backups.isEmpty = true) (tree : FileTree)
    (workingDirectory : Location) (target : Path) :
    restore tree workingDirectory backups target = (.error (.file backups .noBackups), tree) := by
  rw [restore, FileTree.locate, if_pos hempty]

/-- **Restoring takes back a run.** After a writing run whose backups went where no file was,
restoring gives the documents that the run modified, every file elsewhere is as it was before the
run, and the files among the backups are those documents as they were. No directory may stand where
a backup goes, for it would count as a backup that is there already. But the path without text leads
to no directory to restore from, and of what is taken for the standard input nothing is restored,
and then nothing changes. -/
theorem restore_run {surroundings : Surroundings}
    (hworking : tree.at? surroundings.workingDirectory = some .directory) {paths : List Path}
    (hpaths : ∀ path ∈ paths, path.Descends) (hdirectory : settings.backupDirectory = some backups)
    (hbackups : backups.Descends)
    (hvacant : ∀ names, tree.bytes? (backups.place surroundings.workingDirectory ++ names) = none)
    (hcollect : collect tree surroundings settings paths = .ok documents)
    (hfree : ∀ document ∈ documents,
      tree.at? (document.backupPlace backups surroundings.workingDirectory) ≠ some .directory)
    {ran : List RunResult × FileTree}
    (hran : ran = run tree surroundings.workingDirectory settings .write documents)
    (hmodified : modifiedOf ran.1 ≠ []) :
    ∃ root, (∀ document ∈ documents, document.root = root) ∧
      (backups.isEmpty = true →
        restore ran.2 surroundings.workingDirectory backups root =
          (.error (.file backups .noBackups), ran.2)) ∧
      (backups.isStandardInput = true →
        restore ran.2 surroundings.workingDirectory backups root = (.ok [], ran.2)) ∧
      (backups.isEmpty = false → backups.isStandardInput = false → ∃ restored after,
        restore ran.2 surroundings.workingDirectory backups root = (.ok restored, after) ∧
        restored.map Path.components =
          (modifiedOf ran.1).map (fun document => document.path.components) ∧
        (restored.Pairwise fun first second => first.precedes second = true) ∧
        (∀ location, ¬backups.place surroundings.workingDirectory <+: location →
          after.bytes? location = tree.bytes? location) ∧
        ∀ names bytes, after.bytes? (backups.place surroundings.workingDirectory ++ names) =
            some bytes ↔
          ∃ document ∈ modifiedOf ran.1, document.relative.names = names ∧
            tree.bytes? (document.path.place surroundings.workingDirectory) = some bytes) := by
  obtain ⟨⟨root, h⟩, -⟩ := exists_collected hworking hpaths hcollect
  have hseparate := h.separate hworking
  have hall := Settings.descends_of_backupDirectory hdirectory hbackups
  refine ⟨root, h.root_eq, fun hempty => restore_of_isEmpty hempty _ _ _, fun hstandard => ?_,
    fun hempty hwalked => ?_⟩
  · subst hran
    have hthere := at?_run_backups hseparate hall hdirectory hvacant hfree hmodified
    have hresolved := hbackups.resolved_eq surroundings.workingDirectory
    refine restore_of_isStandardInput hstandard ?_ (by rwa [hresolved]) root
    rw [hresolved]
    exact FileTree.locate_eq_place (Path.isEmpty_of_isStandardInput hstandard)
      (at?_run_workingDirectory hseparate hall) hbackups hthere
  · obtain ⟨after, hafter, hcopied, hkept⟩ :=
      exists_restore_run h hworking hall hdirectory hempty hwalked hvacant hfree hran.symm hmodified
    subst hran
    have hcomponents := map_components_restored h (modifiedOf_run_sublist hseparate hall)
      (filesBelow_run_perm hseparate hall hdirectory hvacant hfree)
    refine ⟨_, after, hafter, hcomponents, ?_, ?_, ?_⟩
    · exact Path.pairwise_of_map_components
        (h.increasing.sublist (modifiedOf_run_sublist hseparate hall)) hcomponents
    · intro location hlocation
      by_cases hplace : ∃ document ∈
          modifiedOf (run tree surroundings.workingDirectory settings .write documents).1,
          location = document.path.place surroundings.workingDirectory
      · obtain ⟨document, hdocument, rfl⟩ := hplace
        exact hcopied document hdocument
      · have hplaces : ∀ document ∈
            modifiedOf (run tree surroundings.workingDirectory settings .write documents).1,
            location ≠ document.path.place surroundings.workingDirectory :=
          fun document hdocument hsame => hplace ⟨document, hdocument, hsame⟩
        rw [FileTree.bytes?, hkept location hplaces]
        exact bytes?_run_of_not_below hseparate hall hdirectory hlocation hplaces
    · intro names bytes
      rw [FileTree.bytes?, hkept, ← FileTree.bytes?]
      · exact bytes?_run_backups hseparate hall hdirectory hvacant hfree
      · intro document hdocument hsame
        have hmem := (mem_modifiedOf_run hseparate hall).mp hdocument
        exact not_below_of_vacant hvacant (h.stands document hmem.1)
          (hsame ▸ List.prefix_append _ _)

/-- The documents of two directories are backed up inside the directory that is walked for them. -/
theorem restore_run_twoMenus :
    let settings : Settings := { backupDirectory := some (Path.ofText "kept") }
    let documents : List MenuDocument :=
      [⟨⟨true, []⟩, Path.ofText "/a/menu.selfml"⟩, ⟨⟨true, []⟩, Path.ofText "/b/menu.selfml"⟩]
    let ran := run twoMenus [] settings .write documents
    collect twoMenus ⟨[], {}⟩ settings [Path.ofText "."] = .ok documents ∧
      ∃ root restored after, (∀ document ∈ documents, document.root = root) ∧
        restore ran.2 [] (Path.ofText "kept") root = (.ok restored, after) ∧
        restored.map Path.components = (modifiedOf ran.1).map (fun document =>
          document.path.components) ∧
        ∀ location, ¬["kept"] <+: location → after.bytes? location = twoMenus.bytes? location := by
  intro settings documents ran
  have hcollect : collect twoMenus ⟨[], {}⟩ settings [Path.ofText "."] = .ok documents :=
    collect_of_found_in_order
      [(⟨true, []⟩, [Path.ofText "/a/menu.selfml", Path.ofText "/b/menu.selfml"])]
      (by decide +kernel) (by decide +kernel)
  have hvacant (names : Location) :
      twoMenus.bytes? ((Path.ofText "kept").place [] ++ names) = none := by
    have hnone : twoMenus.at? ((Path.ofText "kept").place []) = none := by decide +kernel
    rw [FileTree.bytes?, FileTree.at?_eq_none_below hnone (List.prefix_append _ _)]
    rfl
  have hfree : ∀ document ∈ documents,
      twoMenus.at? (document.backupPlace (Path.ofText "kept") []) ≠ some .directory := by
    decide +kernel
  have hran : ran = run twoMenus [] settings .write documents := rfl
  have hmodified : modifiedOf ran.1 ≠ [] := by decide +kernel
  obtain ⟨root, hroot, -, -, hrestored⟩ :=
    restore_run (by decide) (by decide +kernel) rfl (by decide +kernel) hvacant hcollect hfree
      hran hmodified
  obtain ⟨restored, after, hrestore, hcomponents, -, helsewhere, -⟩ :=
    hrestored (by decide +kernel) (by decide +kernel)
  exact ⟨hcollect, root, restored, after, hroot, hrestore, hcomponents, helsewhere⟩

/-- A directory whose path is taken for the standard input can be backed up to but not restored
from: the run keeps the menu there, and restoring succeeds without it. -/
theorem backup_not_restored :
    let backups := Path.ofText "-"
    let settings : Settings := { backupDirectory := some backups }
    let root : Path := ⟨true, ["other"]⟩
    let documents : List MenuDocument := [⟨root, ⟨true, ["other", "menu.selfml"]⟩⟩]
    let ran := run besideMenu [] settings .write documents
    collect besideMenu ⟨[], {}⟩ settings [Path.ofText "other"] = .ok documents ∧
      modifiedOf ran.1 = documents ∧
      ran.2.bytes? ["-", "menu.selfml"] = some "(menu snippet.x action.y)".toUTF8 ∧
      restore ran.2 [] backups root = (.ok [], ran.2) ∧
      ran.2.bytes? ["other", "menu.selfml"] ≠ besideMenu.bytes? ["other", "menu.selfml"] := by
  intro backups settings root documents ran
  refine ⟨?_, by decide +kernel, by decide +kernel, ?_, by decide +kernel⟩
  · exact collect_of_found_in_order [(⟨true, ["other"]⟩, [⟨true, ["other", "menu.selfml"]⟩])]
      (by decide +kernel) (by decide +kernel)
  · exact restore_of_isStandardInput (by decide +kernel) (by decide +kernel) (by decide +kernel)
      root

end Menus
