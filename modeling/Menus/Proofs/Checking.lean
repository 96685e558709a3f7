import Mathlib.Data.List.MinMax
import Menus.Command.Perform
import Menus.Proofs.Footprint
import Menus.Proofs.Progress
import Menus.Proofs.RunOrder

/-!
# Checking and writing

A run that only checks reports what a writing run would do. Without steps upwards the two give every
document the same outcome. With them a backup may be copied onto another document, so the outcomes
can differ; but it still holds that a check finds nothing to report exactly if writing changes no
file. For this a document is looked at that no backup of a rewritten one can hit, except its own:
each time it is rewritten its weight goes down, so it does not come back to the bytes that it had.
-/

namespace Menus

variable {tree : FileTree} {workingDirectory : Location} {settings : Settings} {mode : RunMode}
  {document : MenuDocument} {documents : List MenuDocument} {root : Path}

/-! ### Outcomes that change nothing -/

/-- There is nothing to do for a document. -/
def IsQuiet (outcome : Except RunError Outcome) : Prop :=
  outcome = .ok .skipped ∨ outcome = .ok .unchanged

/-- The mode matters only for a document that is read and reduced to another text. -/
theorem process_modes (tree : FileTree) (workingDirectory : Location) (settings : Settings)
    (document : MenuDocument) :
    (∀ mode other, process tree workingDirectory settings other document =
        process tree workingDirectory settings mode document) ∨
      ∃ before reduced, tree.readText workingDirectory document.path = .ok before ∧
        reduceDocument before settings.lineEnding = .ok reduced ∧ reduced ≠ before := by
  cases hread : tree.readText workingDirectory document.path with
  | error error => exact Or.inl fun _ _ => by simp only [process, Disk.attempt_sound, hread]
  | ok before =>
    cases hreduce : reduceDocument before settings.lineEnding with
    | error error =>
      left
      intro mode other
      cases error <;> simp only [process, Disk.attempt_sound, hread, hreduce]
    | ok reduced =>
      by_cases hsame : reduced = before
      · left
        intro mode other
        simp only [process, Disk.attempt_sound, hread, hreduce, if_pos hsame]
      · exact Or.inr ⟨before, reduced, rfl, hreduce, hsame⟩

/-- For a document with nothing to do the mode does not matter. -/
theorem process_eq_of_isQuiet
    (h : IsQuiet (process tree workingDirectory settings mode document).1) (other : RunMode) :
    process tree workingDirectory settings other document =
      process tree workingDirectory settings mode document := by
  rcases process_modes tree workingDirectory settings document with
    hmodes | ⟨before, reduced, hread, hreduce, hne⟩
  · exact hmodes mode other
  · exfalso
    simp only [process, Disk.attempt_sound, hread, hreduce, if_neg hne] at h
    cases mode with
    | check => simp [IsQuiet] at h
    | write =>
      rcases hsave : saveReduced tree workingDirectory settings document reduced with
        ⟨_ | _, saved⟩ <;> simp [hsave, IsQuiet] at h

/-- For documents with nothing to do the mode does not matter. -/
theorem run_eq_of_isQuiet
    (h : ∀ result ∈ (run tree workingDirectory settings mode documents).1, IsQuiet result.2)
    (other : RunMode) :
    run tree workingDirectory settings other documents =
      run tree workingDirectory settings mode documents := by
  induction documents generalizing tree with
  | nil => rfl
  | cons document documents ih =>
    simp only [run, List.forall_mem_cons] at h ⊢
    rw [process_eq_of_isQuiet h.1 other, ih h.2]

/-- A check leaves everything as it is. -/
theorem process_check_tree (tree : FileTree) (workingDirectory : Location) (settings : Settings)
    (document : MenuDocument) :
    (process tree workingDirectory settings .check document).2 = tree := by
  rcases process_cases tree workingDirectory settings .check document with
    ⟨htree, -⟩ | ⟨-, -, hmode, -⟩
  · exact htree
  · cases hmode

/-- A check of many documents leaves everything as it is. -/
theorem run_check_tree (tree : FileTree) (workingDirectory : Location) (settings : Settings)
    (documents : List MenuDocument) :
    (run tree workingDirectory settings .check documents).2 = tree := by
  induction documents with
  | nil => rfl
  | cons document documents ih => simp only [run, process_check_tree, ih]

/-- Without failures and modified documents there is nothing to do. -/
theorem forall_isQuiet_iff {results : List RunResult} :
    (∀ result ∈ results, IsQuiet result.2) ↔ failuresOf results = [] ∧ modifiedOf results = [] := by
  simp only [failuresOf, modifiedOf, List.map_eq_nil_iff, List.filter_eq_nil_iff]
  rw [← forall₂_and]
  refine forall₂_congr fun result _ => ?_
  rcases result with ⟨_, _ | _ | _ | _⟩ <;> simp [IsQuiet]

/-- Nothing is among the failures exactly if every document has an outcome. -/
theorem failuresOf_eq_nil_iff {results : List RunResult} :
    failuresOf results = [] ↔ ∀ result ∈ results, ∃ outcome, result.2 = .ok outcome := by
  simp only [failuresOf, List.map_eq_nil_iff, List.filter_eq_nil_iff]
  refine forall₂_congr fun result _ => ?_
  rcases result with ⟨_, _ | _⟩ <;> simp

/-- A document with nothing to do is not among the modified ones. -/
theorem modifiedOf_cons_of_isQuiet {result : RunResult} (h : IsQuiet result.2)
    (results : List RunResult) : modifiedOf (result :: results) = modifiedOf results := by
  obtain ⟨document, outcome⟩ := result
  obtain rfl | rfl := h <;> rfl

/-- A modified document comes before those after it. -/
theorem modifiedOf_cons_of_modified {before reduced : String} (document : MenuDocument)
    (results : List RunResult) :
    modifiedOf ((document, .ok (.modified before reduced)) :: results) =
      document :: modifiedOf results := rfl

/-! ### Weights in a tree -/

/-- The weight of the text at a location. -/
def weightAt (tree : FileTree) (ending : LineEnding) (location : Location) : Nat :=
  ((tree.bytes? location).bind String.fromUTF8?).elim 0 (weight ending)

/-- A document that is processed without failure has nothing to do, or it is modified and gets
lighter. -/
theorem process_write_cases
    (h : ∃ outcome, (process tree workingDirectory settings .write document).1 = .ok outcome) :
    IsQuiet (process tree workingDirectory settings .write document).1 ∧
        (process tree workingDirectory settings .write document).2 = tree ∨
      (∃ before reduced, (process tree workingDirectory settings .write document).1 =
          .ok (.modified before reduced)) ∧
        weightAt (process tree workingDirectory settings .write document).2 settings.lineEnding
            (document.path.resolved workingDirectory) <
          weightAt tree settings.lineEnding (document.path.resolved workingDirectory) := by
  have hquiet (h : IsQuiet (process tree workingDirectory settings .write document).1) :
      (process tree workingDirectory settings .write document).2 = tree := by
    rw [← process_eq_of_isQuiet h .check, process_check_tree]
  obtain ⟨_ | _ | ⟨before, reduced⟩, houtcome⟩ := h
  case skipped => exact Or.inl ⟨Or.inl houtcome, hquiet (Or.inl houtcome)⟩
  case unchanged => exact Or.inl ⟨Or.inr houtcome, hquiet (Or.inr houtcome)⟩
  case modified =>
    obtain ⟨hread, hreduce, hne, hwritten⟩ := process_of_modified houtcome
    have hbytes := (FileTree.readText_eq_ok hread).2
    refine Or.inr ⟨⟨before, reduced, houtcome⟩, ?_⟩
    simp only [weightAt, hwritten, hbytes, Option.bind_some, fromUTF8?_toUTF8, Option.elim_some]
    exact weight_lt_of_reduceDocument hreduce hne

/-- Where no backup of a modified document is put unless it is the place of that document, a run
without failures lets the weight go down each time a document there is modified. What is written for
a document that is elsewhere is written elsewhere. -/
theorem weightAt_run
    (hok : ∀ result ∈ (run tree workingDirectory settings .write documents).1,
      ∃ outcome, result.2 = .ok outcome)
    (location : Location)
    (hapart : ∀ document ∈ modifiedOf (run tree workingDirectory settings .write documents).1,
      location ∈ document.footprint settings workingDirectory →
        location = document.path.resolved workingDirectory) :
    weightAt (run tree workingDirectory settings .write documents).2 settings.lineEnding location +
        ((modifiedOf (run tree workingDirectory settings .write documents).1).countP
          fun document => location = document.path.resolved workingDirectory) ≤
      weightAt tree settings.lineEnding location := by
  induction documents generalizing tree with
  | nil => exact Nat.le_refl _
  | cons document documents ih =>
    simp only [run, List.forall_mem_cons] at hok hapart ⊢
    rcases process_write_cases hok.1 with ⟨hquiet, htree⟩ | ⟨⟨before, reduced, hmodified⟩, hless⟩
    · rw [modifiedOf_cons_of_isQuiet hquiet] at hapart ⊢
      rw [htree] at hok hapart ⊢
      exact ih hok.2 hapart
    · rw [hmodified, modifiedOf_cons_of_modified] at hapart ⊢
      obtain ⟨hfirst, hothers⟩ := List.forall_mem_cons.mp hapart
      have hrest := ih hok.2 hothers
      rw [List.countP_cons]
      by_cases hplace : location = document.path.resolved workingDirectory
      · simp only [hplace, decide_true, if_true] at hrest ⊢
        omega
      · have hkept := keepsFiles_process tree workingDirectory settings .write document location
          fun hmem => hplace (hfirst hmem)
        have hsame : weightAt (process tree workingDirectory settings .write document).2
            settings.lineEnding location = weightAt tree settings.lineEnding location := by
          rw [weightAt, hkept, weightAt]
        simp only [hplace, decide_false, Bool.false_eq_true, if_false]
        omega

/-- A run has a result for each of its documents, in their order. -/
theorem map_fst_run (tree : FileTree) (workingDirectory : Location) (settings : Settings)
    (mode : RunMode) (documents : List MenuDocument) :
    (run tree workingDirectory settings mode documents).1.map Prod.fst = documents := by
  induction documents generalizing tree with
  | nil => rfl
  | cons document documents ih => simp only [run, List.map_cons, ih]

/-- Only documents of a run are modified by it. -/
theorem mem_of_mem_modifiedOf_run
    (h : document ∈ modifiedOf (run tree workingDirectory settings mode documents).1) :
    document ∈ documents := by
  obtain ⟨before, reduced, hresult⟩ := mem_modifiedOf.mp h
  rw [← map_fst_run tree workingDirectory settings mode documents]
  exact List.mem_map_of_mem (f := Prod.fst) hresult

/-- The locations that documents below one root may change can be ranked so that each document comes
before its backup, unless the two are at one location. -/
theorem exists_rank_footprint (workingDirectory : Location) (settings : Settings)
    (hroot : ∀ document ∈ documents, document.root = root) :
    ∃ rank : Location → Int, ∀ document ∈ documents,
      ∀ location ∈ document.footprint settings workingDirectory,
        location = document.path.resolved workingDirectory ∨
          rank (document.path.resolved workingDirectory) < rank location := by
  simp only [MenuDocument.footprint, List.mem_cons, MenuDocument.mem_backupLocations]
  cases settings.backupDirectory with
  | none => exact ⟨fun _ => 0, by simp⟩
  | some backups =>
    obtain ⟨rank, hrank⟩ :=
      exists_rank (root.resolved workingDirectory) (backups.resolved workingDirectory)
    refine ⟨rank, ?_⟩
    rintro document hdocument location (hplace | ⟨_, ⟨⟩, hstrip, rfl⟩)
    · exact Or.inl hplace
    · rw [hroot document hdocument] at hstrip
      rcases Path.resolved_join_of_strip? hstrip backups workingDirectory with
        hsame | ⟨names, hpath, hbackup⟩
      · exact Or.inl hsame
      · rw [hpath, hbackup]
        exact (hrank names).imp Eq.symm id

/-- A run without failures over documents below one root that leaves every file as it was has
modified no document. Otherwise the first of the modified documents by rank would be hit by no
backup but its own. -/
theorem modifiedOf_run_eq_nil (hroot : ∀ document ∈ documents, document.root = root)
    (hok : failuresOf (run tree workingDirectory settings .write documents).1 = [])
    (hsame : ∀ location, (run tree workingDirectory settings .write documents).2.bytes? location =
      tree.bytes? location) :
    modifiedOf (run tree workingDirectory settings .write documents).1 = [] := by
  by_contra hne
  obtain ⟨rank, hrank⟩ := exists_rank_footprint workingDirectory settings hroot
  obtain ⟨first, hfirst⟩ : ∃ first,
      first ∈ (modifiedOf (run tree workingDirectory settings .write documents).1).argmin
        fun document => rank (document.path.resolved workingDirectory) :=
    Option.ne_none_iff_exists'.mp (mt List.argmin_eq_none.mp hne)
  have hmem := List.argmin_mem hfirst
  have hless := weightAt_run (failuresOf_eq_nil_iff.mp hok)
    (first.path.resolved workingDirectory) fun document hdocument hlocation => by
      have hleast := List.le_of_mem_argmin hdocument hfirst
      exact (hrank document (mem_of_mem_modifiedOf_run hdocument) _ hlocation).resolve_right
        (not_lt.mpr hleast)
  have hcount : 0 < (modifiedOf (run tree workingDirectory settings .write documents).1).countP
      fun document =>
        first.path.resolved workingDirectory = document.path.resolved workingDirectory :=
    List.countP_pos_iff.mpr ⟨first, hmem, by simp⟩
  rw [weightAt, hsame, ← weightAt] at hless
  omega

/-! ### Paths without steps upwards -/

/-- A document that cannot be backed up fails because of the place of its backup, and not because a
file is no text. -/
theorem exists_of_blocked? {error : RunError}
    (h : blocked? tree workingDirectory settings document = some error) :
    ∃ path blocked, error = .file path blocked ∧ blocked ≠ .notText := by
  obtain ⟨backups, -, hbackup⟩ := Option.bind_eq_some_iff.mp h
  rw [blockedBackup?, Option.ite_none_right_eq_some] at hbackup
  refine ⟨_, _, (Option.some.inj hbackup.2).symm, ?_⟩
  rw [FileTree.blockedError]
  split <;> decide

/-- Only a file in the way of its backup gives a document another outcome in writing. -/
theorem process_check_outcome_eq (hworking : tree.at? workingDirectory = some .directory)
    (hstands : document.Stands tree workingDirectory)
    (hbackups : ∀ backups ∈ settings.backupDirectory, backups.Descends)
    (hfailure : ∀ path error,
      (process tree workingDirectory settings .write document).1 = .error (.file path error) →
        tree.readText workingDirectory document.path = .error error) :
    (process tree workingDirectory settings .check document).1 =
      (process tree workingDirectory settings .write document).1 := by
  rcases process_modes tree workingDirectory settings document with
    hmodes | ⟨before, reduced, hread, hreduce, hne⟩
  · rw [hmodes .write .check]
  · have hwrite := (process_write_eq hworking hstands hbackups hread hreduce hne).1
    cases hblocked : blocked? tree workingDirectory settings document with
    | none =>
      rw [hwrite, hblocked]
      simp only [process, Disk.attempt_sound, hread, hreduce, if_neg hne]
    | some error =>
      rw [hblocked] at hwrite
      obtain ⟨path, blocked, rfl, -⟩ := exists_of_blocked? hblocked
      rw [hfailure path blocked hwrite] at hread
      cases hread

/-- The file of a modified document holds its reduced text after a writing run. -/
theorem bytes?_run_of_modified (h : Separate tree workingDirectory root documents)
    (hbackups : ∀ backups ∈ settings.backupDirectory, backups.Descends) {before reduced : String}
    (hresult : (document, .ok (.modified before reduced)) ∈
      (run tree workingDirectory settings .write documents).1) :
    (run tree workingDirectory settings .write documents).2.bytes?
      (document.path.place workingDirectory) = some reduced.toUTF8 := by
  rw [run_results h hbackups] at hresult
  obtain ⟨other, hother, heq⟩ := List.mem_map.mp hresult
  obtain ⟨rfl, houtcome⟩ := Prod.mk.inj heq
  have hentry : entryFrom? tree workingDirectory settings .write other
      (other.path.place workingDirectory) = some (.file reduced.toUTF8) := by
    simp [entryFrom?, houtcome, rewrittenWith?]
  rw [FileTree.bytes?, at?_run h hbackups,
    (entryFromRun?_eq_some_iff h hbackups).mpr ⟨other, hother, hentry⟩, Option.some_or]
  rfl

/-- The file of a document that is not modified is left alone by a writing run. -/
theorem at?_run_of_not_modified (h : Separate tree workingDirectory root documents)
    (hbackups : ∀ backups ∈ settings.backupDirectory, backups.Descends)
    (hdocument : document ∈ documents)
    (hkept : document ∉ modifiedOf (run tree workingDirectory settings .write documents).1) :
    (run tree workingDirectory settings .write documents).2.at?
      (document.path.place workingDirectory) =
        tree.at? (document.path.place workingDirectory) := by
  obtain ⟨bytes, hbytes⟩ := Option.isSome_iff_exists.mp (h.stands document hdocument).isFile
  rw [FileTree.bytes?_eq_some_iff] at hbytes
  rw [hbytes]
  refine at?_run_of_some h hbackups hbytes fun other hother hrewritten hplace => ?_
  have hne : document ≠ other := by
    rintro rfl
    exact hkept ((mem_modifiedOf_run h hbackups).mpr ⟨hother, hrewritten⟩)
  have : Std.Symm fun first second : MenuDocument =>
      first.path.place workingDirectory ≠ second.path.place workingDirectory :=
    ⟨fun _ _ => Ne.symm⟩
  exact h.apart.forall hdocument hother hne hplace

/-! ### The command -/

/-- The exit code of the command over documents, and the tree that it leaves. -/
theorem filterPaths_of_collect {surroundings : Surroundings} {paths : List Path}
    (hcollect : collect tree surroundings settings paths = .ok documents) (check : Bool) :
    let after := run tree surroundings.workingDirectory settings
      (if check then .check else .write) documents
    ((Command.filterPaths tree surroundings settings check paths).1.code = 0 ↔
        failuresOf after.1 = [] ∧ (check = true → modifiedOf after.1 = [])) ∧
      (Command.filterPaths tree surroundings settings check paths).1.code ≠ 2 ∧
      (Command.filterPaths tree surroundings settings check paths).2 = after.2 := by
  intro after
  have hcode : ∀ bad : Bool, ((if bad then 1 else 0 : UInt32) = 0 ↔ bad = false) ∧
      (if bad then 1 else 0 : UInt32) ≠ 2 := by decide
  simp only [Command.filterPaths, hcollect]
  refine ⟨(hcode _).1.trans ?_, (hcode _).2, rfl⟩
  simp [after]

/-- The command gives 2 exactly if there is nothing to start on. -/
theorem filterPaths_code_eq_two_iff {surroundings : Surroundings} {paths : List Path}
    (check : Bool) :
    (Command.filterPaths tree surroundings settings check paths).1.code = 2 ↔
      ∃ error, collect tree surroundings settings paths = .error error := by
  cases hcollect : collect tree surroundings settings paths with
  | error error => simp [Command.filterPaths, hcollect, Command.failure]
  | ok documents => simp [(filterPaths_of_collect hcollect check).2.1]

/-- A check finds nothing to report exactly if writing succeeds and changes no file. -/
theorem filterPaths_check_code_eq_zero_iff {surroundings : Surroundings} {paths : List Path} :
    (Command.filterPaths tree surroundings settings true paths).1.code = 0 ↔
      (Command.filterPaths tree surroundings settings false paths).1.code = 0 ∧
        ∀ location, (Command.filterPaths tree surroundings settings false paths).2.bytes? location =
          tree.bytes? location := by
  cases hcollect : collect tree surroundings settings paths with
  | error error => simp [Command.filterPaths, hcollect, Command.failure]
  | ok documents =>
    obtain ⟨root, hroot⟩ : ∃ root, ∀ document ∈ documents, document.root = root := by
      obtain ⟨_, found, -, -, rfl⟩ := collect_eq_ok_iff.mp hcollect
      exact ⟨rootOf found, by simp⟩
    obtain ⟨hcheckCode, -⟩ := filterPaths_of_collect hcollect true
    obtain ⟨hwriteCode, -, hwriteTree⟩ := filterPaths_of_collect hcollect false
    rw [hcheckCode, hwriteCode, hwriteTree]
    simp only [if_true, Bool.false_eq_true, if_false, true_imp_iff, false_imp_iff, and_true]
    constructor
    · intro hquiet
      have hsame := run_eq_of_isQuiet (forall_isQuiet_iff.mpr hquiet) .write
      rw [hsame, run_check_tree]
      exact ⟨hquiet.1, fun _ => rfl⟩
    · rintro ⟨hok, hfiles⟩
      have hquiet := forall_isQuiet_iff.mpr ⟨hok, modifiedOf_run_eq_nil hroot hok hfiles⟩
      rw [run_eq_of_isQuiet hquiet .check]
      exact forall_isQuiet_iff.mp hquiet

/-- **A check predicts what writing does.** It changes nothing. It finds nothing to report exactly
if writing succeeds and leaves every file as it was, and the one can start exactly if the other can.
Without steps upwards, and if nothing but reading fails, every document has the same outcome in
both, and after writing the file of each modified document holds the text that was reported, while
those of all others are as before. -/
theorem check_predicts_write (tree : FileTree) (surroundings : Surroundings) (settings : Settings)
    (paths : List Path) :
    (Command.filterPaths tree surroundings settings true paths).2 = tree ∧
      ((Command.filterPaths tree surroundings settings true paths).1.code = 0 ↔
        (Command.filterPaths tree surroundings settings false paths).1.code = 0 ∧
          ∀ location,
            (Command.filterPaths tree surroundings settings false paths).2.bytes? location =
              tree.bytes? location) ∧
      (∀ check, (Command.filterPaths tree surroundings settings check paths).1.code = 2 ↔
        ∃ error, collect tree surroundings settings paths = .error error) ∧
      ∀ documents, collect tree surroundings settings paths = .ok documents →
        tree.at? surroundings.workingDirectory = some .directory →
        (∀ path ∈ paths, path.Descends) →
        (∀ backups ∈ settings.backupDirectory, backups.Descends) →
        (∀ document path error, (document, .error (.file path error)) ∈
            (run tree surroundings.workingDirectory settings .write documents).1 →
          tree.readText surroundings.workingDirectory document.path = .error error) →
        (run tree surroundings.workingDirectory settings .check documents).1 =
            (run tree surroundings.workingDirectory settings .write documents).1 ∧
          (∀ document before reduced, (document, .ok (.modified before reduced)) ∈
              (run tree surroundings.workingDirectory settings .write documents).1 →
            (run tree surroundings.workingDirectory settings .write documents).2.bytes?
              (document.path.place surroundings.workingDirectory) = some reduced.toUTF8) ∧
          ∀ document ∈ documents,
            document ∉ modifiedOf
              (run tree surroundings.workingDirectory settings .write documents).1 →
            (run tree surroundings.workingDirectory settings .write documents).2.at?
                (document.path.place surroundings.workingDirectory) =
              tree.at? (document.path.place surroundings.workingDirectory) := by
  refine ⟨?_, filterPaths_check_code_eq_zero_iff, filterPaths_code_eq_two_iff, ?_⟩
  · cases hcollect : collect tree surroundings settings paths with
    | error error => simp only [Command.filterPaths, hcollect]
    | ok documents =>
      rw [(filterPaths_of_collect hcollect true).2.2]
      exact run_check_tree tree surroundings.workingDirectory settings documents
  · intro documents hcollect hworking hpaths hbackups hfailures
    obtain ⟨⟨root, hcollected⟩, -⟩ := exists_collected hworking hpaths hcollect
    have hseparate := hcollected.separate hworking
    refine ⟨?_, fun document before reduced => bytes?_run_of_modified hseparate hbackups,
      fun document => at?_run_of_not_modified hseparate hbackups⟩
    rw [run_results hseparate hbackups] at hfailures ⊢
    rw [run_results hseparate hbackups]
    refine List.map_congr_left fun document hdocument => ?_
    rw [process_check_outcome_eq hworking (hseparate.stands document hdocument) hbackups]
    intro path error hfails
    exact hfailures document path error (List.mem_map.mpr ⟨document, hdocument, by rw [hfails]⟩)

/-- Checking two documents, one of which cannot be read, and writing them. -/
theorem check_predicts_write_twoMenus :
    let settings : Settings := { backupDirectory := some (Path.ofText "kept") }
    let documents : List MenuDocument :=
      [⟨⟨true, []⟩, Path.ofText "/a/menu.selfml"⟩, ⟨⟨true, []⟩, Path.ofText "/b/menu.selfml"⟩]
    collect twoMenus ⟨[], {}⟩ settings [Path.ofText "a", Path.ofText "b"] = .ok documents ∧
      (run twoMenus [] settings .check documents).1 =
        (run twoMenus [] settings .write documents).1 ∧
      (run twoMenus [] settings .write documents).2.bytes? ["b", "menu.selfml"] =
        some "(menu snippet.x)".toUTF8 := by
  intro settings documents
  have hcollect : collect twoMenus ⟨[], {}⟩ settings [Path.ofText "a", Path.ofText "b"] =
      .ok documents :=
    collect_of_found_in_order [(Path.ofText "/a", [Path.ofText "/a/menu.selfml"]),
      (Path.ofText "/b", [Path.ofText "/b/menu.selfml"])] (by decide +kernel) (by decide +kernel)
  have hresults : (run twoMenus [] settings .write documents).1 =
      [(⟨⟨true, []⟩, Path.ofText "/a/menu.selfml"⟩,
          .error (.file (Path.ofText "/a/menu.selfml") .notText)),
        (⟨⟨true, []⟩, Path.ofText "/b/menu.selfml"⟩,
          .ok (.modified "(menu snippet.x action.y)" "(menu snippet.x)"))] := by decide +kernel
  obtain ⟨hsame, hmodified, -⟩ := (check_predicts_write twoMenus ⟨[], {}⟩ settings
    [Path.ofText "a", Path.ofText "b"]).2.2.2 documents hcollect (by decide) (by decide +kernel)
    (by decide +kernel) (by
      intro document path error hfails
      obtain ⟨rfl, -, rfl⟩ : document = ⟨⟨true, []⟩, Path.ofText "/a/menu.selfml"⟩ ∧
          path = Path.ofText "/a/menu.selfml" ∧ error = .notText := by simpa [hresults] using hfails
      decide +kernel)
  refine ⟨hcollect, hsame, ?_⟩
  exact hmodified ⟨⟨true, []⟩, Path.ofText "/b/menu.selfml"⟩ "(menu snippet.x action.y)"
    "(menu snippet.x)" (by rw [hresults]; simp)

/-- A directory with a document and one below it with another. -/
def menuAboveMenu : FileTree :=
  let tree := (FileTree.empty.put [] "a" .directory).put ["a"] "c" .directory
  (tree.put ["a"] "menu.selfml" (.file "(menu snippet.x action.y)".toUTF8)).put ["a", "c"]
    "menu.selfml" (.file "(menu snippet.z)".toUTF8)

/-- A backup directory that is reached through a missing one hides the file that is there already:
once the missing one has been made, the backup of one document replaces the other, which the check
and the run itself report as unchanged. -/
theorem backup_replaces_document :
    let settings : Settings := { backupDirectory := some (Path.ofText "missing/../a/c") }
    let documents : List MenuDocument :=
      [⟨Path.ofText "/a", Path.ofText "/a/c/menu.selfml"⟩,
        ⟨Path.ofText "/a", Path.ofText "/a/menu.selfml"⟩]
    let results : List RunResult :=
      [(⟨Path.ofText "/a", Path.ofText "/a/c/menu.selfml"⟩, .ok .unchanged),
        (⟨Path.ofText "/a", Path.ofText "/a/menu.selfml"⟩,
          .ok (.modified "(menu snippet.x action.y)" "(menu snippet.x)"))]
    (Path.ofText "a").Descends ∧
      collect menuAboveMenu ⟨[], {}⟩ settings [Path.ofText "a"] = .ok documents ∧
      (run menuAboveMenu [] settings .check documents).1 = results ∧
      (run menuAboveMenu [] settings .write documents).1 = results ∧
      menuAboveMenu.bytes? ["a", "c", "menu.selfml"] = some "(menu snippet.z)".toUTF8 ∧
      (run menuAboveMenu [] settings .write documents).2.bytes? ["a", "c", "menu.selfml"] =
        some "(menu snippet.x action.y)".toUTF8 := by
  intro settings documents results
  refine ⟨by decide, ?_, by decide +kernel, by decide +kernel, by decide +kernel, by decide +kernel⟩
  exact collect_of_found_in_order [(Path.ofText "/a",
    [Path.ofText "/a/c/menu.selfml", Path.ofText "/a/menu.selfml"])] (by decide +kernel)
    (by decide +kernel)

end Menus
