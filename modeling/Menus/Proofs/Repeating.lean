import Menus.Proofs.Checking
import Menus.Proofs.Recollecting

/-!
# Repeating a run

When a run is repeated after it has written its documents, it has nothing left to do. Whatever the
first run changed is a document with its reduced text, which is reduced to itself, or lies among the
backups, away from the directories that are walked. So the same documents are collected again, and
each of them has the outcome it had, or is unchanged if it was modified.
-/

namespace Menus

variable {tree : FileTree} {workingDirectory : Location} {settings : Settings} {mode : RunMode}
  {document : MenuDocument} {documents : List MenuDocument} {root : Path}

/-- A text without lone carriage returns is reduced to itself once it was reduced. -/
theorem reduceDocument_again {text reduced : String} {ending : LineEnding}
    (hreturn : '\r' ∉ toLf text.toList) (hok : reduceDocument text ending = .ok reduced) :
    reduceDocument reduced ending = .ok reduced := by
  obtain ⟨written, hwritten, rfl⟩ := reducedText_of_reduceDocument hreturn hok
  rw [hwritten.reduceDocument_eq]
  cases ending <;> rfl

/-! ### What a run leaves -/

/-- A run keeps all directories and files. -/
theorem keeps_run (h : Separate tree workingDirectory root documents)
    (hbackups : ∀ backups ∈ settings.backupDirectory, backups.Descends) (mode : RunMode) :
    tree.Keeps (run tree workingDirectory settings mode documents).2 where
  directory location hlocation := by
    refine at?_run_of_some h hbackups hlocation fun document hdocument _ hplace => ?_
    have hfile := (h.stands document hdocument).isFile
    rw [← hplace, FileTree.bytes?, hlocation] at hfile
    cases hfile
  file location hlocation := by
    by_cases hplace : ∃ document ∈ documents,
        IsRewritten tree workingDirectory settings mode document ∧
          location = document.path.place workingDirectory
    · obtain ⟨document, hdocument, hrewritten, rfl⟩ := hplace
      exact isFile_run_place h hbackups hdocument hrewritten
    · obtain ⟨bytes, hbytes⟩ := Option.isSome_iff_exists.mp hlocation
      rw [FileTree.bytes?_eq_some_iff] at hbytes
      rw [FileTree.bytes?,
        at?_run_of_some h hbackups hbytes fun document hdocument hrewritten heq =>
          hplace ⟨document, hdocument, hrewritten, heq⟩]
      rfl

/-- A run adds no file below a directory that is apart from the backups. -/
theorem addsNoneBelow_run (h : Separate tree workingDirectory root documents)
    (hbackups : ∀ backups ∈ settings.backupDirectory, backups.Descends) {location : Location}
    (hapart : tree.at? location = some .directory → ∀ backups ∈ settings.backupDirectory,
      ¬backups.place workingDirectory <+: location ∧
        ¬location <+: backups.place workingDirectory) :
    tree.AddsNoneBelow (run tree workingDirectory settings mode documents).2 location := by
  intro hdirectory names hafter
  by_contra hnone
  refine hnone ?_
  rw [← bytes?_run_of_apart h hbackups fun document hdocument _ => ⟨?_, ?_⟩]
  · exact hafter
  · intro hplace
    rw [hplace] at hnone
    exact hnone (h.stands document hdocument).isFile
  · intro backups hmem hplace
    have hbelow : backups.place workingDirectory <+: location ++ names :=
      hplace ▸ List.prefix_append _ _
    obtain ⟨hnotBelow, hnotAbove⟩ := hapart hdirectory backups hmem
    exact (List.prefix_or_prefix_of_prefix hbelow (List.prefix_append location names)).elim
      hnotBelow hnotAbove

/-! ### Outcomes -/

/-- What becomes of a document the second time. -/
def Outcome.again : Outcome → Outcome
  | .modified _ _ => .unchanged
  | outcome => outcome

/-- Nothing is rewritten a second time. -/
theorem rewrittenWith?_again (outcome : Except RunError Outcome) :
    rewrittenWith? mode (outcome.map Outcome.again) = none := by
  rcases outcome with _ | _ | _ | _ <;> rfl

/-- Any other outcome is the same again. -/
theorem map_again_of_not_modified {outcome : Except RunError Outcome}
    (h : ∀ before reduced, outcome ≠ .ok (.modified before reduced)) :
    outcome.map Outcome.again = outcome := by
  rcases outcome with _ | _ | _ | ⟨before, reduced⟩
  case ok.modified => exact absurd rfl (h before reduced)
  all_goals rfl

/-- If a document is not modified in writing, and no file is in the way of its backup either, it has
the same outcome in every mode and whatever is in the way. -/
theorem outcomeOf_eq_of_not_modified {path : Path} {blocked : Option RunError} {bytes : ByteArray}
    (hkept : ∀ before reduced,
      outcomeOf settings .write path blocked bytes ≠ .ok (.modified before reduced))
    (hblocked : ∀ error, blocked = some error →
      outcomeOf settings .write path blocked bytes ≠ .error error)
    (mode : RunMode) (other : Option RunError) :
    outcomeOf settings mode path other bytes = outcomeOf settings .write path blocked bytes := by
  cases htext : String.fromUTF8? bytes with
  | none => simp only [outcomeOf, htext]
  | some before =>
    cases hreduce : reduceDocument before settings.lineEnding with
    | error error => cases error <;> simp only [outcomeOf, htext, hreduce]
    | ok reduced =>
      by_cases hsame : reduced = before
      · simp only [outcomeOf, htext, hreduce, if_pos hsame]
      · simp only [outcomeOf, htext, hreduce, if_neg hsame] at hkept hblocked
        cases blocked with
        | none => exact absurd rfl (hkept before reduced)
        | some error => exact absurd rfl (hblocked error rfl)

section

variable (h : Separate tree workingDirectory root documents)
  (hbackups : ∀ backups ∈ settings.backupDirectory, backups.Descends)

include h hbackups

/-- Every document of a run has a result. -/
theorem mem_run_results (mode : RunMode) (hdocument : document ∈ documents) :
    (document, (process tree workingDirectory settings mode document).1) ∈
      (run tree workingDirectory settings mode documents).1 := by
  rw [run_results h hbackups]
  exact List.mem_map.mpr ⟨document, hdocument, rfl⟩

/-- The bytes that a document has after a writing run: those of its reduced text, which is reduced
to itself, or those it had. -/
theorem bytes?_run_place
    (hreturns : ∀ document ∈ documents, ∀ text,
      tree.readText workingDirectory document.path = .ok text → '\r' ∉ toLf text.toList)
    (hdocument : document ∈ documents) :
    (∃ before reduced, (process tree workingDirectory settings .write document).1 =
        .ok (.modified before reduced) ∧ reduceDocument reduced settings.lineEnding = .ok reduced ∧
      (run tree workingDirectory settings .write documents).2.bytes?
        (document.path.place workingDirectory) = some reduced.toUTF8) ∨
      (∀ before reduced, (process tree workingDirectory settings .write document).1 ≠
        .ok (.modified before reduced)) ∧
      (run tree workingDirectory settings .write documents).2.bytes?
          (document.path.place workingDirectory) =
        tree.bytes? (document.path.place workingDirectory) := by
  by_cases hmodified : ∃ before reduced,
      (process tree workingDirectory settings .write document).1 = .ok (.modified before reduced)
  · obtain ⟨before, reduced, hmodified⟩ := hmodified
    have hresult := mem_run_results h hbackups .write hdocument
    rw [hmodified] at hresult
    obtain ⟨hread, hreduce, -⟩ := process_of_modified hmodified
    exact Or.inl ⟨before, reduced, hmodified,
      reduceDocument_again (hreturns document hdocument before hread) hreduce,
      bytes?_run_of_modified h hbackups hresult⟩
  · refine Or.inr ⟨fun before reduced heq => hmodified ⟨before, reduced, heq⟩, ?_⟩
    have hkept : document ∉ modifiedOf
        (run tree workingDirectory settings .write documents).1 := by
      rw [mem_modifiedOf_run h hbackups, isRewritten_write_iff]
      exact fun hmem => hmodified hmem.2
    rw [FileTree.bytes?, at?_run_of_not_modified h hbackups hdocument hkept, FileTree.bytes?]

/-- A document that was written without a failure has nothing to do the next time, and any other one
has the outcome that it had. -/
theorem outcome_again
    (hagain : Separate (run tree workingDirectory settings .write documents).2 workingDirectory root
      documents)
    (hreturns : ∀ document ∈ documents, ∀ text,
      tree.readText workingDirectory document.path = .ok text → '\r' ∉ toLf text.toList)
    (hfailures : ∀ document path error, (document, .error (.file path error)) ∈
      (run tree workingDirectory settings .write documents).1 → error = .notText)
    (hdocument : document ∈ documents) (mode : RunMode) :
    (process (run tree workingDirectory settings .write documents).2 workingDirectory settings mode
        document).1 =
      (process tree workingDirectory settings .write document).1.map Outcome.again := by
  have hstands := hagain.stands document hdocument
  rcases bytes?_run_place h hbackups hreturns hdocument with
    ⟨before, reduced, hmodified, hreduce, hbytes⟩ | ⟨hkept, hsame⟩
  · rw [(process_eq hagain.working hstands hbackups hbytes).1, hmodified, outcomeOf,
      fromUTF8?_toUTF8]
    simp only [hreduce, if_true]
    rfl
  · obtain ⟨bytes, hbytes⟩ := Option.isSome_iff_exists.mp (h.stands document hdocument).isFile
    have hresult := mem_run_results h hbackups .write hdocument
    rw [map_again_of_not_modified hkept,
      (process_eq hagain.working hstands hbackups (hsame.trans hbytes)).1]
    rw [(process_eq h.working (h.stands document hdocument) hbackups hbytes).1] at hkept hresult ⊢
    refine outcomeOf_eq_of_not_modified hkept (fun error hblocked hfails => ?_) mode _
    obtain ⟨path, blocked, rfl, hne⟩ := exists_of_blocked? hblocked
    rw [hfails] at hresult
    exact hne (hfailures document path blocked hresult)

end

/-- **A repeated run does nothing.** After a writing run in which nothing failed but reading what is
no text, the same documents are collected, and another run in either mode leaves everything as it
is. Documents that were modified are unchanged now; all others have the outcome they had. -/
theorem run_again {surroundings : Surroundings}
    (hworking : tree.at? surroundings.workingDirectory = some .directory) {paths : List Path}
    (hpaths : ∀ path ∈ paths, path.Descends) (hignore : settings.respectIgnoreFiles = false)
    (hbackups : ∀ backups ∈ settings.backupDirectory, backups.Descends)
    (hapart : ∀ path ∈ paths,
      tree.at? (path.place surroundings.workingDirectory) = some .directory →
        ∀ backups ∈ settings.backupDirectory,
          ¬backups.place surroundings.workingDirectory <+:
              path.place surroundings.workingDirectory ∧
            ¬path.place surroundings.workingDirectory <+:
              backups.place surroundings.workingDirectory)
    (hcollect : collect tree surroundings settings paths = .ok documents)
    (hreturns : ∀ document ∈ documents, ∀ text,
      tree.readText surroundings.workingDirectory document.path = .ok text →
        '\r' ∉ toLf text.toList)
    (hfailures : ∀ document path error, (document, .error (.file path error)) ∈
      (run tree surroundings.workingDirectory settings .write documents).1 → error = .notText) :
    let first := run tree surroundings.workingDirectory settings .write documents
    collect first.2 surroundings settings paths = .ok documents ∧
      ∀ mode,
        (∀ location, (run first.2 surroundings.workingDirectory settings mode documents).2.at?
          location = first.2.at? location) ∧
        (run first.2 surroundings.workingDirectory settings mode documents).1 =
          first.1.map fun result => (result.1, result.2.map Outcome.again) := by
  intro first
  obtain ⟨⟨root, hcollected⟩, -⟩ := exists_collected hworking hpaths hcollect
  have hseparate := hcollected.separate hworking
  have hkeeps := keeps_run hseparate hbackups .write
  have hcollect' : collect first.2 surroundings settings paths = .ok documents :=
    collect_of_keeps hkeeps hworking hignore hpaths
      (fun path hpath => addsNoneBelow_run hseparate hbackups (hapart path hpath)) hcollect
  have hworking' := hkeeps.directory _ hworking
  have hagain : Separate first.2 surroundings.workingDirectory root documents := by
    obtain ⟨⟨other, hcollected'⟩, -⟩ := exists_collected hworking' hpaths hcollect'
    exact ⟨hworking', hcollected.root_eq, hcollected'.stands, hcollected.pairwise_place⟩
  have houtcome (mode : RunMode) : ∀ document ∈ documents,
      (process first.2 surroundings.workingDirectory settings mode document).1 =
        (process tree surroundings.workingDirectory settings .write document).1.map Outcome.again :=
    fun document hdocument =>
      outcome_again hseparate hbackups hagain hreturns hfailures hdocument mode
  refine ⟨hcollect', fun mode => ⟨fun location => ?_, ?_⟩⟩
  · rw [at?_run hagain hbackups]
    cases hput : entryFromRun? first.2 surroundings.workingDirectory settings mode documents
        location with
    | none => exact Option.none_or
    | some entry =>
      obtain ⟨document, hdocument, hentry⟩ := (entryFromRun?_eq_some_iff hagain hbackups).mp hput
      have hrewritten := isRewritten_of_entryFrom? hentry
      rw [IsRewritten, houtcome mode document hdocument, rewrittenWith?_again] at hrewritten
      cases hrewritten
  · rw [run_results hagain hbackups]
    change _ = (run tree surroundings.workingDirectory settings .write documents).1.map _
    rw [run_results hseparate hbackups, List.map_map]
    exact List.map_congr_left fun document hdocument => by
      rw [houtcome mode document hdocument, Function.comp_apply]

/-- Writing two documents, one of which cannot be read, and checking or writing them again. -/
theorem run_again_twoMenus :
    let settings : Settings := { backupDirectory := some (Path.ofText "kept") }
    let documents : List MenuDocument :=
      [⟨⟨true, []⟩, Path.ofText "/a/menu.selfml"⟩, ⟨⟨true, []⟩, Path.ofText "/b/menu.selfml"⟩]
    let first := run twoMenus [] settings .write documents
    collect first.2 ⟨[], {}⟩ settings [Path.ofText "a", Path.ofText "b"] = .ok documents ∧
      ∀ mode, (∀ location, (run first.2 [] settings mode documents).2.at? location =
          first.2.at? location) ∧
        (run first.2 [] settings mode documents).1 =
          [(⟨⟨true, []⟩, Path.ofText "/a/menu.selfml"⟩,
              .error (.file (Path.ofText "/a/menu.selfml") .notText)),
            (⟨⟨true, []⟩, Path.ofText "/b/menu.selfml"⟩, .ok .unchanged)] := by
  intro settings documents first
  have hcollect : collect twoMenus ⟨[], {}⟩ settings [Path.ofText "a", Path.ofText "b"] =
      .ok documents :=
    collect_of_found_in_order [(Path.ofText "/a", [Path.ofText "/a/menu.selfml"]),
      (Path.ofText "/b", [Path.ofText "/b/menu.selfml"])] (by decide +kernel) (by decide +kernel)
  have hresults : first.1 =
      [(⟨⟨true, []⟩, Path.ofText "/a/menu.selfml"⟩,
          .error (.file (Path.ofText "/a/menu.selfml") .notText)),
        (⟨⟨true, []⟩, Path.ofText "/b/menu.selfml"⟩,
          .ok (.modified "(menu snippet.x action.y)" "(menu snippet.x)"))] := by decide +kernel
  have hfirst : twoMenus.readText [] (Path.ofText "/a/menu.selfml") = .error .notText := by
    decide +kernel
  have hsecond : twoMenus.readText [] (Path.ofText "/b/menu.selfml") =
      .ok "(menu snippet.x action.y)" := by decide +kernel
  obtain ⟨hagain, hmodes⟩ := run_again (by decide) (by decide +kernel) rfl (by decide +kernel)
    (by decide +kernel) hcollect
    (by
      simp only [documents, List.forall_mem_cons, hfirst, hsecond]
      refine ⟨nofun, fun text htext => ?_, nofun⟩
      rw [← Except.ok.inj htext]
      decide +kernel)
    (by
      intro document path error hfails
      change _ ∈ first.1 at hfails
      obtain ⟨-, -, rfl⟩ : document = ⟨⟨true, []⟩, Path.ofText "/a/menu.selfml"⟩ ∧
          path = Path.ofText "/a/menu.selfml" ∧ error = .notText := by simpa [hresults] using hfails
      rfl)
  refine ⟨hagain, fun mode => ⟨(hmodes mode).1, ?_⟩⟩
  rw [(hmodes mode).2]
  change first.1.map _ = _
  rw [hresults]
  rfl

end Menus
