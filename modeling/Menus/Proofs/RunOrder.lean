import Mathlib.Data.List.Pairwise
import Menus.Proofs.Independence

/-!
# Runs in any order

A run over documents at different places below one root gives each of them the outcome it has on the
tree that the run starts from, and leaves what the single documents put into that tree. So it does
not matter in which order the documents are taken.
-/

namespace Menus

variable {tree : FileTree} {workingDirectory : Location} {settings : Settings} {mode : RunMode}
  {documents : List MenuDocument} {root : Path}

/-- Documents at different places below one root, in any order. -/
structure Separate (tree : FileTree) (workingDirectory : Location) (root : Path)
    (documents : List MenuDocument) : Prop where
  working : tree.at? workingDirectory = some .directory
  root_eq : ∀ document ∈ documents, document.root = root
  stands : ∀ document ∈ documents, document.Stands tree workingDirectory
  apart : documents.Pairwise fun first second =>
    first.path.place workingDirectory ≠ second.path.place workingDirectory

/-- Collected documents are separate. -/
theorem Collected.separate (h : Collected tree workingDirectory root documents)
    (hworking : tree.at? workingDirectory = some .directory) :
    Separate tree workingDirectory root documents :=
  ⟨hworking, h.root_eq, h.stands, h.pairwise_place⟩

namespace Separate

/-- In another order documents are still separate. -/
theorem perm (h : Separate tree workingDirectory root documents) {order : List MenuDocument}
    (horder : order.Perm documents) : Separate tree workingDirectory root order where
  working := h.working
  root_eq document hdocument := h.root_eq document (horder.mem_iff.mp hdocument)
  stands document hdocument := h.stands document (horder.mem_iff.mp hdocument)
  apart := h.apart.perm horder.symm fun hne => hne.symm

/-- The working directory is no document. -/
theorem working_ne_place (h : Separate tree workingDirectory root documents)
    {document : MenuDocument} (hdocument : document ∈ documents) :
    workingDirectory ≠ document.path.place workingDirectory := by
  intro hsame
  have hfile := (h.stands document hdocument).isFile
  rw [← hsame, FileTree.bytes?, h.working] at hfile
  cases hfile

/-- Documents at different places are at different places below their root. -/
theorem nodup_relative (h : Separate tree workingDirectory root documents) :
    (documents.map fun document => document.relative.names).Nodup := by
  refine List.pairwise_map.mpr
    (h.apart.imp_of_mem fun {first second} hfirst hsecond hne hsame => ?_)
  rw [(h.stands first hfirst).place_eq, (h.stands second hsecond).place_eq, h.root_eq first hfirst,
    h.root_eq second hsecond, hsame] at hne
  exact hne rfl

/-- Processing the first document leaves the tree the same for every other one. -/
theorem sameFor {first document : MenuDocument}
    (h : Separate tree workingDirectory root (first :: documents))
    (hbackups : ∀ backups ∈ settings.backupDirectory, backups.Descends)
    (hdocument : document ∈ documents) :
    SameFor document settings workingDirectory tree
      (process tree workingDirectory settings mode first).2 := by
  have hmem : document ∈ first :: documents := List.mem_cons_of_mem _ hdocument
  exact sameFor_process h.working (h.stands first List.mem_cons_self) (h.stands document hmem)
    hbackups ((h.root_eq first List.mem_cons_self).trans (h.root_eq document hmem).symm)
    (List.rel_of_pairwise_cons h.apart hdocument)

/-- The documents after the first are separate when the first has been processed. -/
theorem process {first : MenuDocument}
    (h : Separate tree workingDirectory root (first :: documents))
    (hbackups : ∀ backups ∈ settings.backupDirectory, backups.Descends) :
    Separate (process tree workingDirectory settings mode first).2 workingDirectory root
      documents where
  working := at?_process_of_some h.working (h.stands first List.mem_cons_self) hbackups h.working
    (h.working_ne_place List.mem_cons_self)
  root_eq document hdocument := h.root_eq document (List.mem_cons_of_mem _ hdocument)
  stands document hdocument :=
    (h.sameFor hbackups hdocument).stands (h.stands document (List.mem_cons_of_mem _ hdocument))
  apart := h.apart.of_cons

/-- The documents put the same entry wherever two of them put one. -/
theorem entryFrom?_agree (h : Separate tree workingDirectory root documents)
    (hbackups : ∀ backups ∈ settings.backupDirectory, backups.Descends) {location : Location}
    {first second : MenuDocument} (hfirst : first ∈ documents) (hsecond : second ∈ documents)
    {entry other : FileEntry}
    (hentry : entryFrom? tree workingDirectory settings mode first location = some entry)
    (hother : entryFrom? tree workingDirectory settings mode second location = some other) :
    entry = other := by
  by_cases hsame : first = second
  · subst hsame
    exact Option.some.inj (hentry.symm.trans hother)
  · have : Std.Symm fun first second : MenuDocument =>
        first.path.place workingDirectory ≠ second.path.place workingDirectory :=
      ⟨fun _ _ => Ne.symm⟩
    have hne := h.apart.forall hfirst hsecond hsame
    have hroot := (h.root_eq first hfirst).trans (h.root_eq second hsecond).symm
    exact Menus.entryFrom?_agree h.working (h.stands first hfirst) (h.stands second hsecond)
      hbackups hroot hne hentry hother

end Separate

/-! ### A whole run -/

/-- Every document has the outcome that it has on the tree a run starts from. -/
theorem run_results (h : Separate tree workingDirectory root documents)
    (hbackups : ∀ backups ∈ settings.backupDirectory, backups.Descends) :
    (run tree workingDirectory settings mode documents).1 =
      documents.map fun document =>
        (document, (process tree workingDirectory settings mode document).1) := by
  induction documents generalizing tree with
  | nil => rfl
  | cons first documents ih =>
    have hrest : ∀ document ∈ documents,
        (document, (process (process tree workingDirectory settings mode first).2 workingDirectory
          settings mode document).1) =
        (document, (process tree workingDirectory settings mode document).1) :=
      fun document hdocument => by
        rw [(h.sameFor hbackups hdocument).outcome_eq h.working
          (h.stands document (List.mem_cons_of_mem _ hdocument)) hbackups]
    simp only [run]
    rw [ih (h.process hbackups), List.map_congr_left hrest, List.map_cons]

/-- What a run puts at a location. -/
def entryFromRun? (tree : FileTree) (workingDirectory : Location) (settings : Settings)
    (mode : RunMode) (documents : List MenuDocument) (location : Location) : Option FileEntry :=
  documents.findSome? fun document =>
    entryFrom? tree workingDirectory settings mode document location

/-- Functions that are the same on a list find the same there. -/
theorem findSome?_congr {α β : Type} {f g : α → Option β} {list : List α}
    (h : ∀ a ∈ list, f a = g a) : list.findSome? f = list.findSome? g := by
  induction list with
  | nil => rfl
  | cons a list ih =>
    rw [List.findSome?_cons, List.findSome?_cons, h a List.mem_cons_self,
      ih fun b hb => h b (List.mem_cons_of_mem _ hb)]

/-- A run puts an entry at a location if one of its documents does. -/
theorem entryFromRun?_eq_some_iff (h : Separate tree workingDirectory root documents)
    (hbackups : ∀ backups ∈ settings.backupDirectory, backups.Descends) {location : Location}
    {entry : FileEntry} :
    entryFromRun? tree workingDirectory settings mode documents location = some entry ↔
      ∃ document ∈ documents,
        entryFrom? tree workingDirectory settings mode document location = some entry := by
  constructor
  · exact List.exists_of_findSome?_eq_some
  · rintro ⟨document, hdocument, hentry⟩
    obtain ⟨other, hother⟩ : ∃ other,
        entryFromRun? tree workingDirectory settings mode documents location = some other := by
      rw [← Option.isSome_iff_exists, entryFromRun?, List.findSome?_isSome_iff]
      exact ⟨document, hdocument, by rw [hentry]; rfl⟩
    obtain ⟨second, hsecond, hsecondEntry⟩ := List.exists_of_findSome?_eq_some hother
    rw [hother, h.entryFrom?_agree hbackups hsecond hdocument hsecondEntry hentry]

/-- A run leaves what its documents put into the tree, and all else as it was. That the later
documents come first in this does not matter, as they agree with the earlier ones. -/
theorem at?_run (h : Separate tree workingDirectory root documents)
    (hbackups : ∀ backups ∈ settings.backupDirectory, backups.Descends) (location : Location) :
    (run tree workingDirectory settings mode documents).2.at? location =
      (entryFromRun? tree workingDirectory settings mode documents location).or
        (tree.at? location) := by
  induction documents generalizing tree with
  | nil => rfl
  | cons first documents ih =>
    have hfirst := h.stands first List.mem_cons_self
    obtain ⟨bytes, hbytes⟩ := Option.isSome_iff_exists.mp hfirst.isFile
    have hrest : entryFromRun? (process tree workingDirectory settings mode first).2
          workingDirectory settings mode documents location =
        entryFromRun? tree workingDirectory settings mode documents location :=
      findSome?_congr fun document hdocument =>
        (h.sameFor hbackups hdocument).entryFrom?_eq h.working
          (h.stands document (List.mem_cons_of_mem _ hdocument)) hbackups location
    have hstep : (run tree workingDirectory settings mode (first :: documents)).2.at? location =
        (entryFromRun? tree workingDirectory settings mode documents location).or
          ((entryFrom? tree workingDirectory settings mode first location).or
            (tree.at? location)) := by
      simp only [run]
      rw [ih (h.process hbackups), hrest, (process_eq h.working hfirst hbackups hbytes).2]
    rw [hstep, ← Option.or_assoc]
    congr 1
    cases hentry : entryFrom? tree workingDirectory settings mode first location with
    | none => rw [Option.or_none, entryFromRun?, entryFromRun?, List.findSome?_cons, hentry]
    | some entry =>
      have hall : entryFromRun? tree workingDirectory settings mode (first :: documents) location =
          some entry :=
        (entryFromRun?_eq_some_iff h hbackups).mpr ⟨first, List.mem_cons_self, hentry⟩
      rw [hall]
      cases hlater : entryFromRun? tree workingDirectory settings mode documents location with
      | none => rfl
      | some later =>
        obtain ⟨second, hsecond, hsecondEntry⟩ := List.exists_of_findSome?_eq_some hlater
        rw [Option.some_or, h.entryFrom?_agree hbackups (List.mem_cons_of_mem _ hsecond)
          List.mem_cons_self hsecondEntry hentry]

/-! ### The documents that a run rewrites -/

/-- Whether a document is rewritten when it is processed. -/
def IsRewritten (tree : FileTree) (workingDirectory : Location) (settings : Settings)
    (mode : RunMode) (document : MenuDocument) : Prop :=
  (rewrittenWith? mode (process tree workingDirectory settings mode document).1).isSome

instance (tree : FileTree) (workingDirectory : Location) (settings : Settings) (mode : RunMode)
    (document : MenuDocument) :
    Decidable (IsRewritten tree workingDirectory settings mode document) :=
  inferInstanceAs (Decidable (_ = true))

/-- A document that puts something into the tree is rewritten. -/
theorem isRewritten_of_entryFrom? {document : MenuDocument} {location : Location}
    {entry : FileEntry}
    (h : entryFrom? tree workingDirectory settings mode document location = some entry) :
    IsRewritten tree workingDirectory settings mode document := by
  obtain ⟨reduced, hreduced, -⟩ := Option.bind_eq_some_iff.mp h
  rw [IsRewritten, hreduced]
  rfl

/-- In writing, the rewritten documents are the modified ones. -/
theorem isRewritten_write_iff {document : MenuDocument} :
    IsRewritten tree workingDirectory settings .write document ↔
      ∃ before reduced, (process tree workingDirectory settings .write document).1 =
        .ok (.modified before reduced) := by
  rw [IsRewritten]
  rcases (process tree workingDirectory settings .write document).1 with _ | _ | _ | _ <;>
    simp [rewrittenWith?]

/-- A document is among the modified ones if some result says so. -/
theorem mem_modifiedOf {results : List RunResult} {document : MenuDocument} :
    document ∈ modifiedOf results ↔
      ∃ before reduced, (document, .ok (.modified before reduced)) ∈ results := by
  simp only [modifiedOf, List.mem_map, List.mem_filter]
  constructor
  · rintro ⟨⟨other, _ | _ | _ | ⟨before, reduced⟩⟩, ⟨hresult, hmodified⟩, rfl⟩
    case ok.modified => exact ⟨before, reduced, hresult⟩
    all_goals cases hmodified
  · rintro ⟨before, reduced, hresult⟩
    exact ⟨_, ⟨hresult, rfl⟩, rfl⟩

/-- The documents that a writing run reports as modified are those it rewrites. -/
theorem mem_modifiedOf_run (h : Separate tree workingDirectory root documents)
    (hbackups : ∀ backups ∈ settings.backupDirectory, backups.Descends) {document : MenuDocument} :
    document ∈ modifiedOf (run tree workingDirectory settings .write documents).1 ↔
      document ∈ documents ∧ IsRewritten tree workingDirectory settings .write document := by
  rw [mem_modifiedOf, run_results h hbackups, isRewritten_write_iff]
  simp only [List.mem_map, Prod.mk.injEq]
  constructor
  · rintro ⟨before, reduced, other, hother, rfl, houtcome⟩
    exact ⟨hother, before, reduced, houtcome⟩
  · rintro ⟨hdocument, before, reduced, houtcome⟩
    exact ⟨before, reduced, document, hdocument, rfl, houtcome⟩

/-- The documents that a run reports as modified come in the order of the run. -/
theorem modifiedOf_run_sublist (h : Separate tree workingDirectory root documents)
    (hbackups : ∀ backups ∈ settings.backupDirectory, backups.Descends) :
    (modifiedOf (run tree workingDirectory settings mode documents).1).Sublist documents := by
  have hfirsts :
      (run tree workingDirectory settings mode documents).1.map Prod.fst = documents := by
    rw [run_results h hbackups, List.map_map]
    exact List.map_id _
  have hsublist : (modifiedOf (run tree workingDirectory settings mode documents).1).Sublist
      ((run tree workingDirectory settings mode documents).1.map Prod.fst) :=
    List.filter_sublist.map _
  rwa [hfirsts] at hsublist

/-- A rewritten document is still a file. -/
theorem isFile_run_place (h : Separate tree workingDirectory root documents)
    (hbackups : ∀ backups ∈ settings.backupDirectory, backups.Descends) {document : MenuDocument}
    (hdocument : document ∈ documents)
    (hrewritten : IsRewritten tree workingDirectory settings mode document) :
    ((run tree workingDirectory settings mode documents).2.bytes?
      (document.path.place workingDirectory)).isSome := by
  obtain ⟨reduced, hreduced⟩ := Option.isSome_iff_exists.mp hrewritten
  have hentry : entryFrom? tree workingDirectory settings mode document
      (document.path.place workingDirectory) = some (.file reduced.toUTF8) := by
    rw [entryFrom?, hreduced, Option.bind_some, if_pos rfl]
  rw [FileTree.bytes?, at?_run h hbackups,
    (entryFromRun?_eq_some_iff h hbackups).mpr ⟨document, hdocument, hentry⟩, Option.some_or]
  rfl

/-- A rewritten document leaves the bytes it had at the place of its backup if nothing was there. -/
theorem at?_run_backupPlace (h : Separate tree workingDirectory root documents)
    (hbackups : ∀ backups ∈ settings.backupDirectory, backups.Descends) {document : MenuDocument}
    (hdocument : document ∈ documents)
    (hrewritten : IsRewritten tree workingDirectory settings mode document) {backups : Path}
    (hdirectory : backups ∈ settings.backupDirectory)
    (hnone : tree.at? (document.backupPlace backups workingDirectory) = none) :
    (run tree workingDirectory settings mode documents).2.at?
        (document.backupPlace backups workingDirectory) =
      tree.at? (document.path.place workingDirectory) := by
  have hstands := h.stands document hdocument
  obtain ⟨bytes, hbytes⟩ := Option.isSome_iff_exists.mp hstands.isFile
  have hfile := FileTree.bytes?_eq_some_iff.mp hbytes
  have hne : document.backupPlace backups workingDirectory ≠
      document.path.place workingDirectory := by
    intro hsame
    rw [hsame, hfile] at hnone
    cases hnone
  obtain ⟨reduced, hreduced⟩ := Option.isSome_iff_exists.mp hrewritten
  have hentry : entryFrom? tree workingDirectory settings mode document
      (document.backupPlace backups workingDirectory) = some (.file bytes) := by
    rw [Option.mem_def] at hdirectory
    rw [entryFrom?, hreduced, Option.bind_some, if_neg hne, savedAt?, hdirectory,
      Option.bind_some, backupAt?, if_pos hnone, if_pos rfl, hfile]
  rw [at?_run h hbackups,
    (entryFromRun?_eq_some_iff h hbackups).mpr ⟨document, hdocument, hentry⟩, hfile, Option.some_or]

/-- Whatever is there stays, unless it is a document that the run rewrites. -/
theorem at?_run_of_some (h : Separate tree workingDirectory root documents)
    (hbackups : ∀ backups ∈ settings.backupDirectory, backups.Descends) {location : Location}
    {entry : FileEntry} (hentry : tree.at? location = some entry)
    (hplaces : ∀ document ∈ documents, IsRewritten tree workingDirectory settings mode document →
      location ≠ document.path.place workingDirectory) :
    (run tree workingDirectory settings mode documents).2.at? location = some entry := by
  rw [at?_run h hbackups, hentry]
  cases hput : entryFromRun? tree workingDirectory settings mode documents location with
  | none => rfl
  | some put =>
    obtain ⟨document, hdocument, hfrom⟩ := (entryFromRun?_eq_some_iff h hbackups).mp hput
    rcases entryFrom?_cases h.working (h.stands document hdocument) hbackups hfrom with
      hplace | ⟨backups, -, hnone, hclear, ⟨rfl, -⟩ | ⟨habove, rfl⟩⟩
    · exact absurd hplace (hplaces document hdocument (isRewritten_of_entryFrom? hfrom))
    · rw [hnone] at hentry
      cases hentry
    · rw [(hclear.mono habove).eq_directory hentry, Option.some_or]

/-- A run changes no file but the documents it rewrites, and makes none but their backups. Above a
backup only directories are made, where there was one or nothing. -/
theorem bytes?_run_of_apart (h : Separate tree workingDirectory root documents)
    (hbackups : ∀ backups ∈ settings.backupDirectory, backups.Descends) {location : Location}
    (hplaces : ∀ document ∈ documents, IsRewritten tree workingDirectory settings mode document →
      location ≠ document.path.place workingDirectory ∧
        ∀ backups ∈ settings.backupDirectory,
          location ≠ document.backupPlace backups workingDirectory) :
    (run tree workingDirectory settings mode documents).2.bytes? location =
      tree.bytes? location := by
  rw [FileTree.bytes?, at?_run h hbackups, FileTree.bytes?]
  cases hput : entryFromRun? tree workingDirectory settings mode documents location with
  | none => rw [Option.none_or]
  | some put =>
    obtain ⟨document, hdocument, hfrom⟩ := (entryFromRun?_eq_some_iff h hbackups).mp hput
    obtain ⟨hplace, hbackup⟩ := hplaces document hdocument (isRewritten_of_entryFrom? hfrom)
    rcases entryFrom?_cases h.working (h.stands document hdocument) hbackups hfrom with
      hsame | ⟨backups, hdirectory, hnone, hclear, ⟨hsame, -⟩ | ⟨habove, rfl⟩⟩
    · exact absurd hsame hplace
    · exact absurd hsame (hbackup backups hdirectory)
    · have hbefore := hclear location habove
      rw [FileTree.bytes?] at hbefore
      rw [hbefore, Option.some_or, Option.bind_some]
      rfl

/-! ### Other orders -/

/-- In whichever order a run takes its documents, it puts the same into the tree. -/
theorem entryFromRun?_perm (h : Separate tree workingDirectory root documents)
    (hbackups : ∀ backups ∈ settings.backupDirectory, backups.Descends) {order : List MenuDocument}
    (horder : order.Perm documents) (location : Location) :
    entryFromRun? tree workingDirectory settings mode order location =
      entryFromRun? tree workingDirectory settings mode documents location := by
  apply Option.ext
  intro entry
  rw [entryFromRun?_eq_some_iff (h.perm horder) hbackups, entryFromRun?_eq_some_iff h hbackups]
  simp only [horder.mem_iff]

/-- Processing collected documents one after the other gives each of them the outcome that it has on
the tree they were collected from, whatever becomes of the others, and leaves the same in every
order. -/
theorem run_perm {surroundings : Surroundings}
    (hworking : tree.at? surroundings.workingDirectory = some .directory) {paths : List Path}
    (hpaths : ∀ path ∈ paths, path.Descends)
    (hbackups : ∀ backups ∈ settings.backupDirectory, backups.Descends)
    (hcollect : collect tree surroundings settings paths = .ok documents)
    {order : List MenuDocument} (horder : order.Perm documents) (mode : RunMode) :
    (run tree surroundings.workingDirectory settings mode order).1 =
        order.map (fun document =>
          (document, (process tree surroundings.workingDirectory settings mode document).1)) ∧
      ∀ location, (run tree surroundings.workingDirectory settings mode order).2.at? location =
        (run tree surroundings.workingDirectory settings mode documents).2.at? location := by
  obtain ⟨⟨root, hcollected⟩, -⟩ := exists_collected hworking hpaths hcollect
  have hseparate := hcollected.separate hworking
  refine ⟨run_results (hseparate.perm horder) hbackups, fun location => ?_⟩
  rw [at?_run (hseparate.perm horder) hbackups, at?_run hseparate hbackups,
    entryFromRun?_perm hseparate hbackups horder]

/-- Two directories with a document each, one of which cannot be read as text. -/
def twoMenus : FileTree :=
  let tree := (FileTree.empty.put [] "a" .directory).put [] "b" .directory
  (tree.put ["b"] "menu.selfml" (.file "(menu snippet.x action.y)".toUTF8)).put ["a"] "menu.selfml"
    (.file (.mk #[255]))

/-- Two documents are taken in either order, one of which is inside the backup directory. -/
theorem run_perm_twoMenus :
    let settings : Settings := { backupDirectory := some (Path.ofText "a") }
    let order : List MenuDocument :=
      [⟨⟨true, []⟩, Path.ofText "/b/menu.selfml"⟩, ⟨⟨true, []⟩, Path.ofText "/a/menu.selfml"⟩]
    collect twoMenus ⟨[], {}⟩ settings [Path.ofText "a", Path.ofText "b"] = .ok order.reverse ∧
      (run twoMenus [] settings .write order).1 =
        order.map (fun document => (document, (process twoMenus [] settings .write document).1)) ∧
      ∀ location, (run twoMenus [] settings .write order).2.at? location =
        (run twoMenus [] settings .write order.reverse).2.at? location := by
  intro settings order
  have hcollect : collect twoMenus ⟨[], {}⟩ settings [Path.ofText "a", Path.ofText "b"] =
      .ok order.reverse :=
    collect_of_found_in_order [(Path.ofText "/a", [Path.ofText "/a/menu.selfml"]),
      (Path.ofText "/b", [Path.ofText "/b/menu.selfml"])] (by decide +kernel) (by decide +kernel)
  exact ⟨hcollect, run_perm (by decide) (by decide +kernel) (by decide +kernel) hcollect
    (List.reverse_perm order).symm .write⟩

end Menus
