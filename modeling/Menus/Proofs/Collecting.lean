import Menus.Collection
import Menus.Proofs.Components
import Menus.Proofs.Following
import Menus.Proofs.PathOrder
import Mathlib.Data.List.Forall2

/-!
# What collecting finds

Paths without steps upwards are collected into documents that are files below one common root. They
come in strictly increasing order, so that no two of them are at the same place or at the same place
below the root.
-/

namespace Menus

/-- A document that is a file of a tree at a place below its root. -/
structure MenuDocument.Stands (document : MenuDocument) (tree : FileTree)
    (workingDirectory : Location) : Prop where
  descends : document.path.Descends
  endsInName : document.path.EndsInName
  isFile : (tree.bytes? (document.path.place workingDirectory)).isSome
  strip_eq : document.path.strip? document.root = some document.relative
  relative_rooted : document.relative.rooted = false
  relative_descends : document.relative.Descends
  relative_endsInName : document.relative.EndsInName
  place_eq : document.path.place workingDirectory =
    document.root.place workingDirectory ++ document.relative.names

/-- Documents that are files of a tree below one root, in strictly increasing order. -/
structure Collected (tree : FileTree) (workingDirectory : Location) (root : Path)
    (documents : List MenuDocument) : Prop where
  root_rooted : root.rooted = true
  root_descends : root.Descends
  root_eq : ∀ document ∈ documents, document.root = root
  rooted : ∀ document ∈ documents, document.path.rooted = true
  stands : ∀ document ∈ documents, document.Stands tree workingDirectory
  increasing : documents.Pairwise fun first second => first.path.precedes second.path = true

/-! ### One given path -/

/-- A file that a given path leads to, below a directory for the common root. -/
structure FoundBelow (tree : FileTree) (path base file : Path) : Prop where
  rooted : file.rooted = true
  descends : file.Descends
  endsInName : file.EndsInName
  isFile : (tree.bytes? file.names).isSome
  below_base : ∃ others, others ≠ [] ∧ file.names = base.names ++ others
  below_path : path.names <+: file.names

variable {tree : FileTree} {workingDirectory : Location} {surroundings : Surroundings}
  {settings : Settings}

/-- The names of the files below a directory lead there. -/
theorem FileTree.isProperName_of_mem_filesBelow {location names : Location}
    (h : names ∈ tree.filesBelow location) : ∀ name ∈ names, IsProperName name := by
  obtain ⟨bytes, hbytes⟩ := Option.isSome_iff_exists.mp (mem_filesBelow.mp h)
  rw [bytes?_eq_some_iff] at hbytes
  exact fun name hname => isProperName_of_at? hbytes name (List.mem_append_right _ hname)

/-- A walk finds only files below its directory. -/
theorem FileTree.subset_filesBelow_of_walk {path : Path} {location : Location} {respects : Bool}
    {found : List Location}
    (h : tree.walk surroundings path location respects = .ok found) :
    found ⊆ tree.filesBelow location := by
  rw [walk] at h
  split at h
  case isTrue =>
    split at h
    case h_1 =>
      obtain rfl := Except.ok.inj h
      exact List.filter_subset_self _
    case h_2 => cases h
  case isFalse =>
    obtain rfl := Except.ok.inj h
    exact List.Subset.refl _

/-- What one path leads to, if it leads anywhere: a file, or files that are found in a directory. -/
theorem collectFrom_eq_ok_iff_locate {selection : Selection} {path base : Path}
    {files : List Path} :
    collectFrom tree surroundings settings selection path = .ok (base, files) ↔
      tree.isFile surroundings.workingDirectory path = true ∧ path.parent?.getD .empty = base ∧
          [path] = files ∨
        ∃ location found, tree.locate surroundings.workingDirectory path = .ok location ∧
          tree.at? location = some .directory ∧ path = base ∧
          tree.walk surroundings path location settings.respectIgnoreFiles = .ok found ∧
          ((found.map fun names => names.foldl Path.child path).filter
            (selection.selects path)) = files := by
  rw [collectFrom]
  cases hlocate : tree.locate surroundings.workingDirectory path with
  | error error => simp [FileTree.isFile, FileTree.find?, hlocate]
  | ok location =>
    cases hat : tree.at? location with
    | none => simp [FileTree.isFile, FileTree.find?, hlocate, hat]
    | some entry =>
      cases entry with
      | file bytes => simp [FileTree.isFile, FileTree.find?, hlocate, hat, FileEntry.bytes?]
      | directory =>
        cases hwalk : tree.walk surroundings path location settings.respectIgnoreFiles <;>
          simp [FileTree.isFile, FileTree.find?, hlocate, hat, hwalk, FileEntry.bytes?]

/-- A path without steps upwards leads to the file at its place, or to files that are found in the
directory there. -/
theorem collectFrom_eq_ok_iff
    (hworking : tree.at? surroundings.workingDirectory = some .directory)
    {selection : Selection} {path base : Path} {files : List Path} (hrooted : path.rooted = true)
    (hdescends : path.Descends) :
    collectFrom tree surroundings settings selection path = .ok (base, files) ↔
      (path.EndsInName ∧ (tree.bytes? path.names).isSome) ∧ path.parent?.getD .empty = base ∧
          [path] = files ∨
        tree.at? path.names = some .directory ∧ path = base ∧ ∃ found,
          tree.walk surroundings path path.names settings.respectIgnoreFiles = .ok found ∧
          ((found.map fun names => names.foldl Path.child path).filter
            (selection.selects path)) = files := by
  have hplace := Path.place_of_rooted hrooted surroundings.workingDirectory
  rw [collectFrom_eq_ok_iff_locate, FileTree.isFile_iff hworking hdescends, hplace]
  refine or_congr_right ⟨?_, ?_⟩
  · rintro ⟨location, found, hlocate, hdirectory, hbase, hfound⟩
    obtain rfl : location = path.names :=
      (FileTree.eq_place_of_locate hworking hdescends hlocate).trans hplace
    exact ⟨hdirectory, hbase, found, hfound⟩
  · rintro ⟨hdirectory, hbase, found, hfound⟩
    refine ⟨path.names, found, ?_, hdirectory, hbase, hfound⟩
    rw [← hplace] at hdirectory ⊢
    exact FileTree.locate_eq_place (by simp [Path.isEmpty, hrooted]) hworking hdescends hdirectory

/-- What one path leads to is below it, or is the file at its place. -/
theorem foundBelow_of_collectFrom
    (hworking : tree.at? surroundings.workingDirectory = some .directory)
    {selection : Selection} {path base : Path} {files : List Path} (hrooted : path.rooted = true)
    (hdescends : path.Descends)
    (h : collectFrom tree surroundings settings selection path = .ok (base, files)) :
    base.rooted = true ∧ base.Descends ∧ ∀ file ∈ files, FoundBelow tree path base file := by
  rcases (collectFrom_eq_ok_iff hworking hrooted hdescends).mp h with
    ⟨⟨hends, hbytes⟩, hbase, rfl⟩ | ⟨hdirectory, rfl, found, hfound, rfl⟩
  · obtain ⟨parent, hparent, hparentRooted, hparentNames, hparentDescends⟩ :=
      Path.exists_parent? hends.names_ne_nil
    obtain rfl : parent = base := by simpa [hparent] using hbase
    refine ⟨hparentRooted.trans hrooted, hparentDescends hdescends, fun file hmem => ?_⟩
    obtain rfl := List.mem_singleton.mp hmem
    refine ⟨hrooted, hdescends, hends, hbytes,
      ⟨[file.names.getLast hends.names_ne_nil], by simp, ?_⟩, List.prefix_rfl⟩
    rw [hparentNames, List.dropLast_append_getLast]
  · refine ⟨hrooted, hdescends, fun file hmem => ?_⟩
    obtain ⟨names, hnames, rfl⟩ := List.mem_map.mp (List.mem_filter.mp hmem).1
    have hbelow := FileTree.subset_filesBelow_of_walk hfound hnames
    have hbytes := FileTree.mem_filesBelow.mp hbelow
    have hne : names ≠ [] := by
      rintro rfl
      rw [List.append_nil, FileTree.bytes?, hdirectory] at hbytes
      cases hbytes
    obtain ⟨hfileRooted, hfileNames, hfileDescends, hfileEnds⟩ :=
      Path.foldl_child (FileTree.isProperName_of_mem_filesBelow hbelow) path
    rw [← hfileNames] at hbytes
    exact ⟨hfileRooted.trans hrooted, hfileDescends hdescends, hfileEnds hne, hbytes,
      ⟨names, hne, hfileNames⟩, hfileNames ▸ List.prefix_append _ _⟩

/-! ### The common root -/

/-- Rooted paths have a common ancestor, which goes through the names that are first in all of
them. -/
theorem exists_commonAncestor? {path : Path} {others : List Path} (hrooted : path.rooted = true)
    (hothers : ∀ other ∈ others, other.rooted = true) :
    ∃ root, commonAncestor? path others = some root ∧ root.rooted = true ∧
      (path.Descends → root.Descends) ∧
      ∀ names, names <+: root.names ↔ ∀ other ∈ path :: others, names <+: other.names := by
  induction others generalizing path with
  | nil => exact ⟨path, rfl, hrooted, id, by simp⟩
  | cons other others ih =>
    obtain ⟨hother, hothers⟩ := List.forall_mem_cons.mp hothers
    obtain ⟨common, hcommon, hcommonRooted, hcommonDescends, hboth⟩ :=
      Path.exists_find?_ancestors hrooted hother
    obtain ⟨root, hroot, hrootRooted, hdescends, hall⟩ := ih hcommonRooted hothers
    refine ⟨root, by rw [commonAncestor?, hcommon, Option.bind_some, hroot], hrootRooted,
      fun hpath => hdescends (hcommonDescends hpath), fun names => ?_⟩
    rw [hall, List.forall_mem_cons, hboth, List.forall_mem_cons, List.forall_mem_cons, and_assoc]

/-! ### All given paths -/

/-- What a path is made absolute to from the working directory, without steps upwards. -/
theorem Path.place_of_absolute? {path absolute : Path} (hpath : path.Descends)
    (hworking : tree.at? workingDirectory = some .directory)
    (h : path.absolute? ⟨true, workingDirectory⟩ = some absolute) :
    absolute.rooted = true ∧ absolute.Descends ∧ absolute.names = path.place workingDirectory ∧
      (path.EndsInName → absolute.EndsInName) := by
  have hempty : path.isEmpty = false := by
    by_contra hempty
    simp [absolute?, hempty] at h
  obtain ⟨other, hother, hfacts⟩ :=
    exists_absolute? hempty hpath (FileTree.isProperName_of_at? hworking)
  rwa [Option.some.inj (h.symm.trans hother)]

/-- What one path and some others lead to. -/
theorem collectFromAll_cons_eq_ok {top : Path}
    {selection : Selection} {path : Path} {paths : List Path} {found : List (Path × List Path)} :
    collectFromAll tree surroundings top settings selection (path :: paths) = .ok found ↔
      ∃ absolute first rest, path.absolute? top = some absolute ∧
        collectFrom tree surroundings settings selection absolute = .ok first ∧
        collectFromAll tree surroundings top settings selection paths = .ok rest ∧
        first :: rest = found := by
  rw [collectFromAll]
  cases path.absolute? top with
  | none => simp
  | some absolute =>
    cases hfirst : collectFrom tree surroundings settings selection absolute with
    | error error => simp [hfirst, bind, Except.bind]
    | ok first =>
      cases hrest : collectFromAll tree surroundings top settings selection paths with
      | error error => simp [hfirst, bind, Except.bind]
      | ok rest => simp [hfirst, bind, Except.bind, pure, Except.pure, -Prod.exists]

variable {selection : Selection} {paths : List Path}
  {found : List (Path × List Path)}

/-- What a given path leads to: a directory for the common root, and files. -/
def Leads (tree : FileTree) (surroundings : Surroundings) (settings : Settings)
    (selection : Selection) (path : Path) (entry : Path × List Path) : Prop :=
  ∃ absolute, path.absolute? surroundings.path = some absolute ∧
    collectFrom tree surroundings settings selection absolute = .ok entry

/-- A path leads to one root and one list of files. -/
theorem Leads.unique {path : Path} {entry other : Path × List Path}
    (h : Leads tree surroundings settings selection path entry)
    (hother : Leads tree surroundings settings selection path other) : entry = other := by
  obtain ⟨absolute, habsolute, hentry⟩ := h
  obtain ⟨_, hsame, hother⟩ := hother
  obtain rfl := Option.some.inj (habsolute.symm.trans hsame)
  exact Except.ok.inj (hentry.symm.trans hother)

/-- Collecting succeeds exactly if each path leads to what is found for it, in their order. -/
theorem collectFromAll_eq_ok_iff :
    collectFromAll tree surroundings surroundings.path settings selection paths = .ok found ↔
      List.Forall₂ (Leads tree surroundings settings selection) paths found := by
  induction paths generalizing found with
  | nil => simp [collectFromAll, eq_comm]
  | cons path paths ih =>
    rw [collectFromAll_cons_eq_ok, List.forall₂_cons_left_iff]
    constructor
    · rintro ⟨absolute, first, rest, habsolute, hfirst, hrest, rfl⟩
      exact ⟨first, rest, ⟨absolute, habsolute, hfirst⟩, ih.mp hrest, rfl⟩
    · rintro ⟨first, rest, ⟨absolute, habsolute, hfirst⟩, hrest, rfl⟩
      exact ⟨absolute, first, rest, habsolute, hfirst, ih.mpr hrest, rfl⟩

/-- What is found is what some given path leads to. -/
theorem mem_found_iff
    (h : List.Forall₂ (Leads tree surroundings settings selection) paths found)
    {entry : Path × List Path} :
    entry ∈ found ↔ ∃ path ∈ paths, Leads tree surroundings settings selection path entry := by
  induction h with
  | nil => simp
  | cons hfirst _ ih =>
    simp only [List.mem_cons, ih, exists_eq_or_imp]
    exact or_congr_left ⟨fun hentry => hentry ▸ hfirst, fun hentry => hentry.unique hfirst⟩

/-- Each given path leads to something. -/
theorem exists_leads
    (h : List.Forall₂ (Leads tree surroundings settings selection) paths found) {path : Path}
    (hpath : path ∈ paths) :
    ∃ entry ∈ found, Leads tree surroundings settings selection path entry := by
  induction h with
  | nil => cases hpath
  | @cons first entry _ _ hfirst _ ih =>
    rcases List.mem_cons.mp hpath with rfl | hpath
    · exact ⟨entry, List.mem_cons_self, hfirst⟩
    · obtain ⟨other, hother, hleads⟩ := ih hpath
      exact ⟨other, List.mem_cons_of_mem _ hother, hleads⟩

/-- Where each of some paths leads somewhere, all of them together do. -/
theorem exists_found
    (h : ∀ path ∈ paths, ∃ entry, Leads tree surroundings settings selection path entry) :
    ∃ found, List.Forall₂ (Leads tree surroundings settings selection) paths found := by
  induction paths with
  | nil => exact ⟨[], .nil⟩
  | cons path paths ih =>
    obtain ⟨⟨entry, hentry⟩, hpaths⟩ := List.forall_mem_cons.mp h
    obtain ⟨found, hfound⟩ := ih hpaths
    exact ⟨entry :: found, .cons hentry hfound⟩

/-- The absolute paths of the given ones, and what each of them leads to. -/
theorem foundBelow_of_collectFromAll
    (hworking : tree.at? surroundings.workingDirectory = some .directory)
    (hdescends : ∀ path ∈ paths, path.Descends)
    (h : collectFromAll tree surroundings surroundings.path settings selection paths = .ok found) :
    ∀ entry ∈ found, entry.1.rooted = true ∧ entry.1.Descends ∧
      ∃ path ∈ paths, ∃ absolute : Path,
        absolute.names = path.place surroundings.workingDirectory ∧
          ∀ file ∈ entry.2, FoundBelow tree absolute entry.1 file := by
  intro entry hentry
  obtain ⟨path, hpath, absolute, habsolute, hfound⟩ :=
    (mem_found_iff (collectFromAll_eq_ok_iff.mp h)).mp hentry
  obtain ⟨hrooted, habsoluteDescends, hnames, -⟩ :=
    Path.place_of_absolute? (hdescends path hpath) hworking habsolute
  obtain ⟨hbaseRooted, hbaseDescends, hfiles⟩ :=
    foundBelow_of_collectFrom hworking hrooted habsoluteDescends hfound
  exact ⟨hbaseRooted, hbaseDescends, path, hpath, absolute, hnames, hfiles⟩

/-- A file below a root is a document there. -/
theorem FoundBelow.stands {path base file root : Path} (h : FoundBelow tree path base file)
    (hroot : root.rooted = true) (hbase : root.names <+: base.names) (workingDirectory : Location) :
    (⟨root, file⟩ : MenuDocument).Stands tree workingDirectory := by
  obtain ⟨names, hnames⟩ := hbase
  obtain ⟨others, hne, hothers⟩ := h.below_base
  have hsplit : file.names = root.names ++ (names ++ others) := by
    rw [hothers, ← hnames, List.append_assoc]
  obtain ⟨relative, hstrip, hrooted, hrelative, -, hdescends, hends⟩ :=
    Path.exists_strip? h.rooted hroot hsplit
  have hrelativeEq : (⟨root, file⟩ : MenuDocument).relative = relative := by
    rw [MenuDocument.relative, hstrip, Option.getD_some]
  exact
    { descends := h.descends
      endsInName := h.endsInName
      isFile := by rw [Path.place_of_rooted h.rooted]; exact h.isFile
      strip_eq := by rw [hrelativeEq, hstrip]
      relative_rooted := by rw [hrelativeEq, hrooted]
      relative_descends := by rw [hrelativeEq]; exact hdescends h.descends
      relative_endsInName := by rw [hrelativeEq]; exact hends (by simp [hne])
      place_eq := by
        rw [hrelativeEq, hrelative, Path.place_of_rooted h.rooted, Path.place_of_rooted hroot,
          hsplit] }

/-- The root for what was found: the common ancestor of the directories for it. -/
def rootOf (found : List (Path × List Path)) : Path :=
  (match found.map Prod.fst with
    | [] => none
    | first :: others => commonAncestor? first others).getD .empty

/-- The root goes through the names that are first in all of the directories for it. -/
theorem rootOf_spec (hne : found ≠ [])
    (hrooted : ∀ entry ∈ found, entry.1.rooted = true) :
    (rootOf found).rooted = true ∧
      ((∀ entry ∈ found, entry.1.Descends) → (rootOf found).Descends) ∧
      ∀ names, names <+: (rootOf found).names ↔ ∀ entry ∈ found, names <+: entry.1.names := by
  cases found with
  | nil => exact absurd rfl hne
  | cons first others =>
    obtain ⟨hfirst, hothers⟩ := List.forall_mem_cons.mp hrooted
    have hbases : ∀ base ∈ others.map Prod.fst, base.rooted = true :=
      List.forall_mem_map.mpr hothers
    obtain ⟨root, hroot, hrootRooted, hdescends, hall⟩ := exists_commonAncestor? hfirst hbases
    have heq : rootOf (first :: others) = root := by
      rw [rootOf, List.map_cons]
      simp only [hroot, Option.getD_some]
    rw [heq]
    refine ⟨hrootRooted, fun hpaths => hdescends (hpaths first List.mem_cons_self), fun names => ?_⟩
    rw [hall, List.forall_mem_cons, List.forall_mem_map, List.forall_mem_cons]

/-- What some patterns select: the files found, in order and each once, below their common root. -/
theorem collectSelected_eq_ok_iff {documents : List MenuDocument} :
    collectSelected tree surroundings settings selection paths = .ok documents ↔
      ∃ found,
        collectFromAll tree surroundings surroundings.path settings selection paths = .ok found ∧
        documents = (Path.dropRepeats (Path.inOrder (found.flatMap Prod.snd))).map fun path =>
          ⟨rootOf found, path⟩ := by
  rw [collectSelected]
  cases hfound : collectFromAll tree surroundings surroundings.path settings selection paths with
  | error error => simp [bind, Except.bind]
  | ok found =>
    simp only [bind, Except.bind, pure, Except.pure, Except.ok.injEq, exists_eq_left']
    exact eq_comm

/-- Collecting needs patterns that can be read. -/
theorem collect_eq_ok_iff_selected {documents : List MenuDocument} :
    collect tree surroundings settings paths = .ok documents ↔
      ∃ selection, Selection.ofSettings settings = .ok selection ∧
        collectSelected tree surroundings settings selection paths = .ok documents := by
  rw [collect]
  cases Selection.ofSettings settings <;> simp [Except.mapError, bind, Except.bind]

/-- What collecting gives: the files found, in order and each once, below their common root. -/
theorem collect_eq_ok_iff {documents : List MenuDocument} :
    collect tree surroundings settings paths = .ok documents ↔
      ∃ selection found, Selection.ofSettings settings = .ok selection ∧
        collectFromAll tree surroundings surroundings.path settings selection paths = .ok found ∧
        documents = (Path.dropRepeats (Path.inOrder (found.flatMap Prod.snd))).map fun path =>
          ⟨rootOf found, path⟩ := by
  simp only [collect_eq_ok_iff_selected, collectSelected_eq_ok_iff, exists_and_left]

/-- Files that are found in order are collected as they are. -/
theorem collect_of_found_in_order (found : List (Path × List Path))
    (hfound : ((Selection.ofSettings settings).mapError RunError.pattern >>= fun selection =>
      collectFromAll tree surroundings surroundings.path settings selection paths) = .ok found)
    (hordered : (found.flatMap Prod.snd).Pairwise fun first second =>
      (!second.precedes first) = true) :
    collect tree surroundings settings paths =
      .ok ((Path.dropRepeats (found.flatMap Prod.snd)).map fun path => ⟨rootOf found, path⟩) := by
  have hsorted : Path.inOrder (found.flatMap Prod.snd) = found.flatMap Prod.snd :=
    List.mergeSort_of_pairwise hordered
  cases hselection : Selection.ofSettings settings with
  | error failure => simp [hselection, Except.mapError, bind, Except.bind] at hfound
  | ok selection =>
    exact collect_eq_ok_iff.mpr
      ⟨selection, found, hselection, by rwa [hselection] at hfound, by rw [hsorted]⟩

/-- What was found in order and without repeats was found under some given path. -/
theorem exists_entry_of_mem {file : Path}
    (h : file ∈ Path.dropRepeats (Path.inOrder (found.flatMap Prod.snd))) :
    ∃ entry ∈ found, file ∈ entry.2 := by
  have hmem := (Path.dropRepeats_sublist _).subset h
  rwa [Path.mem_inOrder, List.mem_flatMap] at hmem

/-- Files that are found below the directories of their entries are documents below a root that is
above all of these directories. -/
theorem collected_of_found {root : Path} (hrooted : root.rooted = true) (hdescends : root.Descends)
    (hroot : ∀ entry ∈ found, root.names <+: entry.1.names)
    (hfound : ∀ entry ∈ found, ∃ absolute, ∀ file ∈ entry.2, FoundBelow tree absolute entry.1 file)
    (workingDirectory : Location) :
    Collected tree workingDirectory root
      ((Path.dropRepeats (Path.inOrder (found.flatMap Prod.snd))).map
        fun path => ⟨root, path⟩) := by
  have hfile : ∀ file ∈ Path.dropRepeats (Path.inOrder (found.flatMap Prod.snd)),
      (⟨root, file⟩ : MenuDocument).Stands tree workingDirectory ∧ file.rooted = true := by
    intro file hfile
    obtain ⟨entry, hentry, hmem⟩ := exists_entry_of_mem hfile
    obtain ⟨absolute, hbelow⟩ := hfound entry hentry
    exact ⟨(hbelow file hmem).stands hrooted (hroot entry hentry) workingDirectory,
      (hbelow file hmem).rooted⟩
  exact
    { root_rooted := hrooted
      root_descends := hdescends
      root_eq := by simp
      rooted := by simpa using fun file hmem => (hfile file hmem).2
      stands := by simpa using fun file hmem => (hfile file hmem).1
      increasing := List.pairwise_map.mpr (Path.pairwise_dropRepeats (Path.pairwise_inOrder _)) }

/-- Collecting gives documents below one common root, each of them below a given path. -/
theorem exists_collected
    (hworking : tree.at? surroundings.workingDirectory = some .directory)
    (hdescends : ∀ path ∈ paths, path.Descends) {documents : List MenuDocument}
    (h : collect tree surroundings settings paths = .ok documents) :
    (∃ root, Collected tree surroundings.workingDirectory root documents) ∧
      ∀ document ∈ documents, ∃ path ∈ paths,
        path.place surroundings.workingDirectory <+:
          document.path.place surroundings.workingDirectory := by
  obtain ⟨selection, found, -, hfound, rfl⟩ := collect_eq_ok_iff.mp h
  have hentries := foundBelow_of_collectFromAll hworking hdescends hfound
  constructor
  · by_cases hne : found = []
    · subst hne
      refine ⟨⟨true, []⟩, rfl, by simp [Path.Descends], ?_, ?_, ?_, ?_⟩ <;>
        simp [Path.inOrder, Path.dropRepeats]
    · obtain ⟨hrooted, hrootDescends, hnames⟩ :=
        rootOf_spec hne fun entry hentry => (hentries entry hentry).1
      refine ⟨rootOf found, collected_of_found hrooted
        (hrootDescends fun entry hentry => (hentries entry hentry).2.1)
        ((hnames _).mp List.prefix_rfl) (fun entry hentry => ?_) _⟩
      obtain ⟨-, -, path, -, absolute, -, hbelow⟩ := hentries entry hentry
      exact ⟨absolute, hbelow⟩
  · intro document hdocument
    obtain ⟨file, hfile, rfl⟩ := List.mem_map.mp hdocument
    obtain ⟨entry, hentry, hmem⟩ := exists_entry_of_mem hfile
    obtain ⟨-, -, path, hpath, absolute, habsolute, hbelow⟩ := hentries entry hentry
    refine ⟨path, hpath, ?_⟩
    rw [← habsolute, Path.place_of_rooted (hbelow file hmem).rooted]
    exact (hbelow file hmem).below_path

/-- A document is below the root again when the names of its relative path are. -/
theorem Collected.components_join {root : Path} {documents : List MenuDocument}
    (h : Collected tree workingDirectory root documents) {document : MenuDocument}
    (hdocument : document ∈ documents) :
    (root.join ⟨false, document.relative.names⟩).components = document.path.components := by
  have hstands := h.stands document hdocument
  have hplace := hstands.place_eq
  rw [h.root_eq document hdocument, Path.place_of_rooted (h.rooted document hdocument),
    Path.place_of_rooted h.root_rooted] at hplace
  obtain ⟨-, hnames, -⟩ := Path.names_of_properNames hstands.relative_descends.isProperName
  rw [Path.components_of_rooted ((Path.rooted_join root rfl).trans h.root_rooted),
    Path.components_of_rooted (h.rooted document hdocument), Path.names_join root rfl, hnames,
    hplace]

/-! ### Distinct documents -/

/-- Paths in strictly increasing order are at different places. -/
theorem Collected.pairwise_place {root : Path} {documents : List MenuDocument}
    (h : Collected tree workingDirectory root documents) :
    documents.Pairwise fun first second =>
      first.path.place workingDirectory ≠ second.path.place workingDirectory := by
  refine h.increasing.imp_of_mem fun {first second} hfirst hsecond hless hsame => ?_
  have hfirstRooted := h.rooted first hfirst
  have hsecondRooted := h.rooted second hsecond
  rw [Path.place_of_rooted hfirstRooted, Path.place_of_rooted hsecondRooted] at hsame
  have hcomponents := (Path.components_eq_iff hfirstRooted hsecondRooted).mpr hsame
  rw [Path.precedes, hcomponents, Path.precedesBy_irrefl] at hless
  cases hless

end Menus
