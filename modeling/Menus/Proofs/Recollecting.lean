import Menus.Proofs.Collecting

/-!
# Collecting from a changed tree

Collecting gives the same documents from another tree in which directories are directories and files
are files as before, and in which no file is new below a directory that is walked. A walk may find
the files in another order, though. That does not show: each list of components is found at most
once in a walk, and putting paths in order keeps the order of those with the same components.
-/

namespace Menus

namespace Path

/-! ### Paths with the same components -/

/-- The paths with some components, in their order. -/
def spellings (components : List Component) (paths : List Path) : List Path :=
  paths.filter fun path => path.components = components

/-- The spellings of a path are those with its components. -/
@[simp]
theorem mem_spellings {components : List Component} {paths : List Path} {path : Path} :
    path ∈ spellings components paths ↔ path ∈ paths ∧ path.components = components := by
  simp [spellings]

/-- The spellings among some paths and others come one after the other. -/
theorem spellings_append (components : List Component) (first second : List Path) :
    spellings components (first ++ second) =
      spellings components first ++ spellings components second := List.filter_append ..

/-- Putting paths in order keeps the order of those with the same components. -/
theorem spellings_inOrder (components : List Component) (paths : List Path) :
    spellings components (inOrder paths) = spellings components paths := by
  have hordered : (spellings components paths).Pairwise
      fun first second => (!second.precedes first) = true := by
    refine List.pairwise_of_forall_mem_list fun first hfirst second hsecond => ?_
    rw [precedes, (mem_spellings.mp hfirst).2, (mem_spellings.mp hsecond).2, precedesBy_irrefl]
    rfl
  have hsublist : (spellings components paths).Sublist (inOrder paths) := by
    refine List.sublist_mergeSort ?_ ?_ hordered List.filter_sublist
    · exact fun _ _ _ => not_precedes_trans
    · exact not_precedes_total
  have hwithin := hsublist.filter fun path => decide (path.components = components)
  rw [spellings, List.filter_filter] at hwithin
  simp only [Bool.and_self] at hwithin
  exact (hwithin.eq_of_length ((inOrder_perm paths).symm.filter _).length_eq).symm

/-- Lists with the same spellings have the same paths. -/
theorem mem_iff_of_spellings {first second : List Path}
    (h : ∀ components, spellings components first = spellings components second) (path : Path) :
    path ∈ first ↔ path ∈ second := by
  simpa using congrArg (path ∈ ·) (h path.components)

/-- Of two lists of paths in order that spell every list of components in the same way, the first
paths are the same. -/
private theorem head_eq_of_spellings {path other : Path} {first second : List Path}
    (hfirst : (path :: first).Pairwise fun path other => other.precedes path = false)
    (hsecond : (other :: second).Pairwise fun path other => other.precedes path = false)
    (h : ∀ components,
      spellings components (path :: first) = spellings components (other :: second)) :
    path = other := by
  have hleast {path : Path} {paths : List Path}
      (hpaths : (path :: paths).Pairwise fun path other => other.precedes path = false) :
      ∀ other ∈ path :: paths, other.precedes path = false :=
    List.forall_mem_cons.mpr ⟨precedesBy_irrefl _, (List.pairwise_cons.mp hpaths).1⟩
  have hpath : path ∈ other :: second := (mem_iff_of_spellings h path).mp List.mem_cons_self
  have hother : other ∈ path :: first := (mem_iff_of_spellings h other).mpr List.mem_cons_self
  have hsame : other.components = path.components := by
    by_contra hne
    rcases precedesBy_or_precedesBy hne with hless | hless
    · exact Bool.false_ne_true ((hleast hfirst other hother).symm.trans hless)
    · exact Bool.false_ne_true ((hleast hsecond path hpath).symm.trans hless)
  have hheads := h path.components
  rw [spellings, spellings, List.filter_cons_of_pos (by simp),
    List.filter_cons_of_pos (by simpa using hsame)] at hheads
  exact (List.cons.inj hheads).1

/-- Lists of paths in order are the same if they spell every list of components in the same way. -/
theorem eq_of_spellings {first second : List Path}
    (hfirst : first.Pairwise fun path other => other.precedes path = false)
    (hsecond : second.Pairwise fun path other => other.precedes path = false)
    (h : ∀ components, spellings components first = spellings components second) :
    first = second := by
  induction first generalizing second with
  | nil =>
    refine (List.eq_nil_iff_forall_not_mem.mpr fun path hpath => ?_).symm
    exact absurd ((mem_iff_of_spellings h path).mpr hpath) List.not_mem_nil
  | cons path first ih =>
    cases second with
    | nil => exact absurd ((mem_iff_of_spellings h path).mp List.mem_cons_self) List.not_mem_nil
    | cons other second =>
      obtain rfl := head_eq_of_spellings hfirst hsecond h
      have hrest (components : List Component) :
          spellings components first = spellings components second := by
        have hall := h components
        rw [spellings, spellings, List.filter_cons, List.filter_cons] at hall
        split at hall
        case isTrue => exact (List.cons.inj hall).2
        case isFalse => exact hall
      rw [ih hfirst.of_cons hsecond.of_cons hrest]

/-- Lists with the same spellings are the same when they are sorted. -/
theorem inOrder_eq_of_spellings {first second : List Path}
    (h : ∀ components, spellings components first = spellings components second) :
    inOrder first = inOrder second :=
  eq_of_spellings (pairwise_inOrder first) (pairwise_inOrder second) fun components => by
    rw [spellings_inOrder, spellings_inOrder, h]

/-- Lists of paths with the same elements, in which no list of components is repeated, spell each
list of components in the same way. -/
theorem spellings_eq_of_perm {first second : List Path} (hperm : first.Perm second)
    (hnodup : (second.map Path.components).Nodup) (components : List Component) :
    spellings components first = spellings components second := by
  have hlength : (spellings components second).length ≤ 1 := by
    have hcount := List.nodup_iff_count_le_one.mp hnodup components
    rw [spellings, ← List.countP_eq_length_filter]
    simpa [List.count, List.countP_map, Function.comp_def, beq_eq_decide] using hcount
  have hperm : (spellings components first).Perm (spellings components second) := hperm.filter _
  cases hsecond : spellings components second with
  | nil =>
    rw [hsecond] at hperm
    exact hperm.eq_nil
  | cons path rest =>
    obtain rfl : rest = [] := by simpa [hsecond] using hlength
    rw [hsecond] at hperm
    exact List.perm_singleton.mp hperm

end Path

/-! ### What a tree keeps -/

/-- Another tree has directories where this one has them, and files where it has them. -/
structure FileTree.Keeps (tree after : FileTree) : Prop where
  directory : ∀ location, tree.at? location = some .directory → after.at? location = some .directory
  file : ∀ location, (tree.bytes? location).isSome → (after.bytes? location).isSome

/-- Another tree has no file below a location that this one does not have there, if the location is
a directory. -/
def FileTree.AddsNoneBelow (tree after : FileTree) (location : Location) : Prop :=
  tree.at? location = some .directory → ∀ names,
    (after.bytes? (location ++ names)).isSome → (tree.bytes? (location ++ names)).isSome

variable {tree after : FileTree} {surroundings : Surroundings} {settings : Settings}

/-- Names lead to different paths from a directory. -/
theorem Path.components_foldl_child_inj {path : Path} (hrooted : path.rooted = true)
    {first second : Location} (hfirst : ∀ name ∈ first, IsProperName name)
    (hsecond : ∀ name ∈ second, IsProperName name)
    (h : (first.foldl child path).components = (second.foldl child path).components) :
    first = second := by
  obtain ⟨hfirstRooted, hfirstNames, -⟩ := foldl_child hfirst path
  obtain ⟨hsecondRooted, hsecondNames, -⟩ := foldl_child hsecond path
  rw [components_eq_iff (hfirstRooted.trans hrooted) (hsecondRooted.trans hrooted), hfirstNames,
    hsecondNames] at h
  exact List.append_cancel_left h

/-- Without ignore files a walk finds every file below its directory. -/
theorem FileTree.walk_eq_filesBelow (tree : FileTree) (surroundings : Surroundings) (path : Path)
    (directory : Location) :
    tree.walk surroundings path directory false = .ok (tree.filesBelow directory) := rfl

/-- A walk finds no list of components twice. -/
theorem nodup_components_filesBelow {path : Path} (hrooted : path.rooted = true)
    (location : Location) :
    (((tree.filesBelow location).map fun names => names.foldl Path.child path).map
      Path.components).Nodup := by
  rw [List.map_map]
  refine List.Nodup.map_on (fun first hfirst second hsecond h => ?_)
    (FileTree.nodup_filesBelow tree location)
  exact Path.components_foldl_child_inj hrooted
    (FileTree.isProperName_of_mem_filesBelow hfirst)
    (FileTree.isProperName_of_mem_filesBelow hsecond) h

/-- A directory has the same files below it in another tree that keeps everything and adds none. -/
theorem filesBelow_perm (hkeeps : tree.Keeps after) {location : Location}
    (hdirectory : tree.at? location = some .directory)
    (hbelow : tree.AddsNoneBelow after location) :
    (after.filesBelow location).Perm (tree.filesBelow location) := by
  rw [List.perm_ext_iff_of_nodup (FileTree.nodup_filesBelow _ _) (FileTree.nodup_filesBelow _ _)]
  intro names
  rw [FileTree.mem_filesBelow, FileTree.mem_filesBelow]
  exact ⟨hbelow hdirectory names, hkeeps.file _⟩

/-- A given path leads to the same files in another tree that keeps everything and adds no file
below the path. -/
theorem collectFrom_of_keeps (hkeeps : tree.Keeps after)
    (hworking : tree.at? surroundings.workingDirectory = some .directory)
    (hignore : settings.respectIgnoreFiles = false) {selection : Selection} {path base : Path}
    {files : List Path} (hrooted : path.rooted = true) (hdescends : path.Descends)
    (hbelow : tree.AddsNoneBelow after path.names)
    (h : collectFrom tree surroundings settings selection path = .ok (base, files)) :
    ∃ found, collectFrom after surroundings settings selection path = .ok (base, found) ∧
      ∀ components, Path.spellings components found = Path.spellings components files := by
  have hworking' := hkeeps.directory _ hworking
  rcases (collectFrom_eq_ok_iff hworking hrooted hdescends).mp h with
    ⟨⟨hends, hbytes⟩, hbase, rfl⟩ | ⟨hdirectory, rfl, found, hfound, rfl⟩
  · have hfile := hkeeps.file _ hbytes
    exact ⟨[path], (collectFrom_eq_ok_iff hworking' hrooted hdescends).mpr
      (Or.inl ⟨⟨hends, hfile⟩, hbase, rfl⟩), fun _ => rfl⟩
  · have hdirectory' := hkeeps.directory _ hdirectory
    rw [hignore, FileTree.walk_eq_filesBelow] at hfound
    obtain rfl := Except.ok.inj hfound
    refine ⟨_, (collectFrom_eq_ok_iff hworking' hrooted hdescends).mpr
      (Or.inr ⟨hdirectory', rfl, after.filesBelow path.names, ?_, rfl⟩), ?_⟩
    · rw [hignore, FileTree.walk_eq_filesBelow]
    have hsame := (filesBelow_perm hkeeps hdirectory hbelow).map
      fun names => names.foldl Path.child path
    exact Path.spellings_eq_of_perm (hsame.filter _)
      ((nodup_components_filesBelow hrooted _).sublist (List.filter_sublist.map _))

/-- Given paths lead to the same files in another tree that keeps everything and adds no file below
them. -/
theorem collectFromAll_of_keeps (hkeeps : tree.Keeps after)
    (hworking : tree.at? surroundings.workingDirectory = some .directory)
    (hignore : settings.respectIgnoreFiles = false) {selection : Selection} {paths : List Path}
    (hdescends : ∀ path ∈ paths, path.Descends)
    (hbelow : ∀ path ∈ paths,
      tree.AddsNoneBelow after (path.place surroundings.workingDirectory))
    {found : List (Path × List Path)}
    (h : collectFromAll tree surroundings surroundings.path settings selection paths = .ok found) :
    ∃ others, collectFromAll after surroundings surroundings.path settings selection paths =
        .ok others ∧ others.map Prod.fst = found.map Prod.fst ∧
      ∀ components, Path.spellings components (others.flatMap Prod.snd) =
        Path.spellings components (found.flatMap Prod.snd) := by
  induction paths generalizing found with
  | nil =>
    cases h
    exact ⟨[], rfl, rfl, fun _ => rfl⟩
  | cons path paths ih =>
    obtain ⟨hpath, hpaths⟩ := List.forall_mem_cons.mp hdescends
    obtain ⟨hpathBelow, hpathsBelow⟩ := List.forall_mem_cons.mp hbelow
    obtain ⟨absolute, first, rest, habsolute, hfirst, hrest, rfl⟩ := collectFromAll_cons_eq_ok.mp h
    obtain ⟨hrooted, habsoluteDescends, hnames, -⟩ :=
      Path.place_of_absolute? hpath hworking habsolute
    obtain ⟨files, hfiles, hspellings⟩ := collectFrom_of_keeps hkeeps hworking hignore hrooted
      habsoluteDescends (hnames ▸ hpathBelow) hfirst
    obtain ⟨others, hothers, hbases, hall⟩ := ih hpaths hpathsBelow hrest
    refine ⟨(first.1, files) :: others, collectFromAll_cons_eq_ok.mpr
      ⟨absolute, (first.1, files), others, habsolute, hfiles, hothers, rfl⟩, ?_, ?_⟩
    · rw [List.map_cons, List.map_cons, hbases]
    · intro components
      rw [List.flatMap_cons, List.flatMap_cons, Path.spellings_append, Path.spellings_append,
        hspellings, hall]

/-- The same documents are collected from another tree that keeps everything and adds no file below
the directories that are given. -/
theorem collect_of_keeps (hkeeps : tree.Keeps after)
    (hworking : tree.at? surroundings.workingDirectory = some .directory)
    (hignore : settings.respectIgnoreFiles = false) {paths : List Path}
    (hdescends : ∀ path ∈ paths, path.Descends)
    (hbelow : ∀ path ∈ paths,
      tree.AddsNoneBelow after (path.place surroundings.workingDirectory))
    {documents : List MenuDocument} (h : collect tree surroundings settings paths = .ok documents) :
    collect after surroundings settings paths = .ok documents := by
  obtain ⟨selection, found, hselection, hfound, rfl⟩ := collect_eq_ok_iff.mp h
  obtain ⟨others, hothers, hbases, hspellings⟩ :=
    collectFromAll_of_keeps hkeeps hworking hignore hdescends hbelow hfound
  refine collect_eq_ok_iff.mpr ⟨selection, others, hselection, hothers, ?_⟩
  rw [Path.inOrder_eq_of_spellings hspellings, rootOf, rootOf, hbases]

end Menus
