import Menus.Proofs.Recollecting

/-!
# Which files are found

Collecting finds the given files, and of the files below a given directory those that the patterns
select by their names and by the way to them from that directory. It finds all of these and no
others. What one given directory leaves out may still be found from another one, or be given itself.
-/

namespace Menus

variable {tree : FileTree} {workingDirectory : Location} {surroundings : Surroundings}
  {settings : Settings} {selection : Selection} {paths : List Path}

/-! ### Files below a directory -/

/-- Whether a file at the end of some names from a directory on is a document: some pattern to
include matches its own name, and no pattern to exclude matches the way to it. -/
def Selection.Takes (selection : Selection) (names : Location) : Prop :=
  ∃ name, names.getLast? = some name ∧ selection.includes.any (· name) = true ∧
    selection.excludes.any (· ("/".intercalate names)) = false

/-- A file below a directory is selected by its name and the way to it from there. -/
theorem selects_foldl_child_iff {directory : Path} (hrooted : directory.rooted = true)
    {names : Location} (hnames : ∀ name ∈ names, IsProperName name) (hne : names ≠ []) :
    selection.selects directory (names.foldl Path.child directory) = true ↔
      selection.Takes names := by
  obtain ⟨above, name, rfl⟩ := (List.eq_nil_or_concat names).resolve_left hne
  rw [List.concat_eq_append] at *
  have hlast : ((above ++ [name]).foldl Path.child directory).names.getLast? = some name := by
    rw [(Path.foldl_child hnames directory).2.1, ← List.append_assoc, List.getLast?_concat]
  have hname := Path.fileName?_eq hlast (hnames name (by simp)).2
  rw [Path.foldl_child_eq_join hnames hne] at hname ⊢
  rw [Selection.selects, hname, Path.strip?_join hrooted hnames hne, Selection.Takes,
    List.getLast?_concat]
  simp [Path.text]

/-- A location is that of a file below a directory that is a document there. -/
def FindsBelow (tree : FileTree) (selection : Selection) (directory location : Location) : Prop :=
  (tree.bytes? location).isSome ∧
    ∃ names, location = directory ++ names ∧ selection.Takes names

/-- The files that a walk finds and the patterns select are those that are found below the
directory. -/
theorem exists_selected_iff {directory path : Path} (hdirectory : directory.rooted = true)
    (hrooted : path.rooted = true) (hat : tree.at? directory.names = some .directory) :
    (∃ file ∈ ((tree.filesBelow directory.names).map fun names =>
        names.foldl Path.child directory).filter (selection.selects directory),
        file.components = path.components) ↔
      FindsBelow tree selection directory.names path.names := by
  have hne : ∀ names ∈ tree.filesBelow directory.names, names ≠ [] := by
    rintro names hnames rfl
    have hbytes := FileTree.mem_filesBelow.mp hnames
    rw [List.append_nil, FileTree.bytes?, hat] at hbytes
    cases hbytes
  have hfile (names : Location) (hnames : names ∈ tree.filesBelow directory.names) :
      (names.foldl Path.child directory).components = path.components ↔
        path.names = directory.names ++ names := by
    obtain ⟨hchild, hchildNames, -⟩ :=
      Path.foldl_child (FileTree.isProperName_of_mem_filesBelow hnames) directory
    rw [Path.components_eq_iff (hchild.trans hdirectory) hrooted, hchildNames, eq_comm]
  constructor
  · rintro ⟨file, hmem, hcomponents⟩
    obtain ⟨hmapped, hselected⟩ := List.mem_filter.mp hmem
    obtain ⟨names, hnames, rfl⟩ := List.mem_map.mp hmapped
    rw [selects_foldl_child_iff hdirectory (FileTree.isProperName_of_mem_filesBelow hnames)
      (hne names hnames)] at hselected
    have hplace := (hfile names hnames).mp hcomponents
    exact ⟨hplace ▸ FileTree.mem_filesBelow.mp hnames, names, hplace, hselected⟩
  · rintro ⟨hbytes, names, hplace, hselected⟩
    have hnames := FileTree.mem_filesBelow.mpr (hplace ▸ hbytes)
    rw [← selects_foldl_child_iff hdirectory (FileTree.isProperName_of_mem_filesBelow hnames)
      (hne names hnames)] at hselected
    exact ⟨_, List.mem_filter.mpr ⟨List.mem_map_of_mem hnames, hselected⟩,
      (hfile names hnames).mpr hplace⟩

/-! ### All given paths -/

/-- A location is that of a file that is found under a given path: the path leads to it, or to a
directory that it is found below. -/
def Finds (tree : FileTree) (workingDirectory : Location) (selection : Selection)
    (path : Path) (location : Location) : Prop :=
  tree.isFile workingDirectory path = true ∧ path.place workingDirectory = location ∨
    tree.isDirectory workingDirectory path = true ∧
      FindsBelow tree selection (path.place workingDirectory) location

/-- A given path that is there leads to the files that are found under it. -/
theorem exists_leads_of_exists (hworking : tree.at? surroundings.workingDirectory = some .directory)
    (hignore : settings.respectIgnoreFiles = false) {path : Path} (hdescends : path.Descends)
    (hexists : tree.exists? surroundings.workingDirectory path = true) :
    ∃ entry, Leads tree surroundings settings selection path entry ∧
      ∀ other : Path, other.rooted = true →
        ((∃ file ∈ entry.2, file.components = other.components) ↔
          Finds tree surroundings.workingDirectory selection path other.names) := by
  obtain ⟨entry, hfind⟩ := Option.isSome_iff_exists.mp hexists
  have hempty : path.isEmpty = false := by
    by_contra hempty
    rw [Bool.not_eq_false] at hempty
    simp [FileTree.find?, FileTree.locate, hempty] at hfind
  obtain ⟨absolute, habsolute, hrooted, habsoluteDescends, hnames, hends⟩ :=
    Path.exists_absolute? hempty hdescends (FileTree.isProperName_of_at? hworking)
  cases entry with
  | file bytes =>
    have hfile : tree.isFile surroundings.workingDirectory path = true := by
      simp [FileTree.isFile, hfind, FileEntry.bytes?]
    have hnot : tree.isDirectory surroundings.workingDirectory path = false := by
      simp [FileTree.isDirectory, hfind]
    obtain ⟨hpathEnds, hbytes⟩ := (FileTree.isFile_iff hworking hdescends).mp hfile
    have hcollect : collectFrom tree surroundings settings selection absolute =
        .ok (absolute.parent?.getD .empty, [absolute]) :=
      (collectFrom_eq_ok_iff hworking hrooted habsoluteDescends).mpr
        (Or.inl ⟨⟨hends hpathEnds, hnames ▸ hbytes⟩, rfl, rfl⟩)
    refine ⟨_, ⟨absolute, habsolute, hcollect⟩, fun other hother => ?_⟩
    simp [Finds, hfile, hnot, Path.components_eq_iff hrooted hother, hnames]
  | directory =>
    have hdirectory : tree.isDirectory surroundings.workingDirectory path = true := by
      simp [FileTree.isDirectory, hfind]
    have hnot : tree.isFile surroundings.workingDirectory path = false := by
      simp [FileTree.isFile, hfind, FileEntry.bytes?]
    have hat : tree.at? absolute.names = some .directory := by
      obtain ⟨location, hlocate, hat⟩ := FileTree.isDirectory_iff_locate.mp hdirectory
      rwa [hnames, ← FileTree.eq_place_of_locate hworking hdescends hlocate]
    have hfiles : collectFrom tree surroundings settings selection absolute =
        .ok (absolute, ((tree.filesBelow absolute.names).map fun names =>
          names.foldl Path.child absolute).filter (selection.selects absolute)) := by
      refine (collectFrom_eq_ok_iff hworking hrooted habsoluteDescends).mpr
        (Or.inr ⟨hat, rfl, tree.filesBelow absolute.names, ?_, rfl⟩)
      rw [hignore, FileTree.walk_eq_filesBelow]
    refine ⟨_, ⟨absolute, habsolute, hfiles⟩, fun other hother => ?_⟩
    rw [exists_selected_iff hrooted hother hat]
    simp [Finds, hdirectory, hnot, hnames]

/-- **Collecting is exact.** Paths without steps upwards that are there, from which no ignore files
keep anything, lead to documents in strictly increasing order, whatever texts the patterns match;
they are collected when the patterns are those of the settings. A file is one of them exactly if it
is given itself, whatever the patterns say, or is found below some given directory: a pattern to
exclude that keeps it out below one directory does not keep it out where it is given or found
otherwise. -/
theorem collect_exact (hworking : tree.at? surroundings.workingDirectory = some .directory)
    (selection : Selection) (hignore : settings.respectIgnoreFiles = false)
    (hpaths : ∀ path ∈ paths,
      path.Descends ∧ tree.exists? surroundings.workingDirectory path = true) :
    ∃ documents, collectSelected tree surroundings settings selection paths = .ok documents ∧
      (Selection.ofSettings settings = .ok selection →
        collect tree surroundings settings paths = .ok documents) ∧
      (documents.Pairwise fun first second => first.path.precedes second.path = true) ∧
      ∀ path : Path, path.rooted = true →
        ((∃ document ∈ documents, document.path.sameAs path = true) ↔ ∃ given ∈ paths,
          Finds tree surroundings.workingDirectory selection given path.names) := by
  have hleads : ∀ path ∈ paths, ∃ entry,
      Leads tree surroundings settings selection path entry ∧
        ∀ other : Path, other.rooted = true →
          ((∃ file ∈ entry.2, file.components = other.components) ↔
            Finds tree surroundings.workingDirectory selection path other.names) :=
    fun path hpath => exists_leads_of_exists hworking hignore (hpaths path hpath).1
      (hpaths path hpath).2
  obtain ⟨found, hfound⟩ := exists_found fun path hpath => (hleads path hpath).imp fun _ => And.left
  have hselected := collectSelected_eq_ok_iff.mpr
    ⟨found, collectFromAll_eq_ok_iff.mpr hfound, rfl⟩
  refine ⟨_, hselected, fun hselection =>
    collect_eq_ok_iff_selected.mpr ⟨selection, hselection, hselected⟩, ?_, ?_⟩
  · exact List.pairwise_map.mpr (Path.pairwise_dropRepeats (Path.pairwise_inOrder _))
  · intro path hrooted
    have hcollected : (∃ document ∈ (Path.dropRepeats (Path.inOrder (found.flatMap Prod.snd))).map
          fun file => (⟨rootOf found, file⟩ : MenuDocument), document.path.sameAs path = true) ↔
        ∃ file ∈ found.flatMap Prod.snd, file.components = path.components := by
      rw [← Path.mem_map_components_dropRepeats]
      simp [Path.sameAs]
    rw [hcollected]
    constructor
    · rintro ⟨file, hfile, hcomponents⟩
      obtain ⟨entry, hentry, hmem⟩ := List.mem_flatMap.mp hfile
      obtain ⟨given, hgiven, hlead⟩ := (mem_found_iff hfound).mp hentry
      obtain ⟨other, hother, hfiles⟩ := hleads given hgiven
      obtain rfl := hlead.unique hother
      exact ⟨given, hgiven, (hfiles path hrooted).mp ⟨file, hmem, hcomponents⟩⟩
    · rintro ⟨given, hgiven, hunder⟩
      obtain ⟨entry, hlead, hfiles⟩ := hleads given hgiven
      obtain ⟨file, hmem, hcomponents⟩ := (hfiles path hrooted).mpr hunder
      exact ⟨file, List.mem_flatMap.mpr
        ⟨entry, (mem_found_iff hfound).mpr ⟨given, hgiven, hlead⟩, hmem⟩, hcomponents⟩

/-- A menu in a directory inside another one. -/
def nestedMenu : FileTree :=
  let tree := (FileTree.empty.put [] "a" .directory).put ["a"] "b" .directory
  tree.put ["a", "b"] "menu.selfml" (.file "(menu)".toUTF8)

/-- A pattern to exclude keeps a file out below one directory and not below another. -/
theorem collect_exact_nestedMenu :
    let settings : Settings := { includes := ["*.selfml"], excludes := ["b/*"] }
    let surroundings : Surroundings := ⟨[], {}⟩
    let menu := Path.ofText "/a/b/menu.selfml"
    (∃ documents, collect nestedMenu surroundings settings [Path.ofText "a"] = .ok documents ∧
        ¬∃ document ∈ documents, document.path.sameAs menu = true) ∧
      ∃ documents, collect nestedMenu surroundings settings [Path.ofText "a", Path.ofText "a/b"] =
          .ok documents ∧ ∃ document ∈ documents, document.path.sameAs menu = true := by
  intro settings surroundings menu
  have hpatterns : ((Selection.ofSettings settings).toOption.any fun selection =>
      selection.includes.any (· "menu.selfml") && !selection.excludes.any (· "menu.selfml") &&
        selection.excludes.any (· "b/menu.selfml")) = true := by decide +kernel
  obtain ⟨selection, hselection⟩ : ∃ selection, Selection.ofSettings settings = .ok selection := by
    cases h : Selection.ofSettings settings with
    | error => simp [h, Except.toOption] at hpatterns
    | ok selection => exact ⟨selection, rfl⟩
  simp only [hselection, Except.toOption, Option.any_some, Bool.and_eq_true, Bool.not_eq_true']
    at hpatterns
  obtain ⟨⟨hincluded, hkept⟩, hexcluded⟩ := hpatterns
  have hworking : nestedMenu.at? surroundings.workingDirectory = some .directory := by decide
  have hignore : settings.respectIgnoreFiles = false := rfl
  have hboth : ∀ path ∈ [Path.ofText "a", Path.ofText "a/b"],
      path.Descends ∧ nestedMenu.exists? surroundings.workingDirectory path = true := by
    decide +kernel
  have hone : ∀ path ∈ [Path.ofText "a"],
      path.Descends ∧ nestedMenu.exists? surroundings.workingDirectory path = true :=
    fun path hpath => hboth path (List.mem_cons.mpr (Or.inl (List.mem_singleton.mp hpath)))
  have hmenu : menu.names = ["a", "b", "menu.selfml"] := by decide +kernel
  constructor
  · obtain ⟨documents, -, hcollect, -, hexact⟩ := collect_exact hworking selection hignore hone
    refine ⟨documents, hcollect hselection, ?_⟩
    rw [hexact menu (by decide +kernel), hmenu]
    rintro ⟨given, hgiven, hfinds⟩
    obtain rfl := List.mem_singleton.mp hgiven
    rcases hfinds with ⟨hfile, -⟩ | ⟨-, -, names, hnames, -, -, -, hfree⟩
    · have hnot : nestedMenu.isFile surroundings.workingDirectory (Path.ofText "a") = false := by
        decide +kernel
      rw [hnot] at hfile
      cases hfile
    · have hplace : (Path.ofText "a").place surroundings.workingDirectory = ["a"] := by
        decide +kernel
      rw [hplace] at hnames
      obtain rfl : names = ["b", "menu.selfml"] := (List.cons.inj hnames).2.symm
      exact Bool.false_ne_true (hfree.symm.trans hexcluded)
  · obtain ⟨documents, -, hcollect, -, hexact⟩ := collect_exact hworking selection hignore hboth
    refine ⟨documents, hcollect hselection, (hexact menu (by decide +kernel)).mpr ?_⟩
    rw [hmenu]
    refine ⟨Path.ofText "a/b", by simp, Or.inr ⟨by decide +kernel, by decide +kernel,
      ["menu.selfml"], by decide +kernel, "menu.selfml", rfl, hincluded, hkept⟩⟩

end Menus
