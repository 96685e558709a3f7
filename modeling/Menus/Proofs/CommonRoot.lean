import Menus.Proofs.Collecting
import Menus.Proofs.FileFailures

/-!
# The common root

All documents that are collected share one root. It has the components that are first in every given
directory and in the parent of every given file, however these are spelled, and all of them, so that
it does not matter in which order paths are given or how often. Every document lies properly below
it, at a path that no other document has from there. So a backup has a place of its own in whatever
directory it goes.
-/

namespace Menus

/-! ### Documents below their root -/

/-- A document lies properly below its root, from where a path leads down to it. -/
structure MenuDocument.LiesBelow (document : MenuDocument) : Prop where
  rooted : document.path.rooted = true
  root_rooted : document.root.rooted = true
  strip_eq : document.path.strip? document.root = some document.relative
  relative_components :
    document.relative.components = document.relative.names.map Component.ofSegment
  names_eq : document.path.names = document.root.names ++ document.relative.names
  relative_ne_nil : document.relative.names ≠ []
  components_join : ∀ directory : Path, (directory.join document.relative).components =
    directory.components ++ document.relative.components

namespace MenuDocument

variable {document other : MenuDocument}

/-- A path that goes on from the names of a root lies below it. -/
theorem liesBelow_of_names {root path : Path} (hroot : root.rooted = true)
    (hpath : path.rooted = true) {others : List String} (hne : others ≠ [])
    (h : path.names = root.names ++ others) : (⟨root, path⟩ : MenuDocument).LiesBelow := by
  obtain ⟨relative, hstrip, hrooted, hnames, hhere, -, -⟩ := Path.exists_strip? hpath hroot h
  have hrelative : (⟨root, path⟩ : MenuDocument).relative = relative := by
    rw [MenuDocument.relative, hstrip, Option.getD_some]
  exact
    { rooted := hpath
      root_rooted := hroot
      strip_eq := by rw [hrelative, hstrip]
      relative_components := by
        rw [hrelative, Path.components_eq relative, hrooted, hhere]
        rfl
      names_eq := by rw [hrelative, hnames, h]
      relative_ne_nil := by rwa [hrelative, hnames]
      components_join := fun directory => by
        rw [hrelative, Path.components_join directory hrooted hhere] }

/-- The components of the root are first in those of the document, which has more. -/
theorem LiesBelow.root_prefix (h : document.LiesBelow) :
    document.root.components <+: document.path.components ∧
      document.root.components ≠ document.path.components := by
  rw [Path.components_prefix_iff h.rooted h.root_rooted, h.names_eq]
  refine ⟨List.prefix_append _ _, fun hsame => h.relative_ne_nil ?_⟩
  rw [Path.components_eq_iff h.root_rooted h.rooted, h.names_eq] at hsame
  exact List.self_eq_append_right.mp hsame

/-- Documents with the same path from the same root have the same path. -/
theorem LiesBelow.components_eq (h : document.LiesBelow) (hother : other.LiesBelow)
    (hroot : document.root = other.root)
    (hrelative : document.relative.components = other.relative.components) :
    document.path.components = other.path.components := by
  rw [h.relative_components, hother.relative_components] at hrelative
  rw [Path.components_of_rooted h.rooted, Path.components_of_rooted hother.rooted, h.names_eq,
    hother.names_eq, List.map_append, List.map_append, hroot, hrelative]

/-- A document below its root is never reported to lie outside of it. -/
theorem LiesBelow.ne_outsideRoot (h : document.LiesBelow) {tree after : FileTree}
    {workingDirectory : Location} {settings : Settings} {mode : RunMode} {error : RunError}
    (hprocess : process tree workingDirectory settings mode document = (.error error, after))
    (path : Path) : error ≠ .file path .outsideRoot := by
  rintro rfl
  rcases process_eq_error hprocess with ⟨_, _, hcause, htree⟩ | ⟨_, hcause⟩ | ⟨hstrip, -⟩
  · cases hcause
    cases FileError.isMet_sound.mp htree
  · cases hcause
  · rw [h.strip_eq] at hstrip
    cases hstrip

end MenuDocument

variable {tree : FileTree} {workingDirectory : Location} {surroundings : Surroundings}
  {settings : Settings} {selection : Selection} {paths others : List Path}
  {found again : List (Path × List Path)}

/-! ### Directories for the root -/

/-- The components that the root may have for an absolute path: all if it leads to a directory, and
those of its parent if it leads to a file. -/
def boundOf (tree : FileTree) (workingDirectory : Location) (path : Path) : List Component :=
  if tree.isFile workingDirectory path then path.components.dropLast else path.components

/-- What is found under a path lies properly below the directory for the root. -/
theorem Leads.below {path : Path} {entry : Path × List Path}
    (h : Leads tree surroundings settings selection path entry) :
    ∃ absolute, path.absolute? surroundings.path = some absolute ∧ entry.1.rooted = true ∧
      entry.1.components = boundOf tree surroundings.workingDirectory absolute ∧
      ∀ file ∈ entry.2, file.rooted = true ∧
        ∃ names, names ≠ [] ∧ file.names = entry.1.names ++ names := by
  obtain ⟨absolute, habsolute, hentry⟩ := h
  obtain ⟨base, files⟩ := entry
  have hrooted := Path.rooted_of_absolute? rfl habsolute
  refine ⟨absolute, habsolute, ?_⟩
  rcases collectFrom_eq_ok_iff_locate.mp hentry with
    ⟨hfile, hbase, rfl⟩ | ⟨location, found, hlocate, hdirectory, rfl, hfound, rfl⟩
  · have hne := (FileTree.endsInName_of_isFile hfile).names_ne_nil
    obtain ⟨parent, hparent, hparentRooted, hparentNames, -⟩ := Path.exists_parent? hne
    obtain rfl : parent = base := by simpa [hparent] using hbase
    refine ⟨hparentRooted.trans hrooted, ?_, ?_⟩
    · rw [boundOf, if_pos hfile, Path.components_of_rooted (hparentRooted.trans hrooted),
        Path.components_of_rooted hrooted, hparentNames,
        List.dropLast_cons_of_ne_nil (by simpa using hne), List.map_dropLast]
    · intro file hmem
      obtain rfl := List.mem_singleton.mp hmem
      refine ⟨hrooted, [file.names.getLast hne], by simp, ?_⟩
      rw [hparentNames, List.dropLast_append_getLast]
  · have hnot : tree.isFile surroundings.workingDirectory absolute = false := by
      simp [FileTree.isFile, FileTree.find?, hlocate, hdirectory, FileEntry.bytes?]
    refine ⟨hrooted, by rw [boundOf, hnot]; rfl, fun file hmem => ?_⟩
    obtain ⟨names, hnames, rfl⟩ := List.mem_map.mp (List.mem_filter.mp hmem).1
    have hbelow := FileTree.subset_filesBelow_of_walk hfound hnames
    obtain ⟨hfileRooted, hfileNames, -⟩ :=
      Path.foldl_child (FileTree.isProperName_of_mem_filesBelow hbelow) absolute
    refine ⟨hfileRooted.trans hrooted, names, ?_, hfileNames⟩
    rintro rfl
    have hbytes := FileTree.mem_filesBelow.mp hbelow
    rw [List.append_nil, FileTree.bytes?, hdirectory] at hbytes
    cases hbytes

/-! ### The root -/

/-- What was found under some paths, which is not nothing. -/
structure FoundUnder (tree : FileTree) (surroundings : Surroundings) (settings : Settings)
    (selection : Selection) (paths : List Path) (found : List (Path × List Path)) : Prop where
  leads : List.Forall₂ (Leads tree surroundings settings selection) paths found
  ne_nil : found ≠ []

namespace FoundUnder

/-- What some paths lead to is found under their common root. -/
theorem of_ne_nil (hne : paths ≠ [])
    (h : List.Forall₂ (Leads tree surroundings settings selection) paths found) :
    FoundUnder tree surroundings settings selection paths found := by
  refine ⟨h, ?_⟩
  rintro rfl
  exact hne (List.forall₂_nil_right_iff.mp h)

variable (h : FoundUnder tree surroundings settings selection paths found)

include h

/-- Every file that is found lies properly below the directory it was found from. -/
theorem below {entry : Path × List Path} (hentry : entry ∈ found) :
    entry.1.rooted = true ∧ ∀ file ∈ entry.2, file.rooted = true ∧
      ∃ names, names ≠ [] ∧ file.names = entry.1.names ++ names := by
  obtain ⟨path, -, hleads⟩ := (mem_found_iff h.leads).mp hentry
  obtain ⟨-, -, hrooted, -, hfiles⟩ := hleads.below
  exact ⟨hrooted, hfiles⟩

/-- The common root is an absolute path. -/
theorem root_rooted : (rootOf found).rooted = true :=
  (rootOf_spec h.ne_nil fun _ hentry => (h.below hentry).1).1

/-- The root has the components that are first in all directories for it. -/
theorem prefix_root_iff {components : List Component} :
    components <+: (rootOf found).components ↔
      ∀ entry ∈ found, components <+: entry.1.components := by
  obtain ⟨-, -, hnames⟩ := rootOf_spec h.ne_nil fun _ hentry => (h.below hentry).1
  constructor
  · intro hroot entry hentry
    refine hroot.trans ((Path.components_prefix_iff (h.below hentry).1 h.root_rooted).mpr ?_)
    exact (hnames _).mp List.prefix_rfl entry hentry
  · intro hall
    obtain ⟨first, hfirst⟩ := List.exists_mem_of_ne_nil _ h.ne_nil
    rw [Path.prefix_components_iff h.root_rooted]
    refine ((Path.prefix_components_iff (h.below hfirst).1).mp (hall first hfirst)).imp_right ?_
    rintro ⟨names, -, rfl⟩
    refine ⟨names, (hnames names).mpr fun entry hentry => ?_, rfl⟩
    rcases (Path.prefix_components_iff (h.below hentry).1).mp (hall entry hentry) with
      hnil | ⟨others, hothers, hsame⟩
    · cases hnil
    · rwa [List.map_injective_iff.mpr Path.ofSegment_injective (List.cons.inj hsame).2]

/-- The root has the components that are first in what each given path allows for. -/
theorem prefix_root_iff_boundOf {components : List Component} :
    components <+: (rootOf found).components ↔ ∀ path ∈ paths, ∃ absolute,
      path.absolute? surroundings.path = some absolute ∧
        components <+: boundOf tree surroundings.workingDirectory absolute := by
  rw [h.prefix_root_iff]
  constructor
  · intro hall path hpath
    obtain ⟨entry, hentry, hleads⟩ := exists_leads h.leads hpath
    obtain ⟨absolute, habsolute, -, hbound, -⟩ := hleads.below
    exact ⟨absolute, habsolute, hbound ▸ hall entry hentry⟩
  · intro hall entry hentry
    obtain ⟨path, hpath, hleads⟩ := (mem_found_iff h.leads).mp hentry
    obtain ⟨absolute, habsolute, -, hbound, -⟩ := hleads.below
    obtain ⟨_, hsame, hfirst⟩ := hall path hpath
    obtain rfl := Option.some.inj (habsolute.symm.trans hsame)
    exact hbound ▸ hfirst

/-- The same directories have the same root, in whatever order they are found and however often. -/
theorem components_root_eq (hagain : FoundUnder tree surroundings settings selection others again)
    (hmem : ∀ entry, entry ∈ again ↔ entry ∈ found) :
    (rootOf again).components = (rootOf found).components := by
  have hboth (components : List Component) : components <+: (rootOf again).components ↔
      components <+: (rootOf found).components := by
    rw [hagain.prefix_root_iff, h.prefix_root_iff]
    simp only [hmem]
  exact ((hboth _).mp List.prefix_rfl).eq_of_length_le ((hboth _).mpr List.prefix_rfl).length_le

/-- The same paths lead to the same, in another order or repeated. -/
theorem exists_again (hothers : ∀ path, path ∈ others ↔ path ∈ paths) :
    ∃ again, FoundUnder tree surroundings settings selection others again ∧
      ∀ entry, entry ∈ again ↔ entry ∈ found := by
  obtain ⟨again, hagain⟩ := exists_found fun path (hpath : path ∈ others) =>
    (exists_leads h.leads ((hothers path).mp hpath)).imp fun _ => And.right
  have hmem (entry : Path × List Path) : entry ∈ again ↔ entry ∈ found := by
    rw [mem_found_iff hagain, mem_found_iff h.leads]
    simp only [hothers]
  refine ⟨again, ⟨hagain, ?_⟩, hmem⟩
  rintro rfl
  obtain ⟨entry, hentry⟩ := List.exists_mem_of_ne_nil _ h.ne_nil
  exact List.not_mem_nil ((hmem entry).mpr hentry)

/-- What was found lies properly below the root. -/
theorem liesBelow {file : Path}
    (hfile : file ∈ Path.dropRepeats (Path.inOrder (found.flatMap Prod.snd))) :
    (⟨rootOf found, file⟩ : MenuDocument).LiesBelow := by
  obtain ⟨-, -, hshared⟩ := rootOf_spec h.ne_nil fun _ hentry => (h.below hentry).1
  obtain ⟨entry, hentry, hmem⟩ := exists_entry_of_mem hfile
  obtain ⟨hrooted, names, hnames, hbelow⟩ := (h.below hentry).2 file hmem
  obtain ⟨between, hbetween⟩ := (hshared _).mp List.prefix_rfl entry hentry
  have hsplit : file.names = (rootOf found).names ++ (between ++ names) := by
    rw [hbelow, ← hbetween, List.append_assoc]
  exact MenuDocument.liesBelow_of_names h.root_rooted hrooted (by simp [hnames]) hsplit

end FoundUnder

/-- **The common root.** All documents that paths lead to have one root, which has exactly those
components that are first in each given directory and in the parent of each given file. In another
order, or repeated, the paths lead to the same documents below the same root. Every document lies
properly below the root, so that none is reported to lie outside of it, and no two of them have the
same path from there or would be backed up at the same path. -/
theorem collect_common_root (hne : paths ≠ []) {documents : List MenuDocument}
    (h : collect tree surroundings settings paths = .ok documents) :
    (∃ root : Path, (∀ document ∈ documents, document.root = root) ∧
        ∀ components, components <+: root.components ↔ ∀ path ∈ paths, ∃ absolute,
          path.absolute? surroundings.path = some absolute ∧
            components <+: boundOf tree surroundings.workingDirectory absolute) ∧
      (∀ others : List Path, (∀ path, path ∈ others ↔ path ∈ paths) →
        ∃ again, collect tree surroundings settings others = .ok again ∧
          again.map (fun document => (document.root.components, document.path.components)) =
            documents.map fun document => (document.root.components, document.path.components)) ∧
      (∀ document ∈ documents,
        document.root.components <+: document.path.components ∧
          document.root.components ≠ document.path.components ∧
          document.path.strip? document.root = some document.relative ∧
          ∀ tree workingDirectory settings mode error after path,
            process tree workingDirectory settings mode document = (.error error, after) →
              error ≠ .file path .outsideRoot) ∧
      documents.Pairwise fun first second =>
        first.relative.components ≠ second.relative.components ∧
          ∀ directory : Path, (directory.join first.relative).components ≠
            (directory.join second.relative).components := by
  obtain ⟨selection, found, hselection, hleads, rfl⟩ := collect_eq_ok_iff.mp h
  have hfound := FoundUnder.of_ne_nil hne (collectFromAll_eq_ok_iff.mp hleads)
  refine ⟨⟨rootOf found, by simp, fun _ => hfound.prefix_root_iff_boundOf⟩, ?_, ?_, ?_⟩
  · intro others hothers
    obtain ⟨again, hagain, hmem⟩ := hfound.exists_again hothers
    refine ⟨_, collect_eq_ok_iff.mpr
      ⟨selection, again, hselection, collectFromAll_eq_ok_iff.mpr hagain.leads, rfl⟩, ?_⟩
    have hfiles : ∀ file, file ∈ again.flatMap Prod.snd ↔ file ∈ found.flatMap Prod.snd := by
      simp only [List.mem_flatMap, hmem, implies_true]
    have hshown (root : Path) (files : List Path) :
        (files.map fun file => (⟨root, file⟩ : MenuDocument)).map
            (fun document => (document.root.components, document.path.components)) =
          (files.map Path.components).map fun components => (root.components, components) := by
      rw [List.map_map, List.map_map]
      rfl
    rw [hshown, hshown, hfound.components_root_eq hagain hmem,
      Path.map_components_dropRepeats_eq hfiles]
  · intro document hdocument
    obtain ⟨file, hfile, rfl⟩ := List.mem_map.mp hdocument
    have hbelow := hfound.liesBelow hfile
    exact ⟨hbelow.root_prefix.1, hbelow.root_prefix.2, hbelow.strip_eq,
      fun _ _ _ _ _ _ path hprocess => hbelow.ne_outsideRoot hprocess path⟩
  · refine List.pairwise_map.mpr ?_
    refine (Path.pairwise_dropRepeats (Path.pairwise_inOrder _)).imp_of_mem ?_
    intro first second hfirst hsecond hless
    have hdiffer : (⟨rootOf found, first⟩ : MenuDocument).relative.components ≠
        (⟨rootOf found, second⟩ : MenuDocument).relative.components := by
      intro hsame
      have hcomponents :=
        (hfound.liesBelow hfirst).components_eq (hfound.liesBelow hsecond) rfl hsame
      rw [Path.precedes, hcomponents, Path.precedesBy_irrefl] at hless
      cases hless
    refine ⟨hdiffer, fun directory hsame => hdiffer ?_⟩
    rw [(hfound.liesBelow hfirst).components_join,
      (hfound.liesBelow hsecond).components_join] at hsame
    exact List.append_cancel_left hsame

/-- Two directories with a menu of the same name. -/
def equallyNamed : FileTree :=
  let tree := (FileTree.empty.put [] "a" .directory).put [] "b" .directory
  (tree.put ["a"] "menu.selfml" (.file "(menu)".toUTF8)).put ["b"] "menu.selfml"
    (.file "(menu)".toUTF8)

/-- A file is given by a step upwards from a directory that is given as well. -/
theorem collect_common_root_equallyNamed :
    let paths := [Path.ofText "b/../a/menu.selfml", Path.ofText "b"]
    let documents : List MenuDocument :=
      [⟨⟨true, ["b"]⟩, Path.ofText "/b/../a/menu.selfml"⟩,
        ⟨⟨true, ["b"]⟩, Path.ofText "/b/menu.selfml"⟩]
    collect equallyNamed ⟨[], {}⟩ {} paths = .ok documents ∧
      (∃ again,
        collect equallyNamed ⟨[], {}⟩ {} (Path.ofText "b" :: paths) = .ok again ∧
          again.map (fun document => (document.root.components, document.path.components)) =
            documents.map fun document => (document.root.components, document.path.components)) ∧
      documents.Pairwise fun first second =>
        first.relative.components ≠ second.relative.components ∧
          ∀ directory : Path, (directory.join first.relative).components ≠
            (directory.join second.relative).components := by
  intro paths documents
  have hcollect : collect equallyNamed ⟨[], {}⟩ {} paths = .ok documents :=
    collect_of_found_in_order [(⟨true, ["b", "..", "a"]⟩, [Path.ofText "/b/../a/menu.selfml"]),
      (⟨true, ["b"]⟩, [Path.ofText "/b/menu.selfml"])] (by decide +kernel) (by decide +kernel)
  obtain ⟨-, hagain, -, hpairwise⟩ := collect_common_root (by decide) hcollect
  refine ⟨hcollect, hagain _ fun path => ?_, hpairwise⟩
  rw [List.mem_cons, or_iff_right_of_imp]
  rintro rfl
  decide

end Menus
