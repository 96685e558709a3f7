import Menus.Proofs.Places

/-!
# The components of paths

The components of a rooted path are the top and its names, so that questions about components are
questions about names: which paths are equal, which one another path starts with, what is left of it
behind a base, and how far two paths go the same way.
-/

namespace Menus

namespace Path

/-- Names that do not lead upwards are components of their own. -/
theorem map_ofSegment {names : List String} (hnames : ∀ name ∈ names, name ≠ "..") :
    names.map Component.ofSegment = names.map Component.name := by
  apply List.map_congr_left
  intro name hname
  simp [Component.ofSegment, hnames name hname]

/-- The components of a path are where it starts and its names. -/
theorem components_eq (path : Path) : path.components =
    (if path.rooted then [.top] else if path.startsHere then [.here] else []) ++
      path.names.map Component.ofSegment := rfl

/-- The components of a rooted path are the top and its names. -/
theorem components_of_rooted {path : Path} (hrooted : path.rooted = true) :
    path.components = .top :: path.names.map Component.ofSegment := by
  rw [components_eq, if_pos hrooted, List.singleton_append]

/-- Different names are different components. -/
theorem ofSegment_injective : Function.Injective Component.ofSegment := by
  intro first second h
  by_cases hfirst : first = ".." <;> by_cases hsecond : second = ".." <;>
    simp_all [Component.ofSegment]

/-- Rooted paths have the same components exactly if they go through the same names. -/
theorem components_eq_iff {path other : Path} (hrooted : path.rooted = true)
    (hother : other.rooted = true) :
    path.components = other.components ↔ path.names = other.names := by
  rw [components_of_rooted hrooted, components_of_rooted hother, List.cons.injEq,
    (List.map_injective_iff.mpr ofSegment_injective).eq_iff]
  exact and_iff_right rfl

/-- Of rooted paths, the components of one are the first of another exactly if its names are. -/
theorem components_prefix_iff {path base : Path} (hpath : path.rooted = true)
    (hbase : base.rooted = true) :
    base.components <+: path.components ↔ base.names <+: path.names := by
  rw [components_of_rooted hpath, components_of_rooted hbase, List.cons_prefix_cons]
  constructor
  · rintro ⟨-, h⟩
    obtain ⟨names, hnames, hmap⟩ := List.prefix_map_iff.mp h
    rwa [List.map_injective_iff.mpr ofSegment_injective hmap]
  · exact fun h => ⟨rfl, h.map _⟩

/-- What is first in the components of a rooted path is nothing, or the top and first names. -/
theorem prefix_components_iff {path : Path} (hrooted : path.rooted = true)
    {components : List Component} :
    components <+: path.components ↔ components = [] ∨
      ∃ names, names <+: path.names ∧ components = .top :: names.map Component.ofSegment := by
  rw [components_of_rooted hrooted]
  cases components with
  | nil => simp
  | cons first others =>
    rw [List.cons_prefix_cons, List.prefix_map_iff]
    constructor
    · rintro ⟨rfl, names, hnames, rfl⟩
      exact Or.inr ⟨names, hnames, rfl⟩
    · rintro (hnil | ⟨names, hnames, heq⟩)
      · cases hnil
      · obtain ⟨rfl, rfl⟩ := List.cons.inj heq
        exact ⟨rfl, names, hnames, rfl⟩

/-- A path that is taken from a directory on starts as the directory does. -/
theorem startsHere_join (directory : Path) {path : Path} (hrooted : path.rooted = false)
    (hhere : path.startsHere = false) :
    (directory.join path).startsHere = directory.startsHere := by
  have hafter : (if path.isEmpty then [""] else path.segments).head? ≠ some "." := by
    split
    · simp
    · simpa [startsHere, hrooted] using hhere
  rcases directory with ⟨rooted, _ | ⟨first, _ | ⟨second, others⟩⟩⟩
  · simp [join, hrooted, startsHere, hafter]
  · by_cases hfirst : first = ""
    · simp [join, hrooted, startsHere, hafter, hfirst]
    · simp [join, hrooted, startsHere, hfirst]
  · simp only [join, hrooted, startsHere, Bool.false_eq_true, if_false]
    split <;> simp

/-- A path that is taken from a directory on has the components of the directory first. -/
theorem components_join (directory : Path) {path : Path} (hrooted : path.rooted = false)
    (hhere : path.startsHere = false) :
    (directory.join path).components = directory.components ++ path.components := by
  rw [components_eq, rooted_join directory hrooted, startsHere_join directory hrooted hhere,
    names_join directory hrooted, List.map_append, ← List.append_assoc, ← components_eq]
  rw [components_eq path, hrooted, hhere]
  rfl

/-- One absolute path starts with another exactly if its names do. -/
theorem startsWith_iff {path base : Path} (hpath : path.rooted = true)
    (hbase : base.rooted = true) : path.startsWith base = true ↔ base.names <+: path.names := by
  rw [startsWith, List.isPrefixOf_iff_prefix, components_prefix_iff hpath hbase]

/-- A path whose last name leads down ends in that name. -/
theorem fileName?_eq {path : Path} {name : String} (h : path.names.getLast? = some name)
    (hup : name ≠ "..") : path.fileName? = some name := by
  simp [fileName?, components_eq, List.getLast?_append, h, Component.ofSegment, hup]

/-! ### Taking a base off the front -/

/-- Behind its idle segments, a path starts with its first name. -/
theorem exists_dropWhile_eq_cons {segments names : List String} {name : String}
    (h : namesOf segments = name :: names) :
    ∃ kept, segments.dropWhile isIdleSegment = name :: kept ∧ namesOf kept = names := by
  have hnames := namesOf_dropWhile segments
  cases hkept : segments.dropWhile isIdleSegment with
  | nil =>
    rw [hkept, h] at hnames
    cases hnames
  | cons segment kept =>
    have hsegment : isIdleSegment segment = false := by
      have hhead := List.head_dropWhile_not isIdleSegment (l := segments) (by simp [hkept])
      simpa [hkept] using hhead
    rw [hkept, namesOf_cons hsegment, h, List.cons.injEq] at hnames
    obtain ⟨rfl, hrest⟩ := hnames
    exact ⟨kept, rfl, hrest⟩

/-- Segments whose names start with some others have a rest after these, which starts with a
name. -/
theorem exists_stripSteps {names others : List String} {segments : List String}
    (h : namesOf segments = names ++ others) :
    ∃ rest, stripSteps (names.map Component.ofSegment) segments = some rest ∧
      namesOf rest = others ∧ (∀ segment ∈ rest.head?, isIdleSegment segment = false) ∧
      ∀ segment ∈ rest, segment ∈ segments := by
  induction names generalizing segments with
  | nil =>
    refine ⟨segments.dropWhile isIdleSegment, rfl, ?_, ?_, ?_⟩
    · rw [namesOf_dropWhile, h, List.nil_append]
    · intro segment hsegment
      have hhead := List.head?_dropWhile_not isIdleSegment segments
      rw [Option.mem_def.mp hsegment] at hhead
      simpa using hhead
    · exact fun segment hsegment => (List.dropWhile_sublist _).subset hsegment
  | cons name names ih =>
    obtain ⟨kept, hkept, hrest⟩ := exists_dropWhile_eq_cons h
    have hsubset := (List.dropWhile_sublist (l := segments) isIdleSegment).subset
    rw [hkept] at hsubset
    obtain ⟨rest, hstrip, hothers, hhead, hmem⟩ := ih hrest
    refine ⟨rest, ?_, hothers, hhead, fun other hother => ?_⟩
    · simp [stripSteps, hkept, hstrip]
    · exact hsubset (List.mem_cons_of_mem _ (hmem other hother))

/-- What is left of a path after a base that it is below. -/
theorem exists_strip? {path base : Path} (hpath : path.rooted = true) (hbase : base.rooted = true)
    {others : List String} (h : path.names = base.names ++ others) :
    ∃ relative, path.strip? base = some relative ∧ relative.rooted = false ∧
      relative.names = others ∧ relative.startsHere = false ∧
      (path.Descends → relative.Descends) ∧ (others ≠ [] → relative.EndsInName) := by
  obtain ⟨rest, hstrip, hothers, hhead, hmem⟩ := exists_stripSteps h
  refine ⟨trimEnd ⟨false, rest⟩, ?_, rooted_trimEnd _, ?_, ?_, ?_, ?_⟩
  · simp [strip?, components_of_rooted hbase, hpath, hstrip]
  · rw [names_trimEnd, ← hothers, names]
  · rw [startsHere_trimEnd]
    by_contra hhere
    obtain ⟨-, -, _, rfl⟩ := exists_of_startsHere (Bool.not_eq_false _ ▸ hhere)
    simp [isIdleSegment] at hhead
  · intro hdescends
    apply Descends.trimEnd
    exact fun hup => hdescends (hmem _ hup)
  · intro hne
    apply endsInName_trimEnd
    rwa [← hothers] at hne

/-- Segments after some that write other names are left when these are taken off. -/
theorem stripSteps_append {others front names : List String} (hfront : namesOf front = others)
    (hnames : ∀ name ∈ names.head?, isIdleSegment name = false) :
    stripSteps (others.map Component.ofSegment) (front ++ names) = some names := by
  induction others generalizing front with
  | nil =>
    have hkept : names.dropWhile isIdleSegment = names := by
      cases names with
      | nil => rfl
      | cons name names => exact List.dropWhile_cons_of_neg (by simp [hnames name rfl])
    rw [List.map_nil, stripSteps,
      List.dropWhile_append_of_pos (namesOf_eq_nil_iff.mp hfront), hkept]
  | cons other others ih =>
    obtain ⟨kept, hkept, hrest⟩ := exists_dropWhile_eq_cons hfront
    simp [stripSteps, List.dropWhile_append, hkept, ih hrest]

/-- What is taken from a directory on is left after the directory. -/
theorem strip?_join {directory : Path} (hrooted : directory.rooted = true) {names : List String}
    (hnames : ∀ name ∈ names, IsProperName name) (hne : names ≠ []) :
    (directory.join ⟨false, names⟩).strip? directory = some ⟨false, names⟩ := by
  obtain ⟨-, hself, hends⟩ := names_of_properNames hnames
  obtain ⟨before, after, hjoin, hbefore, -, -, hafter | ⟨-, hempty⟩⟩ :=
    join_cases directory (show (⟨false, names⟩ : Path).rooted = false from rfl)
  · have hhead : ∀ name ∈ List.head? names, isIdleSegment name = false :=
      fun name hname => (hnames name (List.mem_of_mem_head? hname)).1
    rw [hjoin, hafter, strip?, components_of_rooted hrooted]
    simp [hrooted, stripSteps_append hbefore hhead, (hends hne).trimEnd_eq_self]
  · rw [(hends hne).isEmpty_eq_false] at hempty
    cases hempty

/-! ### Common ancestors -/

/-- Its ancestors start with a path itself. -/
theorem exists_ancestors_eq (path : Path) : ∃ others, path.ancestors = path :: others := by
  rw [ancestors]
  cases path.segments.length with
  | zero => exact ⟨[], rfl⟩
  | succ count => cases hparent : path.parent? <;> simp [ancestorsUpTo, hparent]

/-- The first parent of a path that another path is below goes through the names that are first in
both. -/
theorem exists_find?_ancestorsUpTo {path other : Path} (hrooted : path.rooted = true)
    (hother : other.rooted = true) {count : Nat} (hcount : path.names.length ≤ count) :
    ∃ common, (ancestorsUpTo count path).find? other.startsWith = some common ∧
      common.rooted = true ∧ (path.Descends → common.Descends) ∧
      ∀ names, names <+: common.names ↔ names <+: path.names ∧ names <+: other.names := by
  induction count generalizing path with
  | zero =>
    have hstarts : path.names <+: other.names := by
      rw [List.length_eq_zero_iff.mp (Nat.le_zero.mp hcount)]
      exact List.nil_prefix
    exact ⟨path, by simp [ancestorsUpTo, (startsWith_iff hother hrooted).mpr hstarts], hrooted, id,
      fun names => ⟨fun hnames => ⟨hnames, hnames.trans hstarts⟩, And.left⟩⟩
  | succ count ih =>
    by_cases hstarts : path.names <+: other.names
    · have hfound := (startsWith_iff hother hrooted).mpr hstarts
      exact ⟨path, by cases hparent : path.parent? <;> simp [ancestorsUpTo, hparent, hfound],
        hrooted, id, fun names => ⟨fun hnames => ⟨hnames, hnames.trans hstarts⟩, And.left⟩⟩
    · have hnot : other.startsWith path = false := by
        rwa [← Bool.not_eq_true, startsWith_iff hother hrooted]
      have hne : path.names ≠ [] := fun hnil => hstarts (hnil ▸ List.nil_prefix)
      obtain ⟨parent, hparent, hparentRooted, hparentNames, hparentDescends⟩ := exists_parent? hne
      have hfewer : parent.names.length ≤ count := by
        rw [hparentNames, List.length_dropLast]
        omega
      obtain ⟨common, hcommon, hcommonRooted, hdescends, hshared⟩ :=
        ih (hparentRooted.trans hrooted) hfewer
      refine ⟨common, by simp [ancestorsUpTo, hparent, hnot, hcommon], hcommonRooted,
        fun hpath => hdescends (hparentDescends hpath), fun names => ?_⟩
      rw [hshared, hparentNames]
      refine and_congr_left fun hnames => ⟨fun h => h.trans (List.dropLast_prefix _), fun h => ?_⟩
      rw [← List.dropLast_append_getLast hne, List.prefix_concat_iff] at h
      refine h.resolve_left fun hall => hstarts ?_
      rwa [← List.dropLast_append_getLast hne, ← hall]

/-- The deepest ancestor that another path starts with has the names that both share. -/
theorem exists_find?_ancestors {path other : Path} (hrooted : path.rooted = true)
    (hother : other.rooted = true) :
    ∃ common, path.ancestors.find? other.startsWith = some common ∧ common.rooted = true ∧
      (path.Descends → common.Descends) ∧
      ∀ names, names <+: common.names ↔ names <+: path.names ∧ names <+: other.names :=
  exists_find?_ancestorsUpTo hrooted hother (List.length_filter_le _ _)

end Path

end Menus
