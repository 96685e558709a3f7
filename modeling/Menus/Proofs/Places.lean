import Menus.FileTree
import Mathlib.Data.List.Infix
import Mathlib.Data.List.TakeWhile

/-!
# The places of paths

A path without steps upwards has a place: the names that its segments write, from the top or from a
working directory on. Joining paths, going to a parent and taking a base off the front are
operations on these names, however the paths are spelled.
-/

namespace Menus

/-- The segments that lead somewhere. -/
def namesOf (segments : List String) : List String := segments.filter (!isIdleSegment ·)

/-- No segments have no names. -/
@[simp]
theorem namesOf_nil : namesOf [] = [] := rfl

/-- The names of some segments and others come one after the other. -/
@[simp]
theorem namesOf_append (first second : List String) :
    namesOf (first ++ second) = namesOf first ++ namesOf second := List.filter_append ..

/-- An idle segment is no name. -/
theorem namesOf_cons_idle {segment : String} (hidle : isIdleSegment segment = true)
    (segments : List String) : namesOf (segment :: segments) = namesOf segments := by
  simp [namesOf, hidle]

/-- Every other segment is one. -/
theorem namesOf_cons {segment : String} (hname : isIdleSegment segment = false)
    (segments : List String) : namesOf (segment :: segments) = segment :: namesOf segments := by
  simp [namesOf, hname]

/-- A single segment that is not idle is the only name. -/
theorem namesOf_singleton {segment : String} (hname : isIdleSegment segment = false) :
    namesOf [segment] = [segment] := namesOf_cons hname []

/-- A name has a text. -/
theorem ne_empty_of_name {segment : String} (hname : isIdleSegment segment = false) :
    segment ≠ "" := by
  rintro rfl
  cases hname

/-- Names are their own names. -/
theorem namesOf_eq_self {names : List String}
    (hnames : ∀ name ∈ names, isIdleSegment name = false) : namesOf names = names := by
  rw [namesOf, List.filter_eq_self]
  intro name hname
  simp [hnames name hname]

/-- Idle segments at the front can go without changing the names. -/
theorem namesOf_dropWhile (segments : List String) :
    namesOf (segments.dropWhile isIdleSegment) = namesOf segments := by
  induction segments with
  | nil => rfl
  | cons segment segments ih =>
    cases hidle : isIdleSegment segment with
    | true => rw [List.dropWhile_cons_of_pos hidle, ih, namesOf_cons_idle hidle]
    | false => rw [List.dropWhile_cons_of_neg (by simp [hidle])]

/-- Segments have no names exactly if they are all idle. -/
theorem namesOf_eq_nil_iff {segments : List String} :
    namesOf segments = [] ↔ ∀ segment ∈ segments, isIdleSegment segment = true := by
  simp [namesOf, List.filter_eq_nil_iff]

namespace Path

/-- The names that a path goes through. -/
def names (path : Path) : List String := namesOf path.segments

/-- No segment of a path leads upwards. -/
def Descends (path : Path) : Prop := ".." ∉ path.segments

instance (path : Path) : Decidable path.Descends := inferInstanceAs (Decidable (¬_))

/-- A path ends in a name, not in a slash or a dot. -/
def EndsInName (path : Path) : Prop :=
  ∃ above name, path.segments = above ++ [name] ∧ isIdleSegment name = false

/-- Where a path without steps upwards leads, if it leads anywhere. -/
def place (path : Path) (workingDirectory : Location) : Location :=
  (if path.rooted then [] else workingDirectory) ++ path.names

/-- An absolute path has its place at its names. -/
theorem place_of_rooted {path : Path} (hrooted : path.rooted = true) (workingDirectory : Location) :
    path.place workingDirectory = path.names := by
  simp [place, hrooted]

/-- The place of a path with names has a last name. -/
theorem names_eq_nil_or_eq_concat (path : Path) (workingDirectory : Location) :
    path.names = [] ∨ ∃ directory name, path.place workingDirectory = directory ++ [name] := by
  rcases List.eq_nil_or_concat path.names with h | ⟨names, name, h⟩
  · exact Or.inl h
  · refine Or.inr ⟨(if path.rooted then [] else workingDirectory) ++ names, name, ?_⟩
    rw [place, h, List.concat_eq_append, List.append_assoc]

/-- No name of a path without steps upwards is a step upwards. -/
theorem Descends.ne_up {path : Path} (h : path.Descends) : ∀ name ∈ path.names, name ≠ ".." := by
  intro name hname hup
  subst hup
  exact h (List.mem_filter.mp hname).1

/-- The names of a path without steps upwards lead where they say. -/
theorem Descends.isProperName {path : Path} (h : path.Descends) :
    ∀ name ∈ path.names, IsProperName name := fun name hname =>
  ⟨by simpa using (List.mem_filter.mp hname).2, h.ne_up name hname⟩

/-- A path that is written as some names goes through them. -/
theorem names_of_properNames {names : List String} (hnames : ∀ name ∈ names, IsProperName name) :
    (⟨false, names⟩ : Path).Descends ∧ (⟨false, names⟩ : Path).names = names ∧
      (names ≠ [] → (⟨false, names⟩ : Path).EndsInName) := by
  refine ⟨fun hup => (hnames _ hup).2 rfl, namesOf_eq_self fun name hname => (hnames name hname).1,
    fun hne => ?_⟩
  rcases List.eq_nil_or_concat names with hnil | ⟨above, name, rfl⟩
  · exact absurd hnil hne
  · exact ⟨above, name, List.concat_eq_append, (hnames name (by simp)).1⟩

/-- Such a path does not start with a lone dot. -/
theorem startsHere_of_properNames {names : List String}
    (hnames : ∀ name ∈ names, IsProperName name) :
    (⟨false, names⟩ : Path).startsHere = false := by
  cases names with
  | nil => rfl
  | cons name names =>
    have hdot : name ≠ "." := by
      rintro rfl
      exact absurd (hnames "." (by simp)).1 (by decide)
    simp [startsHere, hdot]

/-- A path that ends in a name has a text. -/
theorem EndsInName.isEmpty_eq_false {path : Path} (h : path.EndsInName) : path.isEmpty = false := by
  obtain ⟨above, name, hsegments, hname⟩ := h
  cases above with
  | nil => simp [isEmpty, hsegments, ne_empty_of_name hname]
  | cons segment above => cases above <;> simp [isEmpty, hsegments]

/-- A path that does not end in a slash is the same without slashes at its end. -/
theorem dropSlashes_of_concat {path : Path} {above : List String} {name : String}
    (hsegments : path.segments = above ++ [name]) (hname : name ≠ "") :
    path.dropSlashes = path := by
  have hkept : (path.segments.reverse.dropWhile (· = "")).reverse = path.segments := by
    rw [hsegments, List.reverse_append, List.reverse_singleton, List.singleton_append,
      List.dropWhile_cons_of_neg (by simpa using hname)]
    simp
  rw [dropSlashes, hkept]

/-- So is a path that ends in a name. -/
theorem EndsInName.dropSlashes_eq_self {path : Path} (h : path.EndsInName) :
    path.dropSlashes = path := by
  obtain ⟨above, name, hsegments, hname⟩ := h
  exact dropSlashes_of_concat hsegments (ne_empty_of_name hname)

/-- Only the empty path has a slash to drop that it does not end in. -/
theorem dropSlashes_eq_self {path : Path} (hslash : path.endsInSlash = false)
    (hempty : path.dropSlashes.isEmpty = false) : path.dropSlashes = path := by
  rcases List.eq_nil_or_concat path.segments with hnil | ⟨above, name, hsegments⟩
  · cases path
    simp_all [dropSlashes]
  · rw [List.concat_eq_append] at hsegments
    refine dropSlashes_of_concat hsegments ?_
    rintro rfl
    have hrooted : path.rooted = false := by
      by_contra hrooted
      simp [endsInSlash, hsegments, hrooted] at hslash
    obtain rfl : above = [] := by
      simpa [endsInSlash, hsegments, hrooted] using hslash
    simp [dropSlashes, isEmpty, hsegments, hrooted] at hempty

/-- A path that ends in a name does not end in a slash. -/
theorem EndsInName.endsInSlash_eq_false {path : Path} (h : path.EndsInName) :
    path.endsInSlash = false := by
  obtain ⟨above, name, hsegments, hname⟩ := h
  simp [endsInSlash, hsegments, ne_empty_of_name hname]

/-- A path that starts with a lone dot. -/
theorem exists_of_startsHere {path : Path} (h : path.startsHere = true) :
    path.rooted = false ∧ path.isEmpty = false ∧ ∃ segments, path.segments = "." :: segments := by
  obtain ⟨hrooted, hhead⟩ : path.rooted = false ∧ path.segments.head? = some "." := by
    simpa [startsHere] using h
  obtain ⟨segments, hsegments⟩ := List.head?_eq_some_iff.mp hhead
  exact ⟨hrooted, by simp [isEmpty, hsegments], segments, hsegments⟩

/-! ### Trimming and parents -/

/-- Trimming takes off the segments after the last name. Without a name there is nothing left but
the dot that a path may start with. -/
theorem trimEnd_cases (path : Path) :
    (path.names = [] ∧ path.trimEnd =
      { path with segments := if path.startsHere then ["."] else [] }) ∨
    ∃ above name after, path.segments = above ++ name :: after ∧ isIdleSegment name = false ∧
      namesOf after = [] ∧ path.trimEnd = { path with segments := above ++ [name] } := by
  have hsplit := List.takeWhile_append_dropWhile (p := isIdleSegment) (l := path.segments.reverse)
  have hidle := List.all_takeWhile (p := isIdleSegment) (l := path.segments.reverse)
  cases hkept : path.segments.reverse.dropWhile isIdleSegment with
  | nil =>
    left
    have hall := List.dropWhile_eq_nil_iff.mp hkept
    constructor
    · exact namesOf_eq_nil_iff.mpr fun segment hsegment => hall segment (by simpa using hsegment)
    · simp [trimEnd, hkept]
  | cons name above =>
    right
    have hname : isIdleSegment name = false := by
      have hhead := List.head_dropWhile_not isIdleSegment (l := path.segments.reverse)
        (by simp [hkept])
      simpa [hkept] using hhead
    refine ⟨above.reverse, name, (path.segments.reverse.takeWhile isIdleSegment).reverse, ?_, hname,
      ?_, ?_⟩
    · rw [hkept] at hsplit
      simpa using (congrArg List.reverse hsplit).symm
    · rw [namesOf_eq_nil_iff]
      intro segment hsegment
      exact List.all_eq_true.mp hidle segment (by simpa using hsegment)
    · cases above <;> simp [trimEnd, hkept]

/-- Trimming the end of a path keeps it absolute or relative. -/
@[simp]
theorem rooted_trimEnd (path : Path) : path.trimEnd.rooted = path.rooted := by
  rcases trimEnd_cases path with ⟨-, h⟩ | ⟨above, name, after, -, -, -, h⟩ <;> rw [h]

/-- Trimming the end of a path keeps its names. -/
@[simp]
theorem names_trimEnd (path : Path) : path.trimEnd.names = path.names := by
  rcases trimEnd_cases path with ⟨hnames, h⟩ | ⟨above, name, after, hsegments, hname, hafter, h⟩
  · rw [hnames, h]
    by_cases hhere : path.startsHere = true <;> simp [hhere, names, namesOf, isIdleSegment]
  · rw [h]
    simp [names, hsegments, namesOf_cons hname, hafter]

/-- Trimming the end of a path keeps a dot at its start. -/
@[simp]
theorem startsHere_trimEnd (path : Path) : path.trimEnd.startsHere = path.startsHere := by
  rcases trimEnd_cases path with ⟨-, htrim⟩ | ⟨above, name, after, hsegments, -, -, htrim⟩
  · rw [htrim]
    cases hhere : path.startsHere with
    | true => simpa [startsHere] using (exists_of_startsHere hhere).1
    | false => simp [startsHere]
  · rw [htrim, startsHere, startsHere, hsegments]
    cases above <;> rfl

/-- A trimmed path has the same place. -/
@[simp]
theorem place_trimEnd (path : Path) (workingDirectory : Location) :
    path.trimEnd.place workingDirectory = path.place workingDirectory := by
  rw [place, place, rooted_trimEnd, names_trimEnd]

/-- Trimming the end of a path adds no step upwards. -/
theorem Descends.trimEnd {path : Path} (h : path.Descends) : path.trimEnd.Descends := by
  rcases trimEnd_cases path with ⟨-, htrim⟩ | ⟨above, name, after, hsegments, -, -, htrim⟩
  · rw [Descends, htrim]
    by_cases hhere : path.startsHere = true <;> simp [hhere]
  · rw [Descends, hsegments] at h
    rw [Descends, htrim]
    grind

/-- A path that goes through a name ends in one when it is trimmed. -/
theorem endsInName_trimEnd {path : Path} (h : path.names ≠ []) : path.trimEnd.EndsInName := by
  rcases trimEnd_cases path with ⟨hnames, -⟩ | ⟨above, name, after, -, hname, -, htrim⟩
  · exact absurd hnames h
  · exact ⟨above, name, by rw [htrim], hname⟩

/-- There is nothing to trim off a path that ends in a name. -/
theorem EndsInName.trimEnd_eq_self {path : Path} (h : path.EndsInName) : path.trimEnd = path := by
  obtain ⟨above, name, hsegments, hname⟩ := h
  cases path
  cases hsegments
  cases above <;> simp [trimEnd, hname]

/-- A path that ends in a name has one. -/
theorem EndsInName.names_ne_nil {path : Path} (h : path.EndsInName) : path.names ≠ [] := by
  obtain ⟨above, name, hsegments, hname⟩ := h
  simp [names, hsegments, namesOf_singleton hname]

/-- A path with names has a text. -/
theorem isEmpty_of_names {path : Path} (h : path.names ≠ []) : path.isEmpty = false := by
  cases hrooted : path.rooted with
  | true => simp [isEmpty, hrooted]
  | false =>
    have hsegments : path.segments ≠ [] ∧ path.segments ≠ [""] := by
      constructor <;> intro hsegments <;> simp [names, hsegments, namesOf, isIdleSegment] at h
    simp [isEmpty, hsegments]

/-- The parent of a path is what is written before its last name. -/
theorem parent?_eq {path : Path} {above after : List String} {name : String}
    (hsegments : path.segments = above ++ name :: after) (hname : isIdleSegment name = false)
    (hafter : namesOf after = []) : path.parent? = some (trimEnd ⟨path.rooted, above⟩) := by
  have hidle : ∀ segment ∈ after.reverse, isIdleSegment segment = true := fun segment hsegment =>
    namesOf_eq_nil_iff.mp hafter segment (by simpa using hsegment)
  have htrim : path.trimEnd = ⟨path.rooted, above ++ [name]⟩ := by
    rw [trimEnd, hsegments, List.reverse_append, List.reverse_cons, List.append_assoc,
      List.dropWhile_append_of_pos hidle, List.singleton_append,
      List.dropWhile_cons_of_neg (by simp [hname])]
    cases above <;> simp
  have hsome : path.parent? = some (trimEnd ⟨path.rooted, (above ++ [name]).dropLast⟩) := by
    cases above <;> simp [parent?, htrim]
  rw [hsome, List.dropLast_concat]

/-- The parent of a path that goes through a name is there and goes through all names but the
last. -/
theorem exists_parent? {path : Path} (h : path.names ≠ []) :
    ∃ parent, path.parent? = some parent ∧ parent.rooted = path.rooted ∧
      parent.names = path.names.dropLast ∧ (path.Descends → parent.Descends) := by
  rcases trimEnd_cases path with ⟨hnames, -⟩ | ⟨above, name, after, hsegments, hname, hafter, -⟩
  · exact absurd hnames h
  · refine ⟨trimEnd ⟨path.rooted, above⟩, parent?_eq hsegments hname hafter, rooted_trimEnd _, ?_,
      fun hdescends => Descends.trimEnd ?_⟩
    · rw [names_trimEnd]
      simp [names, hsegments, namesOf_cons hname, hafter]
    · simp only [Descends, hsegments, List.mem_append, not_or] at hdescends ⊢
      exact hdescends.1

/-- A path without the last name of another has its place one name above. -/
theorem place_eq_dropLast {path parent : Path} (h : path.names ≠ [])
    (hrooted : parent.rooted = path.rooted) (hnames : parent.names = path.names.dropLast)
    (workingDirectory : Location) :
    parent.place workingDirectory = (path.place workingDirectory).dropLast := by
  rw [place, place, hrooted, hnames, List.dropLast_append_of_ne_nil h]

/-! ### Joining -/

/-- A path that is taken from a directory on is written after what the directory is written with,
up to a slash between them. -/
theorem join_cases (directory : Path) {path : Path} (hpath : path.rooted = false) :
    ∃ before after, directory.join path = ⟨directory.rooted, before ++ after⟩ ∧
      namesOf before = directory.names ∧ (∀ segment ∈ before, segment ∈ directory.segments) ∧
      namesOf after = path.names ∧
      (after = path.segments ∨ after = [""] ∧ path.isEmpty = true) := by
  have hdirectory : ∃ before,
      (if directory.segments.getLast? = some "" then directory.segments.dropLast
        else directory.segments) = before ∧
      namesOf before = directory.names ∧ (∀ segment ∈ before, segment ∈ directory.segments) := by
    by_cases hslash : directory.segments.getLast? = some ""
    · obtain ⟨above, habove⟩ := List.getLast?_eq_some_iff.mp hslash
      refine ⟨above, by simp [habove], by simp [names, habove, namesOf, isIdleSegment], ?_⟩
      intro segment hsegment
      simp [habove, hsegment]
    · exact ⟨directory.segments, if_neg hslash, rfl, fun _ => id⟩
  obtain ⟨before, hbefore, hnames, hmem⟩ := hdirectory
  by_cases hempty : path.isEmpty = true
  · refine ⟨before, [""], by simp [join, hpath, hbefore, hempty], hnames, hmem, ?_,
      Or.inr ⟨rfl, hempty⟩⟩
    have hsegments : path.segments = [] ∨ path.segments = [""] := by
      simpa [isEmpty, hpath] using hempty
    rcases hsegments with hsegments | hsegments <;> simp [names, hsegments, namesOf, isIdleSegment]
  · exact ⟨before, path.segments, by simp [join, hpath, hbefore, hempty], hnames, hmem, rfl,
      Or.inl rfl⟩

/-- What is joined to a directory is absolute if the directory is. -/
theorem rooted_join (directory : Path) {path : Path} (hpath : path.rooted = false) :
    (directory.join path).rooted = directory.rooted := by
  obtain ⟨before, after, hjoin, -⟩ := join_cases directory hpath
  rw [hjoin]

/-- What is joined to a directory goes on from its names. -/
theorem names_join (directory : Path) {path : Path} (hpath : path.rooted = false) :
    (directory.join path).names = directory.names ++ path.names := by
  obtain ⟨before, after, hjoin, hbefore, -, hafter, -⟩ := join_cases directory hpath
  rw [hjoin, names, namesOf_append, hbefore, hafter]

/-- A path that is taken from a directory on goes through the names of the directory first. -/
theorem place_join (directory : Path) {path : Path} (hpath : path.rooted = false)
    (workingDirectory : Location) :
    (directory.join path).place workingDirectory =
      directory.place workingDirectory ++ path.names := by
  simp [place, rooted_join directory hpath, names_join directory hpath]

/-- Joining adds no steps upwards. -/
theorem Descends.join {directory path : Path} (hdirectory : directory.Descends)
    (hpath : path.Descends) (hrooted : path.rooted = false) : (directory.join path).Descends := by
  obtain ⟨before, after, hjoin, -, hbefore, -, hafter⟩ := join_cases directory hrooted
  rw [hjoin, Descends, List.mem_append]
  rintro (hup | hup)
  · exact hdirectory (hbefore _ hup)
  · rcases hafter with rfl | ⟨rfl, -⟩
    · exact hpath hup
    · simp at hup

/-- What ends in a name still does when it is joined to a directory. -/
theorem EndsInName.join {path : Path} (h : path.EndsInName) (hrooted : path.rooted = false)
    (directory : Path) : (directory.join path).EndsInName := by
  obtain ⟨before, after, hjoin, -, -, -, hafter⟩ := join_cases directory hrooted
  rcases hafter with rfl | ⟨-, hempty⟩
  · obtain ⟨above, name, hsegments, hname⟩ := h
    exact ⟨before ++ above, name, by rw [hjoin, hsegments, List.append_assoc], hname⟩
  · rw [h.isEmpty_eq_false] at hempty
    cases hempty

/-! ### Children -/

/-- Entries of entries of a directory are joined to it. -/
theorem foldl_child_eq_join {names : List String} (hnames : ∀ name ∈ names, IsProperName name)
    (hne : names ≠ []) (directory : Path) :
    names.foldl child directory = directory.join ⟨false, names⟩ := by
  induction names generalizing directory with
  | nil => exact absurd rfl hne
  | cons name names ih =>
    obtain ⟨hname, hnames⟩ := List.forall_mem_cons.mp hnames
    have hname := ne_empty_of_name hname.1
    rw [List.foldl_cons]
    by_cases hlast : names = []
    · rw [hlast]
      rfl
    · have hwritten : names ≠ [""] := fun hnames' =>
        ne_empty_of_name (hnames "" (by simp [hnames'])).1 rfl
      rw [ih hnames hlast]
      simp [child, join, isEmpty, hname, hlast, hwritten]

/-- Names that lead down from a directory come after its own names. -/
theorem foldl_child {names : List String} (hnames : ∀ name ∈ names, IsProperName name)
    (directory : Path) :
    (names.foldl child directory).rooted = directory.rooted ∧
      (names.foldl child directory).names = directory.names ++ names ∧
      (directory.Descends → (names.foldl child directory).Descends) ∧
      (names ≠ [] → (names.foldl child directory).EndsInName) := by
  by_cases hne : names = []
  · simp [hne]
  · obtain ⟨hdescends, hself, hends⟩ := names_of_properNames hnames
    rw [foldl_child_eq_join hnames hne, rooted_join directory rfl, names_join directory rfl, hself]
    exact ⟨rfl, rfl, fun hdirectory => hdirectory.join hdescends rfl,
      fun _ => (hends hne).join rfl directory⟩

/-! ### Absolute paths -/

/-- A path that is made absolute from a rooted one is rooted. -/
theorem rooted_of_absolute? {path top absolute : Path} (htop : top.rooted = true)
    (h : path.absolute? top = some absolute) : absolute.rooted = true := by
  rw [absolute?, Option.ite_none_left_eq_some] at h
  obtain ⟨-, h⟩ := h
  have hbase : (if path.rooted then (⟨true, if path.doublesTop then ["", ""] else [""]⟩ : Path)
      else top).rooted = true := by
    split
    · rfl
    · exact htop
  rw [← Option.some.inj h, apply_ite Path.rooted, rooted_join _ rfl, hbase, ite_self]

/-- A path that is made absolute keeps its place. -/
theorem exists_absolute? {path : Path} (hpath : path.isEmpty = false) (hdescends : path.Descends)
    {workingDirectory : Location} (hworking : ∀ name ∈ workingDirectory, IsProperName name) :
    ∃ absolute, path.absolute? ⟨true, workingDirectory⟩ = some absolute ∧ absolute.rooted = true ∧
      absolute.Descends ∧ absolute.names = path.place workingDirectory ∧
      (path.EndsInName → absolute.EndsInName) := by
  obtain ⟨base, hbase⟩ : ∃ base : Path, base =
    if path.rooted then ⟨true, if path.doublesTop then ["", ""] else [""]⟩
    else ⟨true, workingDirectory⟩ := ⟨_, rfl⟩
  obtain ⟨rest, hrest⟩ : ∃ rest, rest =
    path.segments.filter (!isIdleSegment ·) ++ if path.endsInSlash then [""] else [] := ⟨_, rfl⟩
  have hbaseRooted : base.rooted = true := by
    rw [hbase]
    split <;> rfl
  have hbaseDescends : base.Descends := by
    rw [hbase, Descends]
    split
    · split <;> simp
    · exact fun hup => (hworking _ hup).2 rfl
  have hbaseNames : base.names = if path.rooted then [] else workingDirectory := by
    rw [hbase, names]
    split
    · split <;> simp [namesOf, isIdleSegment]
    · exact namesOf_eq_self fun name hname => (hworking name hname).1
  have hrestNames : (⟨false, rest⟩ : Path).names = path.names := by
    rw [hrest, names, namesOf_append]
    have hslash : namesOf (if path.endsInSlash then [""] else []) = [] := by
      split <;> simp [namesOf, isIdleSegment]
    rw [hslash, List.append_nil]
    simp [namesOf, names, List.filter_filter]
  have hrestDescends : (⟨false, rest⟩ : Path).Descends := by
    rw [hrest, Descends, List.mem_append]
    rintro (hup | hup)
    · exact hdescends (List.mem_filter.mp hup).1
    · split at hup <;> simp at hup
  have hrestEnds (hends : path.EndsInName) : (⟨false, rest⟩ : Path).EndsInName := by
    have hslash := hends.endsInSlash_eq_false
    obtain ⟨above, name, hsegments, hname⟩ := hends
    exact ⟨above.filter (!isIdleSegment ·), name, by simp [hrest, hslash, hsegments, hname], hname⟩
  refine ⟨if rest = [] then base else base.join ⟨false, rest⟩, ?_, ?_, ?_, ?_, fun hends => ?_⟩
  · rw [absolute?, if_neg (by simp [hpath]), hrest, hbase]
  · split
    · exact hbaseRooted
    · rw [rooted_join _ rfl, hbaseRooted]
  · split
    · exact hbaseDescends
    · exact hbaseDescends.join hrestDescends rfl
  · rw [place, ← hbaseNames]
    split
    case isTrue hnil =>
      rw [← hrestNames, hnil]
      simp [names]
    case isFalse => rw [names_join _ rfl, hrestNames]
  · obtain ⟨above, name, habove, -⟩ := hrestEnds hends
    rw [if_neg (by simpa using congrArg (· ≠ []) habove)]
    exact (hrestEnds hends).join rfl base

end Path

end Menus
