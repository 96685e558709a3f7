import Menus.Command.Perform
import Menus.Proofs.Resolving

/-!
# The settings file of a path

The settings of documents are looked for in the parents of a path as it is written. Followed through
a tree, these are the locations that the names of the path pass on their way, the last one first,
and where the path starts comes last. The real parents of a document are the locations above its
directory.

Both walks meet the same settings file unless the way passes a directory that is not above the
document, as it does before a step upwards, or the file is above the working directory that a
relative path starts at.
-/

namespace Menus

/-- Where the settings file is that is selected for the documents of a path. -/
def selectedFile? (tree : FileTree) (surroundings : Surroundings) (path : Path) : Option Location :=
  (Settings.nearestFile? tree surroundings
    (Command.startDirectory tree surroundings [path])).bind fun file =>
      (tree.locate surroundings.workingDirectory file).toOption

/-! ### The locations that names pass -/

/-- The locations on the way along names, the last one first. -/
def passed (location : Location) (names : List String) : List Location :=
  names.inits.reverse.map (resolve location)

/-- Without steps only the location itself is passed. -/
@[simp]
theorem passed_nil (location : Location) : passed location [] = [location] := rfl

/-- The last step is passed first on the way back. -/
theorem passed_concat (location : Location) (names : List String) (name : String) :
    passed location (names ++ [name]) =
      stepTo (resolve location names) name :: passed location names := by
  simp [passed, List.inits_append, resolve_concat]

/-- From the top, names without steps upwards pass the locations above where they lead. -/
theorem passed_top {names : List String} (hup : ∀ name ∈ names, name ≠ "..") :
    passed [] names = names.inits.reverse := by
  refine (List.map_congr_left fun front hfront => ?_).trans (List.map_id _)
  have hfirst := (List.mem_inits _ _).mp (List.mem_reverse.mp hfront)
  exact resolve_of_ne_up (fun name hname => hup name (hfirst.subset hname)) []

section Walks

variable {α : Type} {find : Location → Option α}

/-- The first hit is that of the first item or else of the others. -/
theorem findSome?_cons_eq_or {β : Type} (look : β → Option α) (item : β) (items : List β) :
    (item :: items).findSome? look = (look item).or (items.findSome? look) := by
  rw [← List.singleton_append, List.findSome?_append, List.findSome?_singleton]

/-- What is found last on the way along names is found at their end or before the last of them. -/
theorem findSome?_passed_concat (location : Location) (names : List String) (name : String) :
    (passed location (names ++ [name])).findSome? find =
      (find (stepTo (resolve location names) name)).or
        ((passed location names).findSome? find) := by
  rw [passed_concat, findSome?_cons_eq_or]

/-- What is found on the way back is found where some first steps lead. -/
theorem exists_of_findSome?_passed {location : Location} {names : List String} {found : α}
    (h : (passed location names).findSome? find = some found) :
    ∃ front, front <+: names ∧ find (resolve location front) = some found := by
  obtain ⟨place, hplace, hfound⟩ := List.exists_of_findSome?_eq_some h
  obtain ⟨front, hfront, rfl⟩ := List.mem_map.mp hplace
  exact ⟨front, (List.mem_inits _ _).mp (List.mem_reverse.mp hfront), hfound⟩

/-- Nothing is found at the end of names if nothing is found on the way. -/
theorem eq_none_of_findSome?_passed {location : Location} {names : List String}
    (h : (passed location names).findSome? find = none) : find (resolve location names) = none := by
  refine List.findSome?_eq_none_iff.mp h _ (List.mem_map_of_mem ?_)
  rw [List.mem_reverse, List.mem_inits]

end Walks

/-! ### Settings files in a tree -/

namespace FileTree

variable {tree : FileTree} {directory place : Location}

/-- The settings file in a directory, the preferred one if there are several. -/
def settingsIn? (tree : FileTree) (directory : Location) : Option Location :=
  (Settings.fileNames.map fun name => directory ++ [name]).find? fun place =>
    (tree.bytes? place).isSome

/-- The settings file in a directory or in the nearest one above it that has any. -/
def settingsAbove? (tree : FileTree) (directory : Location) : Option Location :=
  directory.inits.reverse.findSome? tree.settingsIn?

/-- The directory at a location, or else the one that has the entry at the location. -/
def directoryOf (tree : FileTree) (location : Location) : Location :=
  if tree.at? location = some .directory then location else location.dropLast

/-- Settings of a directory are in it. -/
theorem dropLast_of_settingsIn? (h : tree.settingsIn? directory = some place) :
    place.dropLast = directory := by
  obtain ⟨name, -, rfl⟩ := List.mem_map.mp (List.mem_of_find?_eq_some h)
  exact List.dropLast_concat

/-- A directory is looked at before those above it. -/
theorem settingsAbove?_eq (tree : FileTree) (directory : Location) :
    tree.settingsAbove? directory =
      (tree.settingsIn? directory).or (tree.settingsAbove? directory.dropLast) := by
  rcases List.eq_nil_or_concat directory with rfl | ⟨above, name, rfl⟩
  · simp [settingsAbove?]
  · have hinits : (above ++ [name]).inits.reverse = (above ++ [name]) :: above.inits.reverse := by
      simp [List.inits_append]
    rw [List.concat_eq_append, List.dropLast_concat, settingsAbove?, hinits, findSome?_cons_eq_or,
      settingsAbove?]

/-- Without settings of its own a directory has those of the one above it. -/
theorem settingsAbove?_of_eq_none (h : tree.settingsIn? directory = none) :
    tree.settingsAbove? directory = tree.settingsAbove? directory.dropLast := by
  rw [settingsAbove?_eq, h, Option.none_or]

/-- The settings file that applies to a directory is in that directory or above it. -/
theorem prefix_of_settingsAbove? (h : tree.settingsAbove? directory = some place) :
    place.dropLast <+: directory ∧ tree.settingsIn? place.dropLast = some place := by
  obtain ⟨above, habove, hplace⟩ := List.exists_of_findSome?_eq_some h
  rw [dropLast_of_settingsIn? hplace]
  exact ⟨(List.mem_inits _ _).mp (List.mem_reverse.mp habove), hplace⟩

/-- The settings file that applies to a directory applies to all directories on the way to it from
the one that has the file. -/
theorem settingsAbove?_between {above : Location} (h : tree.settingsAbove? directory = some place)
    (hplace : place.dropLast <+: above) (habove : above <+: directory) :
    tree.settingsAbove? above = some place := by
  induction directory using List.reverseRecOn with
  | nil => rwa [List.prefix_nil.mp habove]
  | append_singleton directory name ih =>
    rcases List.prefix_concat_iff.mp habove with rfl | habove
    · exact h
    · rw [settingsAbove?_eq, List.dropLast_concat, Option.or_eq_some_iff] at h
      rcases h with hin | ⟨-, h⟩
      · rw [dropLast_of_settingsIn? hin] at hplace
        exact absurd (hplace.trans habove) (not_prefix_of_concat directory name)
      · exact ih h habove

/-! ### Passed locations and real parents -/

variable {location : Location} {names : List String}

/-- A settings file that names pass applies to where they lead, if it is above there. -/
theorem settingsAbove?_of_passed
    (h : (passed location names).findSome? tree.settingsIn? = some place)
    (habove : place.dropLast <+: resolve location names) :
    tree.settingsAbove? (resolve location names) = some place := by
  induction names using List.reverseRecOn with
  | nil =>
    have hin : tree.settingsIn? location = some place := by simpa using h
    rw [resolve_nil, settingsAbove?_eq, hin, Option.some_or]
  | append_singleton names name ih =>
    rw [findSome?_passed_concat, Option.or_eq_some_iff] at h
    rw [resolve_concat] at habove ⊢
    rcases h with hin | ⟨hnone, hbefore⟩
    · rw [settingsAbove?_eq, hin, Option.some_or]
    · by_cases hup : name = ".."
      · rw [stepTo, if_pos hup] at habove ⊢
        have hdropLast := List.dropLast_prefix (resolve location names)
        exact settingsAbove?_between (ih hbefore (habove.trans hdropLast)) habove hdropLast
      · rw [settingsAbove?_of_eq_none hnone]
        rw [stepTo, if_neg hup] at habove hnone ⊢
        rw [List.dropLast_concat]
        refine ih hbefore ((List.prefix_concat_iff.mp habove).resolve_left fun hsame => ?_)
        obtain ⟨front, -, hplace⟩ := exists_of_findSome?_passed hbefore
        rw [← dropLast_of_settingsIn? hplace, hsame, hnone] at hplace
        cases hplace

/-- If names pass no settings file, one that applies to where they lead is above their start. -/
theorem prefix_of_passed_eq_none
    (h : (passed location names).findSome? tree.settingsIn? = none)
    (hplace : tree.settingsAbove? (resolve location names) = some place) :
    place.dropLast <+: location ∧ place.dropLast ≠ location := by
  induction names using List.reverseRecOn with
  | nil =>
    obtain ⟨habove, hin⟩ := prefix_of_settingsAbove? hplace
    refine ⟨habove, fun hsame => ?_⟩
    have hnone : tree.settingsIn? location = none := by simpa using h
    rw [hsame, hnone] at hin
    cases hin
  | append_singleton names name ih =>
    rw [findSome?_passed_concat, Option.or_eq_none_iff] at h
    refine ih h.2 ?_
    rw [resolve_concat, stepTo] at hplace
    by_cases hup : name = ".."
    · rwa [if_pos hup, ← settingsAbove?_of_eq_none (eq_none_of_findSome?_passed h.2)] at hplace
    · rw [stepTo, if_neg hup] at h
      rwa [if_neg hup, settingsAbove?_of_eq_none h.1, List.dropLast_concat] at hplace

end FileTree

/-! ### The parents of a path -/

namespace Path

/-- Trimming leaves the first segments of a path. -/
theorem prefix_segments_trimEnd (path : Path) : path.trimEnd.segments <+: path.segments := by
  rcases trimEnd_cases path with ⟨-, htrim⟩ | ⟨above, name, after, hsegments, -, -, htrim⟩
  · rw [htrim]
    cases hhere : path.startsHere with
    | true =>
      obtain ⟨-, -, segments, hsegments⟩ := exists_of_startsHere hhere
      simp [hsegments]
    | false => simp
  · rw [htrim, hsegments]
    exact ⟨after, by simp⟩

/-- A parent goes through all names of a path but the last and is written with the first segments.
Of the paths without names only a lone dot has one. -/
theorem of_parent?_eq_some {path parent : Path} (h : path.parent? = some parent) :
    parent.rooted = path.rooted ∧ parent.names = path.names.dropLast ∧
      parent.segments <+: path.segments := by
  rcases trimEnd_cases path with ⟨hnames, htrim⟩ | ⟨above, name, after, hsegments, hname, hafter, -⟩
  · cases hhere : path.startsHere with
    | false => simp [parent?, htrim, hhere] at h
    | true =>
      obtain rfl : trimEnd ⟨path.rooted, []⟩ = parent := by simpa [parent?, htrim, hhere] using h
      exact ⟨rooted_trimEnd _, by rw [names_trimEnd, hnames]; rfl,
        (prefix_segments_trimEnd _).trans List.nil_prefix⟩
  · obtain rfl : trimEnd ⟨path.rooted, above⟩ = parent :=
      Option.some.inj ((parent?_eq hsegments hname hafter).symm.trans h)
    refine ⟨rooted_trimEnd _, ?_, (prefix_segments_trimEnd _).trans ?_⟩
    · rw [names_trimEnd]
      simp [names, hsegments, namesOf_cons hname, hafter]
    · exact ⟨name :: after, hsegments.symm⟩

/-- The parents of a path are written with its first segments. -/
theorem of_mem_ancestorsUpTo {count : Nat} {path parent : Path}
    (h : parent ∈ ancestorsUpTo count path) :
    parent.rooted = path.rooted ∧ parent.segments <+: path.segments := by
  induction count generalizing path with
  | zero =>
    rw [List.mem_singleton.mp h]
    exact ⟨rfl, List.prefix_rfl⟩
  | succ count ih =>
    rw [ancestorsUpTo] at h
    split at h
    case h_1 =>
      rw [List.mem_singleton.mp h]
      exact ⟨rfl, List.prefix_rfl⟩
    case h_2 next hnext =>
      rcases List.mem_cons.mp h with rfl | h
      · exact ⟨rfl, List.prefix_rfl⟩
      · obtain ⟨hrooted, -, hsegments⟩ := of_parent?_eq_some hnext
        obtain ⟨hparent, hfirst⟩ := ih h
        exact ⟨hparent.trans hrooted, hfirst.trans hsegments⟩

/-- A path is the first of its ancestors. -/
theorem mem_ancestorsUpTo_self (count : Nat) (path : Path) : path ∈ ancestorsUpTo count path := by
  cases count with
  | zero => simp [ancestorsUpTo]
  | succ count => cases hparent : path.parent? <;> simp [ancestorsUpTo, hparent]

/-- What is found first in where the parents of a path lead is what is found first in the locations
that the names of the path pass. -/
theorem findSome?_ancestorsUpTo {α : Type} {count : Nat} {path : Path} {workingDirectory : Location}
    {find : Location → Option α} {look : Path → Option α}
    (hlook : ∀ parent ∈ ancestorsUpTo count path,
      look parent = find (parent.resolved workingDirectory))
    (hcount : path.names.length ≤ count) :
    (ancestorsUpTo count path).findSome? look =
      (passed (if path.rooted then [] else workingDirectory) path.names).findSome? find := by
  have hself := hlook path (mem_ancestorsUpTo_self count path)
  induction count generalizing path with
  | zero =>
    have hnames : path.names = [] := List.length_eq_zero_iff.mp (Nat.le_zero.mp hcount)
    simp [ancestorsUpTo, hself, resolved, hnames]
  | succ count ih =>
    cases hparent : path.parent? with
    | none =>
      have hnames : path.names = [] := by
        by_contra hne
        obtain ⟨parent, hsome, -⟩ := exists_parent? hne
        rw [hparent] at hsome
        cases hsome
      simp [ancestorsUpTo, hparent, hself, resolved, hnames]
    | some parent =>
      have hwalk : ancestorsUpTo (count + 1) path = path :: ancestorsUpTo count parent := by
        rw [ancestorsUpTo, hparent]
      rw [hwalk] at hlook ⊢
      obtain ⟨hrooted, hnames, -⟩ := of_parent?_eq_some hparent
      have hparents := fun other hother => hlook other (List.mem_cons_of_mem _ hother)
      have hfewer : parent.names.length ≤ count := by
        rw [hnames, List.length_dropLast]
        omega
      have hrest := ih hparents hfewer (hparents parent (mem_ancestorsUpTo_self count parent))
      rw [findSome?_cons_eq_or, hself, hrest, hrooted, hnames, resolved]
      rcases List.eq_nil_or_concat path.names with hnil | ⟨names, name, hconcat⟩
      · simp [hnil]
      · rw [hconcat, List.concat_eq_append, List.dropLast_concat, findSome?_passed_concat,
          resolve_concat]

end Path

/-! ### The settings file that is selected -/

namespace FileTree

variable {tree : FileTree} {workingDirectory location directory : Location} {path : Path}

/-- The segments of a path can be followed to a directory. The empty path leads to where it starts,
though nothing can be found there under an empty name. -/
def LeadsInto (tree : FileTree) (workingDirectory : Location) (path : Path) (directory : Location) :
    Prop :=
  tree.follow (if path.rooted then [] else workingDirectory) path.segments = .ok directory ∧
    tree.at? directory = some .directory

/-- A path leads into the directory at its resolved location. -/
theorem LeadsInto.eq_resolved (h : tree.LeadsInto workingDirectory path directory) :
    directory = path.resolved workingDirectory := eq_resolve_of_follow h.1

/-- The first segments of such a path lead to a directory, too. -/
theorem LeadsInto.of_prefix (h : tree.LeadsInto workingDirectory path directory) {first : Path}
    (hrooted : first.rooted = path.rooted) (hfirst : first.segments <+: path.segments) :
    tree.LeadsInto workingDirectory first (first.resolved workingDirectory) := by
  obtain ⟨rest, hrest⟩ := hfirst
  obtain ⟨hfollow, hdirectory⟩ := h
  rw [← hrest, ← hrooted] at hfollow
  obtain ⟨middle, hmiddle, hfollow⟩ := exists_of_follow_append hfollow
  rw [show first.resolved workingDirectory = middle from (eq_resolve_of_follow hmiddle).symm]
  refine ⟨hmiddle, ?_⟩
  cases rest with
  | nil => rwa [Except.ok.inj hfollow]
  | cons segment segments => exact at?_of_follow_cons hfollow

/-- An entry of a directory is found at its name in the directory. -/
theorem LeadsInto.locate_child (h : tree.LeadsInto workingDirectory path directory) {name : String}
    (hname : IsProperName name) :
    tree.locate workingDirectory (path.child name) = .ok (directory ++ [name]) := by
  obtain ⟨hfollow, hdirectory⟩ := h
  obtain ⟨before, hchild, hbefore⟩ : ∃ before, path.child name = ⟨path.rooted, before ++ [name]⟩ ∧
      tree.follow (if path.rooted then [] else workingDirectory) before = .ok directory := by
    have hempty : (⟨false, [name]⟩ : Path).isEmpty = false := by
      simp [Path.isEmpty, ne_empty_of_name hname.1]
    by_cases hslash : path.segments.getLast? = some ""
    · obtain ⟨before, hsegments⟩ := List.getLast?_eq_some_iff.mp hslash
      refine ⟨before, by simp [Path.child, Path.join, hempty, hsegments], ?_⟩
      rw [hsegments] at hfollow
      obtain ⟨middle, hmiddle, hlast⟩ := exists_of_follow_append hfollow
      have hat := at?_of_follow_cons hlast
      rw [hmiddle, ← hlast]
      simp [follow, hat, isIdleSegment]
    · exact ⟨path.segments, by simp [Path.child, Path.join, hempty, hslash], hfollow⟩
  rw [hchild, locate_eq_ok_iff]
  refine ⟨Path.EndsInName.isEmpty_eq_false ⟨before, name, rfl, hname.1⟩, ?_⟩
  rw [follow_append, hbefore]
  simp [bind, Except.bind, follow, hdirectory, hname.1, hname.2]

/-- Of some names, the first that is the name of a file in a directory. -/
theorem LeadsInto.find?_child (h : tree.LeadsInto workingDirectory path directory)
    {names : List String} (hnames : ∀ name ∈ names, IsProperName name) :
    ((names.map path.child).find? (tree.isFile workingDirectory)).map
        (·.resolved workingDirectory) =
      (names.map (directory ++ [·])).find? fun place => (tree.bytes? place).isSome := by
  induction names with
  | nil => rfl
  | cons name names ih =>
    obtain ⟨hname, hnames⟩ := List.forall_mem_cons.mp hnames
    have hlocate := h.locate_child hname
    have hresolved := eq_resolved_of_locate hlocate
    have hfile : tree.isFile workingDirectory (path.child name) =
        (tree.bytes? (directory ++ [name])).isSome := by
      rw [Bool.eq_iff_iff, isFile_iff_locate, ← hresolved]
      exact and_iff_right hlocate
    rw [List.map_cons, List.map_cons, List.find?_cons, List.find?_cons, hfile]
    cases (tree.bytes? (directory ++ [name])).isSome with
    | true => exact congrArg some hresolved.symm
    | false => exact ih hnames

/-- The settings file for a path that leads into a directory is the last one that its names pass. -/
theorem LeadsInto.nearestFile? {surroundings : Surroundings}
    (h : tree.LeadsInto surroundings.workingDirectory path directory) :
    (Settings.nearestFile? tree surroundings path).map (·.resolved surroundings.workingDirectory) =
      (passed (if path.rooted then [] else surroundings.workingDirectory) path.names).findSome?
        tree.settingsIn? := by
  rw [Settings.nearestFile?, Settings.candidates, List.find?_flatMap, List.map_findSome?]
  refine Path.findSome?_ancestorsUpTo (fun parent hparent => ?_) (List.length_filter_le _ _)
  obtain ⟨hrooted, hsegments⟩ := Path.of_mem_ancestorsUpTo hparent
  exact (h.of_prefix hrooted hsegments).find?_child (by decide)

/-- There is a directory above every directory. -/
theorem at?_dropLast (h : tree.at? directory = some .directory) :
    tree.at? directory.dropLast = some .directory := by
  by_cases htop : directory.dropLast = directory
  · rwa [htop]
  · exact at?_above h (List.dropLast_prefix _) htop

/-- The search starts at a path that leads into the directory of the document. -/
theorem leadsInto_startDirectory {surroundings : Surroundings}
    (hlocate : tree.locate surroundings.workingDirectory path = .ok location)
    (hexists : (tree.at? location).isSome) :
    ∃ start, Command.startDirectory tree surroundings [path] = start ∧
      start.rooted = path.rooted ∧ (path.Descends → start.Descends) ∧
      tree.LeadsInto surroundings.workingDirectory start (tree.directoryOf location) := by
  obtain ⟨entry, hentry⟩ := Option.isSome_iff_exists.mp hexists
  obtain ⟨-, hfollow⟩ := locate_eq_ok_iff.mp hlocate
  cases entry with
  | directory =>
    have hdirectory : tree.isDirectory surroundings.workingDirectory path = true :=
      isDirectory_iff_locate.mpr ⟨location, hlocate, hentry⟩
    rw [directoryOf, if_pos hentry]
    exact ⟨path, by rw [Command.startDirectory, if_pos hdirectory], rfl, id, hfollow, hentry⟩
  | file bytes =>
    have hdirectory : tree.isDirectory surroundings.workingDirectory path = false := by
      simp [isDirectory, find?, hlocate, hentry]
    have hfile : tree.isFile surroundings.workingDirectory path = true := by
      simp [isFile, find?, hlocate, hentry, FileEntry.bytes?]
    obtain ⟨above, name, hsegments, hname⟩ := endsInName_of_isFile hfile
    rw [hsegments] at hfollow
    obtain ⟨middle, hmiddle, hlast⟩ := exists_of_follow_append hfollow
    have hat := at?_of_follow_cons hlast
    have hup : name ≠ ".." := by
      rintro rfl
      obtain rfl : middle.dropLast = location := by
        simpa [follow, hat, isIdleSegment] using hlast
      rw [at?_dropLast hat] at hentry
      cases hentry
    obtain rfl : middle ++ [name] = location := by
      simpa [follow, hat, hname, hup] using hlast
    have hleads : tree.LeadsInto surroundings.workingDirectory ⟨path.rooted, above⟩ middle :=
      ⟨hmiddle, hat⟩
    have htrim := hleads.of_prefix (Path.rooted_trimEnd _) (Path.prefix_segments_trimEnd _)
    rw [Path.resolved_trimEnd, ← hleads.eq_resolved] at htrim
    rw [directoryOf, if_neg (by simp [hentry]), List.dropLast_concat]
    refine ⟨Path.trimEnd ⟨path.rooted, above⟩, ?_, Path.rooted_trimEnd _,
      fun hdescends => ?_, htrim⟩
    · rw [Command.startDirectory, if_neg (by simp [hdirectory]),
        Path.parent?_eq hsegments hname namesOf_nil]
      rfl
    · refine Path.Descends.trimEnd fun hup => hdescends ?_
      rw [hsegments]
      exact List.mem_append_left _ hup

/-- Names are followed one below the other to what is there. -/
theorem follow_of_at? {names : List String} (hnames : ∀ name ∈ names, IsProperName name)
    (hexists : (tree.at? (location ++ names)).isSome) :
    tree.follow location names = .ok (location ++ names) := by
  induction names generalizing location with
  | nil => rw [follow, List.append_nil]
  | cons name names ih =>
    obtain ⟨entry, hentry⟩ := Option.isSome_iff_exists.mp hexists
    obtain ⟨hname, hnames⟩ := List.forall_mem_cons.mp hnames
    have hdirectory := at?_of_at?_append hentry (List.cons_ne_nil _ _)
    rw [List.append_cons] at hexists ⊢
    simp [follow, hdirectory, hname.1, hname.2, ih hnames hexists]

/-- The rooted path of a location leads there, if anything is there. -/
theorem locate_rooted (hexists : (tree.at? location).isSome) (workingDirectory : Location) :
    tree.locate workingDirectory ⟨true, location⟩ = .ok location := by
  obtain ⟨entry, hentry⟩ := Option.isSome_iff_exists.mp hexists
  exact locate_eq_ok_iff.mpr ⟨rfl, follow_of_at? (isProperName_of_at? hentry) hexists⟩

end FileTree

section Selection

variable {tree : FileTree} {surroundings : Surroundings} {path : Path} {location place : Location}

/-- The selected file is at the resolved location of its path. -/
theorem selectedFile?_eq_map (tree : FileTree) (surroundings : Surroundings) (path : Path) :
    selectedFile? tree surroundings path =
      (Settings.nearestFile? tree surroundings
        (Command.startDirectory tree surroundings [path])).map
          (·.resolved surroundings.workingDirectory) := by
  rw [selectedFile?]
  cases hnearest : Settings.nearestFile? tree surroundings
      (Command.startDirectory tree surroundings [path]) with
  | none => rfl
  | some file =>
    have hfile : tree.isFile surroundings.workingDirectory file = true := List.find?_some hnearest
    rw [Option.bind_some, (FileTree.isFile_iff_locate.mp hfile).1]
    rfl

/-- The file that is selected for a path is the last settings file that some names pass, from where
the path starts to the directory of the document. -/
theorem exists_selectedFile?_eq
    (hlocate : tree.locate surroundings.workingDirectory path = .ok location)
    (hexists : (tree.at? location).isSome) :
    ∃ names,
      resolve (if path.rooted then [] else surroundings.workingDirectory) names =
        tree.directoryOf location ∧
      (path.Descends → ∀ name ∈ names, name ≠ "..") ∧
      selectedFile? tree surroundings path =
        (passed (if path.rooted then [] else surroundings.workingDirectory) names).findSome?
          tree.settingsIn? := by
  obtain ⟨start, hstart, hrooted, hdescends, hleads⟩ :=
    tree.leadsInto_startDirectory hlocate hexists
  refine ⟨start.names, ?_, fun hpath => (hdescends hpath).ne_up, ?_⟩
  · rw [hleads.eq_resolved, Path.resolved, hrooted]
  · rw [selectedFile?_eq_map, hstart, hleads.nearestFile?, hrooted]

/-- The settings in a file do not depend on how its path is written. -/
theorem read_eq_of_isFile {file : Path}
    (h : tree.isFile surroundings.workingDirectory file = true) :
    Settings.read tree surroundings file =
      Settings.read tree surroundings ⟨true, file.resolved surroundings.workingDirectory⟩ := by
  obtain ⟨hlocate, hbytes⟩ := FileTree.isFile_iff_locate.mp h
  have hexists : (tree.at? (file.resolved surroundings.workingDirectory)).isSome := by
    obtain ⟨bytes, hbytes⟩ := Option.isSome_iff_exists.mp hbytes
    rw [FileTree.bytes?_eq_some_iff.mp hbytes]
    rfl
  simp only [Settings.read, FileTree.readText, FileTree.read, hlocate,
    tree.locate_rooted hexists surroundings.workingDirectory]

/-- The settings that apply to a path when none are asked for by name are those in the selected
file, if there is one that can be read. -/
theorem load_startDirectory (tree : FileTree) (surroundings : Surroundings) (path : Path) :
    (Settings.load tree surroundings none
        (Command.startDirectory tree surroundings [path])).map Prod.fst =
      .ok ((((selectedFile? tree surroundings path).bind fun place =>
          (Settings.read tree surroundings ⟨true, place⟩).toOption).or
        (((Settings.userFile? tree surroundings).bind
          (Settings.readFrom? tree surroundings)).map Prod.fst)).getD {}) := by
  rw [selectedFile?_eq_map, Settings.load]
  cases hnearest : Settings.nearestFile? tree surroundings
      (Command.startDirectory tree surroundings [path]) with
  | none =>
    cases (Settings.userFile? tree surroundings).bind (Settings.readFrom? tree surroundings) <;> rfl
  | some file =>
    have hfile : tree.isFile surroundings.workingDirectory file = true := List.find?_some hnearest
    rw [Option.map_some, Option.bind_some, Option.bind_some, ← read_eq_of_isFile hfile,
      Settings.readFrom?]
    cases Settings.read tree surroundings file with
    | ok settings => rfl
    | error error =>
      cases (Settings.userFile? tree surroundings).bind (Settings.readFrom? tree surroundings) <;>
        rfl

/-- For the rooted path of a location, the settings file of its directory is selected, or else the
nearest one above. -/
theorem selectedFile?_rooted (hexists : (tree.at? location).isSome) :
    selectedFile? tree surroundings ⟨true, location⟩ =
      tree.settingsAbove? (tree.directoryOf location) := by
  have hproper : ∀ name ∈ location, IsProperName name := by
    obtain ⟨entry, hentry⟩ := Option.isSome_iff_exists.mp hexists
    exact FileTree.isProperName_of_at? hentry
  have hdescends : (⟨true, location⟩ : Path).Descends := fun hup => (hproper _ hup).2 rfl
  obtain ⟨names, hresolve, hup, hselected⟩ :=
    exists_selectedFile?_eq (tree.locate_rooted hexists surroundings.workingDirectory) hexists
  rw [if_pos rfl] at hresolve hselected
  rw [resolve_of_ne_up (hup hdescends), List.nil_append] at hresolve
  rw [hselected, passed_top (hup hdescends), hresolve, FileTree.settingsAbove?]

/-- A file that is selected for a path is the one for the rooted path of the location, if it is in
the directory of the location or above it. -/
theorem selectedFile?_rooted_of_above
    (hlocate : tree.locate surroundings.workingDirectory path = .ok location)
    (hexists : (tree.at? location).isSome)
    (hplace : selectedFile? tree surroundings path = some place)
    (habove : place.dropLast <+: tree.directoryOf location) :
    selectedFile? tree surroundings ⟨true, location⟩ = some place := by
  obtain ⟨names, hresolve, -, hselected⟩ := exists_selectedFile?_eq hlocate hexists
  rw [← hresolve] at habove
  rw [selectedFile?_rooted hexists, ← hresolve]
  exact FileTree.settingsAbove?_of_passed (hselected.symm.trans hplace) habove

/-- If no file is selected for a path, then one for the rooted path of its location is above the
working directory, which a relative path starts at. -/
theorem above_workingDirectory_of_eq_none
    (hlocate : tree.locate surroundings.workingDirectory path = .ok location)
    (hexists : (tree.at? location).isSome) (hnone : selectedFile? tree surroundings path = none)
    (hplace : selectedFile? tree surroundings ⟨true, location⟩ = some place) :
    path.rooted = false ∧ place.dropLast <+: surroundings.workingDirectory ∧
      place.dropLast ≠ surroundings.workingDirectory := by
  obtain ⟨names, hresolve, -, hselected⟩ := exists_selectedFile?_eq hlocate hexists
  rw [selectedFile?_rooted hexists, ← hresolve] at hplace
  have habove := FileTree.prefix_of_passed_eq_none (hselected.symm.trans hnone) hplace
  cases hrooted : path.rooted with
  | true =>
    rw [hrooted, if_pos rfl] at habove
    exact absurd (List.prefix_nil.mp habove.1) habove.2
  | false =>
    rw [hrooted, if_neg (by simp)] at habove
    exact ⟨rfl, habove⟩

/-- A file that is selected for a path without steps upwards is in the directory of the document or
above it, but not above where the path starts. -/
theorem prefix_of_selectedFile?
    (hlocate : tree.locate surroundings.workingDirectory path = .ok location)
    (hexists : (tree.at? location).isSome) (hdescends : path.Descends)
    (hplace : selectedFile? tree surroundings path = some place) :
    (if path.rooted then [] else surroundings.workingDirectory) <+: place.dropLast ∧
      place.dropLast <+: tree.directoryOf location := by
  obtain ⟨names, hresolve, hup, hselected⟩ := exists_selectedFile?_eq hlocate hexists
  obtain ⟨front, hfront, hin⟩ := exists_of_findSome?_passed (hselected.symm.trans hplace)
  rw [← hresolve, FileTree.dropLast_of_settingsIn? hin, resolve_of_ne_up (hup hdescends),
    resolve_of_ne_up fun name hname => hup hdescends name (hfront.subset hname)]
  exact ⟨List.prefix_append _ _, (List.prefix_append_right_inj _).mpr hfront⟩

/-- For a path without steps upwards, the file for the rooted path of its location is selected,
unless that is above where the path starts. -/
theorem selectedFile?_of_descends
    (hlocate : tree.locate surroundings.workingDirectory path = .ok location)
    (hexists : (tree.at? location).isSome) (hdescends : path.Descends) :
    selectedFile? tree surroundings path =
      (selectedFile? tree surroundings ⟨true, location⟩).filter fun place =>
        path.rooted || surroundings.workingDirectory.isPrefixOf place.dropLast := by
  cases hspelled : selectedFile? tree surroundings path with
  | none =>
    refine (Option.filter_eq_none_iff.mpr fun place hplace => ?_).symm
    obtain ⟨hrooted, habove, hne⟩ :=
      above_workingDirectory_of_eq_none hlocate hexists hspelled hplace
    rw [hrooted, Bool.false_or, List.isPrefixOf_iff_prefix]
    exact fun hbelow => hne (List.IsPrefix.eq_of_length_le habove hbelow.length_le)
  | some place =>
    obtain ⟨hstart, habove⟩ := prefix_of_selectedFile? hlocate hexists hdescends hspelled
    rw [selectedFile?_rooted_of_above hlocate hexists hspelled habove, Option.filter_some, if_pos]
    cases hrooted : path.rooted with
    | true => rfl
    | false =>
      rw [hrooted, if_neg (by simp)] at hstart
      rw [Bool.false_or, List.isPrefixOf_iff_prefix]
      exact hstart

/-- Whatever a path that leads somewhere is spelled like: for the rooted path of the location, the
nearest settings file of its directory is selected. A file that is selected for the path itself is
that one, if it is in the directory or above it. If none is selected, the nearest one is above the
working directory, where a relative path starts. For a path without steps upwards this is all that
can differ. Where the same file is selected, the same settings apply. -/
theorem settings_of_located_path
    (hlocate : tree.locate surroundings.workingDirectory path = .ok location)
    (hexists : (tree.at? location).isSome) :
    let spelled := selectedFile? tree surroundings path
    let rooted := selectedFile? tree surroundings ⟨true, location⟩
    rooted = tree.settingsAbove? (tree.directoryOf location) ∧
    (∀ place, spelled = some place → place.dropLast <+: tree.directoryOf location →
      rooted = some place) ∧
    (spelled = none → ∀ place, rooted = some place → path.rooted = false ∧
      place.dropLast <+: surroundings.workingDirectory ∧
      place.dropLast ≠ surroundings.workingDirectory) ∧
    (path.Descends → spelled = rooted.filter fun place =>
      path.rooted || surroundings.workingDirectory.isPrefixOf place.dropLast) ∧
    (spelled = rooted →
      (Settings.load tree surroundings none
        (Command.startDirectory tree surroundings [path])).map Prod.fst =
      (Settings.load tree surroundings none
        (Command.startDirectory tree surroundings [⟨true, location⟩])).map Prod.fst) := by
  intro spelled rooted
  refine ⟨selectedFile?_rooted hexists, fun _ => selectedFile?_rooted_of_above hlocate hexists,
    fun hnone _ => above_workingDirectory_of_eq_none hlocate hexists hnone,
    selectedFile?_of_descends hlocate hexists, fun hsame => ?_⟩
  have hselected : selectedFile? tree surroundings path =
      selectedFile? tree surroundings ⟨true, location⟩ := hsame
  rw [load_startDirectory, load_startDirectory, hselected]

end Selection

/-- A menu, with settings beside its directory and above it. -/
def settingsAround : FileTree :=
  let tree := (FileTree.empty.put [] "work" .directory).put ["work"] "beside" .directory
  let tree := tree.put ["work"] "menu.selfml" (.file "(menu snippet.a (snippet.b))".toUTF8)
  let tree := tree.put [] ".snipmenu.toml" (.file "line_ending = \"lf\"".toUTF8)
  tree.put ["work", "beside"] "snipmenu.toml" (.file "line_ending = \"crlf\"".toUTF8)

/-- From the top, the settings above the menu are selected as they are for its rooted path. -/
theorem settings_of_located_path_around :
    let path := Path.ofText "work/menu.selfml"
    let location := ["work", "menu.selfml"]
    settingsAround.locate [] path = .ok location ∧ (settingsAround.at? location).isSome ∧
      path.Descends ∧ selectedFile? settingsAround ⟨[], {}⟩ path = some [".snipmenu.toml"] ∧
      selectedFile? settingsAround ⟨[], {}⟩ ⟨true, location⟩ = some [".snipmenu.toml"] := by
  intro path location
  have hlocate : settingsAround.locate [] path = .ok location := by decide +kernel
  have hexists : (settingsAround.at? location).isSome := by decide +kernel
  have hspelled : selectedFile? settingsAround ⟨[], {}⟩ path = some [".snipmenu.toml"] := by
    decide +kernel
  obtain ⟨-, hsame, -⟩ :=
    @settings_of_located_path settingsAround ⟨[], {}⟩ path location hlocate hexists
  exact ⟨hlocate, hexists, by decide, hspelled, hsame _ hspelled (by decide +kernel)⟩

/-- A path that passes the directory beside the menu selects the settings there, which are not above
the menu, and from the directory of the menu none are selected. -/
theorem settings_differ_by_spelling :
    let location := ["work", "menu.selfml"]
    let passing := Path.ofText "work/beside/../menu.selfml"
    settingsAround.locate [] passing = .ok location ∧
      settingsAround.locate ["work"] (Path.ofText "menu.selfml") = .ok location ∧
      selectedFile? settingsAround ⟨[], {}⟩ ⟨true, location⟩ = some [".snipmenu.toml"] ∧
      selectedFile? settingsAround ⟨[], {}⟩ passing = some ["work", "beside", "snipmenu.toml"] ∧
      selectedFile? settingsAround ⟨["work"], {}⟩ (Path.ofText "menu.selfml") = none := by
  decide +kernel

end Menus
