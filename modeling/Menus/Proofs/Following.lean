import Menus.Proofs.Places
import Mathlib.Data.List.Infix
import Mathlib.Data.List.Nodup

/-!
# Following paths through a tree

Whatever is in a tree has directories all the way down to it. A path without steps upwards therefore
leads to its place exactly if the way there goes through directories only. Otherwise it fails at the
first location that is missing or a file.
-/

namespace Menus

namespace FileTree

variable {tree : FileTree} {location above : Location} {names : List String} {entry : FileEntry}

/-- The top is a directory. -/
@[simp]
theorem at?_top (tree : FileTree) : tree.at? [] = some .directory := by simp [at?, entryAt]

/-- Above whatever is there are directories. -/
theorem at?_of_at?_append (h : tree.at? (location ++ names) = some entry) (hnames : names ≠ []) :
    tree.at? location = some .directory := by
  induction names generalizing location with
  | nil => exact absurd rfl hnames
  | cons name names ih =>
    rw [List.append_cons] at h
    have hfirst : (tree.at? (location ++ [name])).isSome := by
      cases names with
      | nil => simpa using congrArg Option.isSome h
      | cons next names => simp [ih h (by simp)]
    exact tree.closed location name hfirst

/-- Whatever is above an entry is a directory. -/
theorem at?_above (h : tree.at? location = some entry) (habove : above <+: location)
    (hne : above ≠ location) : tree.at? above = some .directory := by
  obtain ⟨names, rfl⟩ := habove
  exact at?_of_at?_append h (by simpa using hne)

/-- Below nothing there is nothing. -/
theorem at?_eq_none_below (h : tree.at? above = none) (habove : above <+: location) :
    tree.at? location = none := by
  by_contra hsome
  obtain ⟨entry, hentry⟩ := Option.ne_none_iff_exists'.mp hsome
  by_cases hne : above = location
  · rw [← hne, h] at hentry
    cases hentry
  · rw [at?_above hentry habove hne] at h
    cases h

/-- Bytes are found at a location exactly if a file with them is there. -/
theorem bytes?_eq_some_iff {bytes : ByteArray} :
    tree.bytes? location = some bytes ↔ tree.at? location = some (.file bytes) := by
  rw [bytes?, Option.bind_eq_some_iff]
  constructor
  · rintro ⟨entry, hentry, hbytes⟩
    cases entry with
    | file other => rwa [Option.some.inj hbytes] at hentry
    | directory => cases hbytes
  · exact fun h => ⟨_, h, rfl⟩

/-- No bytes are found where nothing or a directory is. -/
theorem bytes?_eq_none_iff :
    tree.bytes? location = none ↔
      tree.at? location = none ∨ tree.at? location = some .directory := by
  rw [bytes?]
  cases tree.at? location with
  | none => simp
  | some entry => cases entry <;> simp [FileEntry.bytes?]

/-- Two files of which one stands above the other are the same. -/
theorem eq_of_prefix_of_bytes? (habove : above <+: location) (h : (tree.bytes? above).isSome)
    (hlocation : tree.at? location ≠ none) : above = location := by
  obtain ⟨bytes, hbytes⟩ := Option.isSome_iff_exists.mp h
  obtain ⟨entry, hentry⟩ := Option.ne_none_iff_exists'.mp hlocation
  rw [bytes?_eq_some_iff] at hbytes
  by_contra hne
  rw [at?_above hentry habove hne] at hbytes
  cases hbytes

/-- No file stands at a location or on the way to it. -/
def IsClear (tree : FileTree) (location : Location) : Prop :=
  ∀ above, above <+: location → tree.bytes? above = none

instance (tree : FileTree) (location : Location) : Decidable (tree.IsClear location) :=
  decidable_of_iff (∀ above ∈ location.inits, tree.bytes? above = none) <| by
    simp [IsClear, List.mem_inits]

/-- Where the way down to a location is clear, so is the way to what is above it. -/
theorem IsClear.mono (h : tree.IsClear location) (habove : above <+: location) :
    tree.IsClear above := fun _ hhigher => h _ (hhigher.trans habove)

/-- The way to a directory is clear. -/
theorem isClear_of_directory (h : tree.at? location = some .directory) : tree.IsClear location := by
  intro above habove
  rw [bytes?_eq_none_iff]
  by_cases hne : above = location
  · exact Or.inr (hne ▸ h)
  · exact Or.inr (at?_above h habove hne)

/-- What is on a clear way is a directory. -/
theorem IsClear.eq_directory (h : tree.IsClear location) (hentry : tree.at? location = some entry) :
    entry = .directory := by
  have hnone := bytes?_eq_none_iff.mp (h location List.prefix_rfl)
  rw [hentry] at hnone
  simpa using hnone

/-- A clear way stays clear with another name that no file has. -/
theorem IsClear.concat (h : tree.IsClear location) {name : String}
    (hname : tree.bytes? (location ++ [name]) = none) : tree.IsClear (location ++ [name]) := by
  intro above habove
  rcases List.prefix_concat_iff.mp habove with rfl | habove
  · exact hname
  · exact h above habove

/-! ### The files of a tree -/

/-- The files of a tree are at the locations with bytes. -/
theorem mem_files : location ∈ tree.files ↔ (tree.bytes? location).isSome := by
  simp only [files, List.mem_map, List.mem_filter]
  constructor
  · rintro ⟨⟨key, entry⟩, ⟨hmem, hfile⟩, rfl⟩
    have hat : tree.at? key = some entry :=
      entryAt_of_mem tree.distinct (tree.topless _ hmem) hmem
    simpa [bytes?, hat] using hfile
  · intro h
    obtain ⟨bytes, hbytes⟩ := Option.isSome_iff_exists.mp h
    rw [bytes?_eq_some_iff] at hbytes
    have hne : location ≠ [] := by
      rintro rfl
      simp at hbytes
    exact ⟨(location, .file bytes), ⟨mem_of_entryAt hne hbytes, rfl⟩, rfl⟩

/-- No file is listed twice. -/
theorem nodup_files (tree : FileTree) : tree.files.Nodup :=
  tree.distinct.sublist (List.filter_sublist.map _)

/-- The files below a location are found by the names that lead down to them. -/
theorem mem_filesBelow {names : Location} :
    names ∈ tree.filesBelow location ↔ (tree.bytes? (location ++ names)).isSome := by
  simp only [filesBelow, List.mem_map, List.mem_filter, List.isPrefixOf_iff_prefix]
  constructor
  · rintro ⟨file, ⟨hfile, names, rfl⟩, rfl⟩
    rwa [List.drop_left, ← mem_files]
  · intro h
    exact ⟨location ++ names, ⟨mem_files.mpr h, List.prefix_append _ _⟩, List.drop_left⟩

/-- No file below a location is listed twice. -/
theorem nodup_filesBelow (tree : FileTree) (location : Location) :
    (tree.filesBelow location).Nodup := by
  refine List.Nodup.map_on ?_ (tree.nodup_files.filter _)
  simp only [List.mem_filter, List.isPrefixOf_iff_prefix]
  rintro first ⟨-, names, rfl⟩ second ⟨-, others, rfl⟩ h
  rw [List.drop_left, List.drop_left] at h
  rw [h]

/-! ### Where a path leads -/

/-- Segments are followed one part after the other. -/
theorem follow_append (tree : FileTree) (location : Location) (first second : List String) :
    tree.follow location (first ++ second) =
      tree.follow location first >>= fun reached => tree.follow reached second := by
  induction first generalizing location with
  | nil => rfl
  | cons segment segments ih =>
    rw [List.cons_append, follow, follow]
    cases tree.at? location with
    | none => rfl
    | some entry =>
      cases entry with
      | file bytes => rfl
      | directory =>
        simp only
        split
        · exact ih _
        · split
          · exact ih _
          · exact ih _

/-- Segments are followed from a directory only. -/
theorem at?_of_follow_cons {reached : Location} {segment : String} {segments : List String}
    (h : tree.follow location (segment :: segments) = .ok reached) :
    tree.at? location = some .directory := by
  rw [follow] at h
  split at h
  case h_1 => cases h
  case h_2 => cases h
  case h_3 hdirectory => exact hdirectory

/-- Where the first segments lead on the way along all of them. -/
theorem exists_of_follow_append {reached : Location} {first second : List String}
    (h : tree.follow location (first ++ second) = .ok reached) :
    ∃ middle, tree.follow location first = .ok middle ∧
      tree.follow middle second = .ok reached := by
  rw [follow_append] at h
  cases hfirst : tree.follow location first with
  | error error => simp [hfirst, bind, Except.bind] at h
  | ok middle => exact ⟨middle, rfl, by simpa [hfirst, bind, Except.bind] using h⟩

/-- Where a path leads is where its segments do. -/
theorem locate_eq_ok_iff {workingDirectory : Location} {path : Path} :
    tree.locate workingDirectory path = .ok location ↔ path.isEmpty = false ∧
      tree.follow (if path.rooted then [] else workingDirectory) path.segments = .ok location := by
  rw [locate]
  cases path.isEmpty <;> simp

/-- Following segments from a directory leads to their names, unless a location on the way is not a
directory. The first such location decides how it fails. -/
theorem follow_cases (hlocation : tree.at? location = some .directory) {segments : List String}
    (hup : ".." ∉ segments) :
    (tree.follow location segments = .ok (location ++ namesOf segments) ∧
        ∀ above, above <+: location ++ namesOf segments → above ≠ location ++ namesOf segments →
          tree.at? above = some .directory) ∨
      ∃ above, above <+: location ++ namesOf segments ∧
        (tree.at? above = none ∧ tree.IsClear above ∧
            tree.follow location segments = .error .missing ∨
          (tree.bytes? above).isSome ∧ tree.follow location segments = .error .notDirectory) := by
  induction segments generalizing location with
  | nil =>
    left
    rw [namesOf_nil, List.append_nil]
    exact ⟨rfl, fun above => at?_above hlocation⟩
  | cons segment segments ih =>
    obtain ⟨hne, hup⟩ : ".." ≠ segment ∧ ".." ∉ segments := by simpa using hup
    cases hidle : isIdleSegment segment with
    | true =>
      have hstep : tree.follow location (segment :: segments) = tree.follow location segments := by
        simp [follow, hlocation, hidle]
      rw [hstep, namesOf_cons_idle hidle]
      exact ih hlocation hup
    | false =>
      have hstep : tree.follow location (segment :: segments) =
          tree.follow (location ++ [segment]) segments := by
        simp [follow, hlocation, hidle, Ne.symm hne]
      rw [hstep, namesOf_cons hidle, List.append_cons location segment (namesOf segments)]
      cases segments with
      | nil =>
        left
        rw [namesOf_nil, List.append_nil]
        refine ⟨rfl, fun above habove hdiffer => ?_⟩
        rcases List.prefix_concat_iff.mp habove with rfl | habove
        · exact absurd rfl hdiffer
        · obtain rfl | hdiffer := eq_or_ne above location
          · exact hlocation
          · exact at?_above hlocation habove hdiffer
      | cons next segments =>
        cases hnext : tree.at? (location ++ [segment]) with
        | none =>
          refine Or.inr ⟨location ++ [segment], List.prefix_append _ _, Or.inl ⟨hnext, ?_, ?_⟩⟩
          · exact (isClear_of_directory hlocation).concat (bytes?_eq_none_iff.mpr (Or.inl hnext))
          · simp [follow, hnext]
        | some entry =>
          cases entry with
          | file bytes =>
            refine Or.inr ⟨location ++ [segment], List.prefix_append _ _, Or.inr ⟨?_, ?_⟩⟩
            · simp [bytes?_eq_some_iff.mpr hnext]
            · simp [follow, hnext]
          | directory => exact ih hnext hup

section Paths

variable {workingDirectory directory : Location} {path : Path} {name : String}

/-- Where a path starts is a directory. -/
theorem at?_start (hworking : tree.at? workingDirectory = some .directory) (path : Path) :
    tree.at? (if path.rooted then [] else workingDirectory) = some .directory := by
  split
  · exact at?_top tree
  · exact hworking

/-- A path that ends in a name has a place in a directory. -/
theorem exists_place_eq (hdescends : path.Descends) (hends : path.EndsInName)
    (workingDirectory : Location) :
    ∃ directory name, path.place workingDirectory = directory ++ [name] ∧ IsProperName name := by
  obtain ⟨above, name, hsegments, hname⟩ := hends
  refine ⟨(if path.rooted then [] else workingDirectory) ++ namesOf above, name, ?_, hname, ?_⟩
  · simp [Path.place, Path.names, hsegments, namesOf_singleton hname]
  · rintro rfl
    exact hdescends (by simp [hsegments])

/-- Finding the directory of a path follows all segments but the last. -/
theorem locateParent_eq {above : List String} (hempty : path.isEmpty = false)
    (hsegments : path.segments = above ++ [name]) :
    tree.locateParent workingDirectory path =
      (tree.follow (if path.rooted then [] else workingDirectory) above >>= fun reached =>
        match tree.at? reached with
        | none => .error .missing
        | some (.file _) => .error .notDirectory
        | some .directory => .ok (reached, name)) := by
  rw [locateParent, if_neg (by simp [hempty]), hsegments, List.dropLast_concat,
    List.getLast?_concat]
  rfl

/-- The directory of a path that ends in a name is found unless a location on the way to it is not a
directory. -/
theorem locateParent_cases (hworking : tree.at? workingDirectory = some .directory)
    (hdescends : path.Descends) (hends : path.EndsInName)
    (hplace : path.place workingDirectory = directory ++ [name]) :
    tree.at? directory = some .directory ∧
        tree.locateParent workingDirectory path = .ok (directory, name) ∨
      tree.at? directory = none ∧ tree.IsClear directory ∧
        tree.locateParent workingDirectory path = .error .missing ∨
      ¬tree.IsClear directory ∧ tree.locateParent workingDirectory path = .error .notDirectory := by
  have hempty := hends.isEmpty_eq_false
  obtain ⟨above, last, hsegments, hlast⟩ := hends
  have hup : ".." ∉ above := fun hup => hdescends (by simp [hsegments, hup])
  obtain ⟨hdirectory, rfl⟩ :
      (if path.rooted then [] else workingDirectory) ++ namesOf above = directory ∧
        last = name := by
    rw [Path.place, Path.names, hsegments, namesOf_append, namesOf_singleton hlast,
      ← List.append_assoc] at hplace
    obtain ⟨hdirectory, hlast⟩ := List.append_inj' hplace rfl
    exact ⟨hdirectory, List.singleton_inj.mp hlast⟩
  rw [locateParent_eq hempty hsegments]
  rcases follow_cases (at?_start hworking path) hup with ⟨hok, hhigher⟩ | ⟨higher, habove, hcases⟩
  · rw [hok]
    rw [hdirectory] at hhigher ⊢
    cases hat : tree.at? directory with
    | none =>
      refine Or.inr (Or.inl ⟨rfl, ?_, by simp [bind, Except.bind, hat]⟩)
      intro higher habove
      obtain rfl | hne := eq_or_ne higher directory
      · exact bytes?_eq_none_iff.mpr (Or.inl hat)
      · exact bytes?_eq_none_iff.mpr (Or.inr (hhigher higher habove hne))
    | some entry =>
      cases entry with
      | file bytes =>
        refine Or.inr (Or.inr ⟨fun hclear => ?_, by simp [bind, Except.bind, hat]⟩)
        cases hclear.eq_directory hat
      | directory => exact Or.inl ⟨rfl, by simp [bind, Except.bind, hat]⟩
  · rw [hdirectory] at habove
    rcases hcases with ⟨hnone, hclear, herror⟩ | ⟨hfile, herror⟩
    · refine Or.inr (Or.inl ⟨at?_eq_none_below hnone habove, ?_, by rw [herror]; rfl⟩)
      intro other hother
      rcases List.prefix_or_prefix_of_prefix hother habove with hother | hother
      · exact hclear other hother
      · exact bytes?_eq_none_iff.mpr (Or.inl (at?_eq_none_below hnone hother))
    · refine Or.inr (Or.inr ⟨fun hclear => ?_, by rw [herror]; rfl⟩)
      rw [hclear higher habove] at hfile
      cases hfile

/-- A location is not above the one that it is in. -/
theorem not_prefix_of_concat (directory : Location) (name : String) :
    ¬directory ++ [name] <+: directory := by
  intro h
  have hlength := h.length_le
  rw [List.length_append, List.length_singleton] at hlength
  omega

/-- Below a location that is not a directory there is nothing. -/
theorem at?_concat_eq_none (h : tree.at? directory ≠ some .directory) :
    tree.at? (directory ++ [name]) = none := by
  by_contra hsome
  obtain ⟨entry, hentry⟩ := Option.ne_none_iff_exists'.mp hsome
  exact h (at?_of_at?_append hentry (by simp))

/-- A path that ends in a name leads to that name in the directory before it. -/
theorem locate_eq_locateParent (hdescends : path.Descends) (hends : path.EndsInName) :
    tree.locate workingDirectory path =
      (tree.locateParent workingDirectory path).map fun parent => parent.1 ++ [parent.2] := by
  have hempty := hends.isEmpty_eq_false
  obtain ⟨above, name, hsegments, hname⟩ := hends
  have hne : name ≠ ".." := fun hup => hdescends (by simp [hsegments, hup])
  rw [locateParent_eq hempty hsegments, locate, if_neg (by simp [hempty]), hsegments, follow_append]
  cases tree.follow (if path.rooted then [] else workingDirectory) above with
  | error error => rfl
  | ok reached =>
    cases hat : tree.at? reached with
    | none => simp [bind, Except.bind, follow, hat, Except.map]
    | some entry => cases entry <;> simp [bind, Except.bind, follow, hat, hname, hne, Except.map]

/-- What a path that ends in a name leads to is what is at its place. -/
theorem find?_eq (hworking : tree.at? workingDirectory = some .directory)
    (hdescends : path.Descends) (hends : path.EndsInName) :
    tree.find? workingDirectory path = tree.at? (path.place workingDirectory) := by
  obtain ⟨directory, name, hplace, -⟩ := exists_place_eq hdescends hends workingDirectory
  rw [find?, locate_eq_locateParent hdescends hends, hplace]
  rcases locateParent_cases hworking hdescends hends hplace with
    ⟨-, hok⟩ | ⟨hnone, -, herror⟩ | ⟨hblocked, herror⟩
  · simp [hok, Except.map]
  · rw [herror, at?_concat_eq_none (by simp [hnone])]
    rfl
  · rw [herror, at?_concat_eq_none fun hat => hblocked (isClear_of_directory hat)]
    rfl

/-- What is at the place of a path that ends in a name is found. For an absolute path the working
directory does not matter. -/
theorem find?_of_at?_place (hdescends : path.Descends) (hends : path.EndsInName)
    (h : tree.at? (path.place workingDirectory) = some entry) :
    tree.find? workingDirectory path = some entry := by
  cases hrooted : path.rooted with
  | true =>
    have hanywhere : tree.find? workingDirectory path = tree.find? [] path := by
      simp only [find?, locate, hrooted, if_true]
    rw [hanywhere, find?_eq (at?_top tree) hdescends hends, ← h]
    simp only [Path.place, hrooted, if_true]
  | false =>
    have hplace : path.place workingDirectory = workingDirectory ++ path.names := by
      simp [Path.place, hrooted]
    have hworking := at?_of_at?_append (hplace ▸ h) hends.names_ne_nil
    rw [find?_eq hworking hdescends hends, h]

/-- A path to a directory leads to its place. -/
theorem locate_eq_place (hpath : path.isEmpty = false)
    (hworking : tree.at? workingDirectory = some .directory) (hdescends : path.Descends)
    (hdirectory : tree.at? (path.place workingDirectory) = some .directory) :
    tree.locate workingDirectory path = .ok (path.place workingDirectory) := by
  rw [locate, if_neg (by simp [hpath])]
  have hclear := isClear_of_directory hdirectory
  rcases follow_cases (at?_start hworking path) hdescends with ⟨hok, -⟩ | ⟨above, habove, hcases⟩
  · exact hok
  · rcases hcases with ⟨hnone, -, -⟩ | ⟨hfile, -⟩
    · rw [Path.place, Path.names, at?_eq_none_below hnone habove] at hdirectory
      cases hdirectory
    · rw [hclear above habove] at hfile
      cases hfile

/-- Wherever a path leads is its place. -/
theorem eq_place_of_locate (hworking : tree.at? workingDirectory = some .directory)
    (hdescends : path.Descends) (h : tree.locate workingDirectory path = .ok location) :
    location = path.place workingDirectory := by
  rw [locate] at h
  split at h
  · cases h
  · rcases follow_cases (at?_start hworking path) hdescends with ⟨hok, -⟩ | ⟨above, -, hcases⟩
    · rw [hok] at h
      exact (Except.ok.inj h).symm
    · rcases hcases with ⟨-, -, herror⟩ | ⟨-, herror⟩ <;> rw [herror] at h <;> cases h

/-- A path leads to a directory exactly if one is where it leads. -/
theorem isDirectory_iff_locate : tree.isDirectory workingDirectory path = true ↔
    ∃ location, tree.locate workingDirectory path = .ok location ∧
      tree.at? location = some .directory := by
  rw [isDirectory, decide_eq_true_iff, find?]
  cases tree.locate workingDirectory path <;> simp

/-- Without steps upwards a path leads to a directory exactly if one is at its place. -/
theorem isDirectory_iff (hpath : path.isEmpty = false)
    (hworking : tree.at? workingDirectory = some .directory) (hdescends : path.Descends) :
    tree.isDirectory workingDirectory path = true ↔
      tree.at? (path.place workingDirectory) = some .directory := by
  rw [isDirectory_iff_locate]
  constructor
  · rintro ⟨location, hlocate, hdirectory⟩
    rwa [← eq_place_of_locate hworking hdescends hlocate]
  · exact fun h => ⟨_, locate_eq_place hpath hworking hdescends h, h⟩

/-- A path that ends in a slash or a dot leads to a directory, if it leads anywhere. -/
theorem at?_of_locate_idle {above : List String} {segment : String}
    (hsegments : path.segments = above ++ [segment]) (hidle : isIdleSegment segment = true)
    (h : tree.locate workingDirectory path = .ok location) :
    tree.at? location = some .directory := by
  have hfollow := (locate_eq_ok_iff.mp h).2
  rw [hsegments] at hfollow
  obtain ⟨reached, -, hlast⟩ := exists_of_follow_append hfollow
  have hat := at?_of_follow_cons hlast
  simp only [follow, hat, hidle, if_true, Except.ok.injEq] at hlast
  rw [← hlast, hat]

/-- A path to a file ends in a name. -/
theorem endsInName_of_isFile (h : tree.isFile workingDirectory path = true) : path.EndsInName := by
  rw [isFile, find?] at h
  cases hlocate : tree.locate workingDirectory path with
  | error error => simp [hlocate] at h
  | ok location =>
    simp only [hlocate] at h
    rcases List.eq_nil_or_concat path.segments with hsegments | ⟨above, name, hsegments⟩
    · cases hrooted : path.rooted with
      | false => simp [locate, Path.isEmpty, hsegments, hrooted] at hlocate
      | true =>
        simp only [locate, Path.isEmpty, hsegments, hrooted, Bool.not_true, Bool.false_and,
          Bool.false_eq_true, if_false, if_true, follow, Except.ok.injEq] at hlocate
        simp [← hlocate, FileEntry.bytes?] at h
    · rw [List.concat_eq_append] at hsegments
      refine ⟨above, name, hsegments, ?_⟩
      by_contra hidle
      rw [at?_of_locate_idle hsegments (by simpa using hidle) hlocate] at h
      simp [FileEntry.bytes?] at h

/-- A path leads to a file exactly if it ends in a name and the file is at its place. -/
theorem isFile_iff (hworking : tree.at? workingDirectory = some .directory)
    (hdescends : path.Descends) :
    tree.isFile workingDirectory path = true ↔
      path.EndsInName ∧ (tree.bytes? (path.place workingDirectory)).isSome := by
  have hbytes (hends : path.EndsInName) : tree.isFile workingDirectory path =
      (tree.bytes? (path.place workingDirectory)).isSome := by
    rw [isFile, find?_eq hworking hdescends hends, bytes?]
    cases tree.at? (path.place workingDirectory) <;> simp
  constructor
  · intro h
    have hends := endsInName_of_isFile h
    exact ⟨hends, by rwa [← hbytes hends]⟩
  · rintro ⟨hends, h⟩
    rwa [hbytes hends]

/-- A path to a file leads to its place. -/
theorem locate_eq_place_of_file (hworking : tree.at? workingDirectory = some .directory)
    (hdescends : path.Descends) (hends : path.EndsInName)
    (h : (tree.bytes? (path.place workingDirectory)).isSome) :
    tree.locate workingDirectory path = .ok (path.place workingDirectory) := by
  have hfind := find?_eq hworking hdescends hends
  rw [find?] at hfind
  cases hlocate : tree.locate workingDirectory path with
  | error error =>
    simp only [hlocate] at hfind
    simp [bytes?, ← hfind] at h
  | ok location => rw [eq_place_of_locate hworking hdescends hlocate]

/-- Reading a path that ends in a name gives the bytes of the file at its place. -/
theorem read_eq_ok_iff (hworking : tree.at? workingDirectory = some .directory)
    (hdescends : path.Descends) (hends : path.EndsInName) {bytes : ByteArray} :
    tree.read workingDirectory path = .ok bytes ↔
      tree.bytes? (path.place workingDirectory) = some bytes := by
  rw [bytes?_eq_some_iff, ← find?_eq hworking hdescends hends, find?, read]
  cases tree.locate workingDirectory path with
  | error error => simp [bind, Except.bind]
  | ok location =>
    simp only [bind, Except.bind]
    cases tree.at? location with
    | none => simp
    | some entry => cases entry <;> simp

end Paths

end FileTree

end Menus
