import Menus.Path

/-!
# File trees

A file tree holds directories and files with their bytes; there are no links. It is a list of
locations with what is there, under some invariants: the top, which is always a directory, is not
listed, no location is listed twice, every name on the way to an entry is one that a path can
follow, and whatever has an entry below it is a directory.

Paths are followed segment by segment, as an operating system does: every segment but the last has
to lead to a directory, and so does the last one when a slash or a dot comes after it.
-/

namespace Menus

/-- A place in a file tree: the names on the way down from its top. -/
abbrev Location := List String

/-- What is found at a location. -/
inductive FileEntry where
  | file (bytes : ByteArray)
  | directory
  deriving Inhabited

namespace FileEntry

instance : DecidableEq FileEntry
  | .file first, .file second =>
    if h : first.data = second.data then isTrue (congrArg file (ByteArray.ext h))
    else isFalse fun e => h (congrArg ByteArray.data (FileEntry.file.inj e))
  | .directory, .directory => isTrue rfl
  | .file _, .directory => isFalse nofun
  | .directory, .file _ => isFalse nofun

/-- The bytes of a file. -/
def bytes? : FileEntry → Option ByteArray
  | .file bytes => some bytes
  | .directory => none

end FileEntry

/-- Why an operation on files fails. -/
inductive FileError where
  /-- There is nothing at the end of a path, or on the way to it. -/
  | missing
  /-- A path leads on from a file. -/
  | notDirectory
  /-- A directory stands where a file is needed. -/
  | isDirectory
  /-- A file stands where a directory is to be made. -/
  | alreadyExists
  /-- The bytes of a file are no text. -/
  | notText
  /-- What is to be copied is not a file. -/
  | notFile
  /-- A path without text was to be made absolute. -/
  | emptyPath
  /-- A document is not below the root it was found under. -/
  | outsideRoot
  /-- There is no directory to restore from. -/
  | noBackups
  deriving DecidableEq, Inhabited

/-- The wording shown to a user. -/
def FileError.message : FileError → String
  | .missing => "No such file or directory (os error 2)"
  | .notDirectory => "Not a directory (os error 20)"
  | .isDirectory => "Is a directory (os error 21)"
  | .alreadyExists => "File exists (os error 17)"
  | .notText => "stream did not contain valid UTF-8"
  | .notFile => "the source path is neither a regular file nor a symlink to a regular file"
  | .emptyPath => "cannot make an empty path absolute"
  | .outsideRoot => "document lies outside its discovery root"
  | .noBackups => "backup directory not found"

/-- Whether an entry of a directory can have a name: it does not stand for the directory itself or
the one above. -/
def IsProperName (name : String) : Prop := isIdleSegment name = false ∧ name ≠ ".."

instance (name : String) : Decidable (IsProperName name) := inferInstanceAs (Decidable (_ ∧ _))

/-- What a list of entries has at a location. -/
def entryAt (entries : List (Location × FileEntry)) (location : Location) : Option FileEntry :=
  if location = [] then some .directory else entries.lookup location

/-- A file tree. -/
structure FileTree where
  entries : List (Location × FileEntry)
  /-- The top is not listed. -/
  topless : ∀ entry ∈ entries, entry.1 ≠ []
  /-- No location is listed twice. -/
  distinct : (entries.map Prod.fst).Nodup
  /-- Every name on the way to an entry leads there. -/
  named : ∀ entry ∈ entries, ∀ name ∈ entry.1, IsProperName name
  /-- Whatever has an entry below it is a directory. -/
  closed : ∀ location name, (entryAt entries (location ++ [name])).isSome →
    entryAt entries location = some .directory

/-- Taking out what a test on locations rejects keeps what is at every other location. -/
theorem lookup_filter (entries : List (Location × FileEntry)) (keep : Location → Bool)
    (location : Location) :
    (entries.filter fun entry => keep entry.1).lookup location =
      if keep location then entries.lookup location else none := by
  induction entries with
  | nil => simp
  | cons entry entries ih =>
    obtain ⟨key, value⟩ := entry
    by_cases hkey : location = key
    · subst hkey
      by_cases hkeep : keep location <;> simp [hkeep, ih]
    · have hne : (location == key) = false := beq_false_of_ne hkey
      by_cases hkeep : keep key <;> simp [List.lookup_cons, hkeep, hne, ih]

/-- What has an entry at a location lists it. -/
theorem mem_of_entryAt {entries : List (Location × FileEntry)} {location : Location}
    {entry : FileEntry} (hlocation : location ≠ []) (h : entryAt entries location = some entry) :
    (location, entry) ∈ entries := by
  rw [entryAt, if_neg hlocation, List.lookup_eq_some_iff] at h
  obtain ⟨before, after, rfl, -⟩ := h
  simp

/-- What is listed once is found at its location. -/
theorem entryAt_of_mem {entries : List (Location × FileEntry)}
    (hdistinct : (entries.map Prod.fst).Nodup) {location : Location} {entry : FileEntry}
    (hlocation : location ≠ []) (h : (location, entry) ∈ entries) :
    entryAt entries location = some entry := by
  obtain ⟨before, after, rfl⟩ := List.append_of_mem h
  rw [entryAt, if_neg hlocation, List.lookup_eq_some_iff]
  refine ⟨before, after, rfl, fun other hother => ?_⟩
  rw [List.map_append, List.nodup_append] at hdistinct
  have hne := hdistinct.2.2 other.1 (List.mem_map_of_mem hother) location (by simp)
  simpa using Ne.symm hne

/-- An entry in place of the one at its location, if there is one. -/
def replaceEntry (entries : List (Location × FileEntry)) (location : Location)
    (entry : FileEntry) : List (Location × FileEntry) :=
  (location, entry) :: entries.filter fun other => !(other.1 == location)

/-- After a replacement the new entry is at its location and nothing else has changed. -/
theorem entryAt_replaceEntry (entries : List (Location × FileEntry)) {location : Location}
    (hlocation : location ≠ []) (entry : FileEntry) (other : Location) :
    entryAt (replaceEntry entries location entry) other =
      if other = location then some entry else entryAt entries other := by
  unfold entryAt replaceEntry
  by_cases htop : other = []
  · simp [htop, Ne.symm hlocation]
  · by_cases hother : other = location
    · simp [hother, hlocation]
    · have hne : (other == location) = false := beq_false_of_ne hother
      rw [List.lookup_cons, lookup_filter entries fun key => !(key == location)]
      simp [htop, hother, hne]

/-- A replacement lists no location twice. -/
theorem nodup_replaceEntry {entries : List (Location × FileEntry)}
    (hdistinct : (entries.map Prod.fst).Nodup) (location : Location) (entry : FileEntry) :
    ((replaceEntry entries location entry).map Prod.fst).Nodup := by
  unfold replaceEntry
  rw [List.map_cons, List.nodup_cons]
  constructor
  · simp
  · exact hdistinct.sublist (List.filter_sublist.map _)

/-- The names of a replacement are those of its location and of the other entries. -/
theorem named_replaceEntry {entries : List (Location × FileEntry)}
    (hnamed : ∀ entry ∈ entries, ∀ name ∈ entry.1, IsProperName name) {location : Location}
    (hlocation : ∀ name ∈ location, IsProperName name) (entry : FileEntry) :
    ∀ other ∈ replaceEntry entries location entry, ∀ name ∈ other.1, IsProperName name := by
  intro other hother
  rcases List.mem_cons.mp hother with rfl | hother
  · exact hlocation
  · exact hnamed other (List.mem_filter.mp hother).1

namespace FileTree

/-- What is at a location. -/
def at? (tree : FileTree) (location : Location) : Option FileEntry := entryAt tree.entries location

/-- The names on the way to what is in a tree lead there. -/
theorem isProperName_of_at? {tree : FileTree} {location : Location} {entry : FileEntry}
    (h : tree.at? location = some entry) : ∀ name ∈ location, IsProperName name := by
  by_cases htop : location = []
  · simp [htop]
  · exact tree.named _ (mem_of_entryAt htop h)

/-- The tree that holds nothing but its top. -/
def empty : FileTree where
  entries := []
  topless := by simp
  distinct := List.nodup_nil
  named := by simp
  closed := by simp [entryAt]

instance : Inhabited FileTree := ⟨empty⟩

/-- The bytes of the file at a location. -/
def bytes? (tree : FileTree) (location : Location) : Option ByteArray :=
  (tree.at? location).bind FileEntry.bytes?

/-- The locations of all files. -/
def files (tree : FileTree) : List Location :=
  (tree.entries.filter fun entry => entry.2.bytes?.isSome).map Prod.fst

/-- Whether a directory can take an entry: it is there, the entry can have its name, and nothing is
replaced but a file by a file. -/
def Takes (tree : FileTree) (directory : Location) (name : String) (entry : FileEntry) : Prop :=
  tree.at? directory = some .directory ∧ IsProperName name ∧
    (tree.at? (directory ++ [name]) = none ∨
      (tree.at? (directory ++ [name])).any (·.bytes?.isSome) ∧ entry.bytes?.isSome)

instance (tree : FileTree) (directory : Location) (name : String) (entry : FileEntry) :
    Decidable (tree.Takes directory name entry) := inferInstanceAs (Decidable (_ ∧ _))

/-- Put an entry into a directory. The tree stays as it is when the directory cannot take it. -/
def put (tree : FileTree) (directory : Location) (name : String) (entry : FileEntry) : FileTree :=
  if h : tree.Takes directory name entry then
    { entries := replaceEntry tree.entries (directory ++ [name]) entry
      topless := by
        intro other hother
        rcases List.mem_cons.mp hother with rfl | hother
        · simp
        · exact tree.topless other (List.mem_filter.mp hother).1
      distinct := nodup_replaceEntry tree.distinct _ _
      named := by
        apply named_replaceEntry tree.named
        intro other hother
        rcases List.mem_append.mp hother with hother | hother
        · exact isProperName_of_at? h.1 other hother
        · rw [List.mem_singleton.mp hother]
          exact h.2.1
      closed := by
        intro location below hbelow
        rw [entryAt_replaceEntry _ (by simp)] at hbelow ⊢
        by_cases hsame : location ++ [below] = directory ++ [name]
        · obtain ⟨rfl, -⟩ := List.append_inj' hsame rfl
          simpa [at?] using h.1
        · rw [if_neg hsame] at hbelow
          have hparent := tree.closed location below hbelow
          by_cases htarget : location = directory ++ [name]
          · subst htarget
            rcases h.2.2 with hnone | ⟨hfile, -⟩
            · rw [at?, hparent] at hnone
              cases hnone
            · simp [at?, hparent, FileEntry.bytes?] at hfile
          · rw [if_neg htarget]
            exact hparent }
  else tree

/-- An entry that a directory takes is there afterwards, and nothing else has changed. -/
theorem at?_put {tree : FileTree} {directory : Location} {name : String} {entry : FileEntry}
    (htakes : tree.Takes directory name entry) (location : Location) :
    (tree.put directory name entry).at? location =
      if location = directory ++ [name] then some entry else tree.at? location := by
  rw [put, dif_pos htakes]
  exact entryAt_replaceEntry _ (by simp) _ _

/-- Take out a location with everything below it. -/
def remove (tree : FileTree) (location : Location) : FileTree where
  entries := tree.entries.filter fun entry => !location.isPrefixOf entry.1
  distinct := tree.distinct.sublist (List.filter_sublist.map _)
  topless := fun entry hentry => tree.topless entry (List.mem_filter.mp hentry).1
  named := fun entry hentry => tree.named entry (List.mem_filter.mp hentry).1
  closed := by
    intro other name hbelow
    unfold entryAt at hbelow ⊢
    rw [lookup_filter tree.entries fun key => !location.isPrefixOf key] at hbelow ⊢
    cases hkept : location.isPrefixOf (other ++ [name]) with
    | true => simp [hkept] at hbelow
    | false =>
      have hparent := tree.closed other name (by simpa [entryAt, hkept] using hbelow)
      cases hother : location.isPrefixOf other with
      | true =>
        have habove :=
          (List.isPrefixOf_iff_prefix.mp hother).trans (List.prefix_append other [name])
        rw [List.isPrefixOf_iff_prefix.mpr habove] at hkept
        cases hkept
      | false => simpa [hother, entryAt] using hparent

/-- Follow segments from a location on. The last one may lead to nothing. -/
def follow (tree : FileTree) (location : Location) : List String → Except FileError Location
  | [] => .ok location
  | segment :: segments =>
    match tree.at? location with
    | none => .error .missing
    | some (.file _) => .error .notDirectory
    | some .directory =>
      if isIdleSegment segment then tree.follow location segments
      else if segment = ".." then tree.follow location.dropLast segments
      else tree.follow (location ++ [segment]) segments

/-- Where a path leads from a working directory. -/
def locate (tree : FileTree) (workingDirectory : Location) (path : Path) :
    Except FileError Location :=
  if path.isEmpty then .error .missing
  else tree.follow (if path.rooted then [] else workingDirectory) path.segments

/-- What is at the end of a path. -/
def find? (tree : FileTree) (workingDirectory : Location) (path : Path) : Option FileEntry :=
  match tree.locate workingDirectory path with
  | .error _ => none
  | .ok location => tree.at? location

/-- Whether a path leads to something. -/
def exists? (tree : FileTree) (workingDirectory : Location) (path : Path) : Bool :=
  (tree.find? workingDirectory path).isSome

/-- Whether a path leads to a file. -/
def isFile (tree : FileTree) (workingDirectory : Location) (path : Path) : Bool :=
  (tree.find? workingDirectory path).any (·.bytes?.isSome)

/-- Whether a path leads to a directory. -/
def isDirectory (tree : FileTree) (workingDirectory : Location) (path : Path) : Bool :=
  tree.find? workingDirectory path = some .directory

/-- The bytes of the file that a path leads to. -/
def read (tree : FileTree) (workingDirectory : Location) (path : Path) :
    Except FileError ByteArray := do
  let location ← tree.locate workingDirectory path
  match tree.at? location with
  | none => .error .missing
  | some .directory => .error .isDirectory
  | some (.file bytes) => .ok bytes

/-- The text of the file that a path leads to. -/
def readText (tree : FileTree) (workingDirectory : Location) (path : Path) :
    Except FileError String := do
  match String.fromUTF8? (← tree.read workingDirectory path) with
  | some text => .ok text
  | none => .error .notText

/-- The directory that holds the end of a path, and the last segment. -/
def locateParent (tree : FileTree) (workingDirectory : Location) (path : Path) :
    Except FileError (Location × String) :=
  if path.isEmpty then .error .missing
  else do
    let start := if path.rooted then [] else workingDirectory
    let directory ← tree.follow start path.segments.dropLast
    match tree.at? directory with
    | none => .error .missing
    | some (.file _) => .error .notDirectory
    | some .directory => .ok (directory, path.segments.getLast?.getD "")

/-- Write the bytes of a file, which is made if it is missing. A path with a slash at its end names
a directory, whatever is there. -/
def write (tree : FileTree) (workingDirectory : Location) (path : Path) (bytes : ByteArray) :
    Except FileError FileTree := do
  let (directory, name) ← tree.locateParent workingDirectory path.dropSlashes
  if path.endsInSlash then .error .isDirectory
  else if isIdleSegment name || name = ".." then .error .isDirectory
  else if tree.at? (directory ++ [name]) = some .directory then .error .isDirectory
  else .ok (tree.put directory name (.file bytes))

/-- Make a directory in one that is there. -/
def makeDirectory (tree : FileTree) (workingDirectory : Location) (path : Path) :
    Except FileError FileTree := do
  let (directory, name) ← tree.locateParent workingDirectory path.trimEnd
  if isIdleSegment name || name = ".." then .error .alreadyExists
  else if (tree.at? (directory ++ [name])).isSome then .error .alreadyExists
  else .ok (tree.put directory name .directory)

/-- Make the first of some directories, each of which is the parent of the one before it; parents
that are missing are made first. The tree is given also when this fails, with the parents that were
made. -/
def makeDirectoriesOf (tree : FileTree) (workingDirectory : Location) :
    List Path → Except FileError Unit × FileTree
  | [] => (.ok (), tree)
  | path :: parents =>
    if path.parent?.isNone then (.ok (), tree)
    else
      match tree.makeDirectory workingDirectory path with
      | .ok made => (.ok (), made)
      | .error .alreadyExists =>
        (if tree.isDirectory workingDirectory path then .ok () else .error .alreadyExists, tree)
      | .error .missing =>
        match tree.makeDirectoriesOf workingDirectory parents with
        | (.error error, tree) => (.error error, tree)
        | (.ok (), tree) =>
          match tree.makeDirectory workingDirectory path with
          | .ok made => (.ok (), made)
          | .error error =>
            (if tree.isDirectory workingDirectory path then .ok () else .error error, tree)
      | .error error => (.error error, tree)

/-- Make a directory with all of its parents. -/
def makeDirectories (tree : FileTree) (workingDirectory : Location) (path : Path) :
    Except FileError Unit × FileTree :=
  tree.makeDirectoriesOf workingDirectory path.ancestors

/-- Copy a file. The target is emptied before the source is read, so a file that is copied onto
itself loses its bytes. -/
def copy (tree : FileTree) (workingDirectory : Location) (source target : Path) :
    Except FileError FileTree := do
  let location ← tree.locate workingDirectory source
  match tree.at? location with
  | none => .error .missing
  | some .directory => .error .notFile
  | some (.file _) =>
    let emptied ← tree.write workingDirectory target .empty
    emptied.write workingDirectory target ((emptied.bytes? location).getD .empty)

/-- The names that lead from a location down to each file below it, in no particular order. -/
def filesBelow (tree : FileTree) (location : Location) : List Location :=
  (tree.files.filter location.isPrefixOf).map (·.drop location.length)

end FileTree

end Menus
