import Menus.Proofs.Footprint
import Menus.Proofs.Recollecting

/-!
# Writing over files

Writing and copying keep every file a file and every directory a directory, so that a path which
leads to a file goes on leading to one. Such a path can be written over, and no directory is made
for it, whatever steps upwards it has.
-/

namespace Menus

namespace FileTree

variable {tree middle after : FileTree} {workingDirectory location : Location} {path : Path}

/-! ### What is kept -/

/-- A tree keeps what it is. -/
theorem Keeps.refl (tree : FileTree) : tree.Keeps tree := ⟨fun _ => id, fun _ => id⟩

/-- What two steps keep is kept by both together. -/
theorem Keeps.trans (h : tree.Keeps middle) (hafter : middle.Keeps after) : tree.Keeps after :=
  ⟨fun location hdirectory => hafter.directory location (h.directory location hdirectory),
    fun location hfile => hafter.file location (h.file location hfile)⟩

/-- Adding directories keeps files and directories. -/
theorem AddsDirectories.keeps (h : tree.AddsDirectories after) : tree.Keeps after :=
  ⟨fun _ => h.at?_eq, fun location => by rw [h.bytes?_eq]; exact id⟩

/-- Nothing but a file is replaced, and only by another one. -/
theorem keeps_put (tree : FileTree) (directory : Location) (name : String) (entry : FileEntry) :
    tree.Keeps (tree.put directory name entry) := by
  by_cases htakes : tree.Takes directory name entry
  case neg =>
    rw [put, dif_neg htakes]
    exact .refl tree
  case pos =>
    constructor
    · intro location hdirectory
      rw [at?_put htakes, if_neg, hdirectory]
      rintro rfl
      rcases htakes.2.2 with hnone | ⟨hfile, -⟩
      · rw [hnone] at hdirectory
        cases hdirectory
      · simp [hdirectory, FileEntry.bytes?] at hfile
    · intro location hfile
      rw [bytes?, at?_put htakes]
      split
      case isFalse => exact hfile
      case isTrue hplace =>
        rcases htakes.2.2 with hnone | ⟨-, hentry⟩
        · rw [hplace, bytes?, hnone] at hfile
          cases hfile
        · exact hentry

/-- Writing a file keeps files and directories. -/
theorem keeps_of_write {bytes : ByteArray}
    (h : tree.write workingDirectory path bytes = .ok after) : tree.Keeps after := by
  obtain ⟨directory, name, -, -, -, rfl⟩ := write_eq_ok h
  exact keeps_put tree directory name _

/-- Segments that can be followed still can. -/
theorem Keeps.follow_eq (h : tree.Keeps after) {segments : List String} {reached : Location}
    (hfollow : tree.follow location segments = .ok reached) :
    after.follow location segments = .ok reached := by
  induction segments generalizing location with
  | nil => exact hfollow
  | cons segment segments ih =>
    have hdirectory := at?_of_follow_cons hfollow
    simp only [follow, hdirectory] at hfollow
    simp only [follow, h.directory _ hdirectory]
    split at hfollow
    case isTrue hidle => rw [if_pos hidle, ih hfollow]
    case isFalse hname =>
      rw [if_neg hname]
      split at hfollow
      case isTrue hup => rw [if_pos hup, ih hfollow]
      case isFalse hdown => rw [if_neg hdown, ih hfollow]

/-- A path still leads where it led. -/
theorem Keeps.locate_eq (h : tree.Keeps after)
    (hlocate : tree.locate workingDirectory path = .ok location) :
    after.locate workingDirectory path = .ok location := by
  obtain ⟨hempty, hfollow⟩ := locate_eq_ok_iff.mp hlocate
  exact locate_eq_ok_iff.mpr ⟨hempty, h.follow_eq hfollow⟩

/-- A path that leads to a file still leads to one. -/
theorem Keeps.isFile (h : tree.Keeps after) (hfile : tree.isFile workingDirectory path = true) :
    after.isFile workingDirectory path = true := by
  obtain ⟨hlocate, hbytes⟩ := isFile_iff_locate.mp hfile
  exact isFile_iff_locate.mpr ⟨h.locate_eq hlocate, h.file _ hbytes⟩

/-! ### Paths to files -/

/-- A path that was written leads to a file. -/
theorem isFile_of_write {bytes : ByteArray}
    (h : tree.write workingDirectory path bytes = .ok after) :
    after.isFile workingDirectory path = true := by
  have hkeeps := keeps_of_write h
  have hview := withEntry_of_write h
  obtain ⟨directory, name, hparent, hslash, htakes, -⟩ := write_eq_ok h
  obtain ⟨hempty, hdirectory, above, hsegments, hreached⟩ :=
    exists_of_locateParent hparent htakes.2.1.1
  have hdrop := Path.dropSlashes_eq_self hslash hempty
  rw [hdrop] at hempty hsegments hreached
  have hresolved : path.resolved workingDirectory = directory ++ [name] := by
    rw [← Path.resolved_dropSlashes]
    exact (resolved_eq_of_locateParent hparent htakes.2.1.1 htakes.2.1.2).2
  refine isFile_iff_locate.mpr ⟨locate_eq_ok_iff.mpr ⟨hempty, ?_⟩, ?_⟩
  · rw [hsegments, hresolved, follow_append, hkeeps.follow_eq hreached]
    simp [bind, Except.bind, follow, hkeeps.directory _ hdirectory, htakes.2.1.1, htakes.2.1.2]
  · rw [bytes?, hview, if_pos rfl]
    rfl

/-! ### Room for a file -/

/-- A directory is one also without what its path ends in after the last name. -/
theorem isDirectory_trimEnd
    (hfollow : tree.follow (if path.rooted then [] else workingDirectory) path.segments =
      .ok location)
    (hdirectory : tree.at? location = some .directory) :
    path.trimEnd.parent? = none ∨ tree.isDirectory workingDirectory path.trimEnd = true := by
  rcases locate_trimEnd hfollow hdirectory with ⟨hempty, -⟩ | hlocate
  · exact Or.inl (by rw [hempty]; rfl)
  · exact Or.inr (isDirectory_iff_locate.mpr ⟨location, hlocate, hdirectory⟩)

end FileTree

variable {tree after : FileTree} {workingDirectory : Location} {source target : Path} {disk : Disk}

/-- There is room for a file that is there. -/
theorem makeRoom_of_isFile (h : tree.isFile workingDirectory target = true) :
    makeRoom tree workingDirectory target = (.ok (), tree) := by
  obtain ⟨directory, name, hparent, hname, -, above, hsegments, hreached⟩ :=
    FileTree.exists_directory_of_isFile h
  have hdirectory := (FileTree.resolved_eq_of_locateParent hparent hname.1 hname.2).1
  have hroom : (Path.trimEnd ⟨target.rooted, above⟩).parent? = none ∨
      tree.isDirectory workingDirectory (Path.trimEnd ⟨target.rooted, above⟩) = true :=
    FileTree.isDirectory_trimEnd hreached hdirectory
  obtain ⟨others, hothers⟩ := Path.exists_ancestors_eq (Path.trimEnd ⟨target.rooted, above⟩)
  simp only [makeRoom, Path.parent?_eq hsegments hname.1 namesOf_nil, FileTree.makeDirectories,
    hothers, FileTree.makeDirectoriesOf_of_isDirectory hroom]
  rfl

/-! ### Copying -/

/-- A copy keeps what is there, and the file at the target has the bytes of the source then. -/
theorem copyInto_eq_ok (h : copyInto tree workingDirectory source target disk = (.ok (), after))
    (hapart : source.resolved workingDirectory ≠ target.resolved workingDirectory) :
    tree.Keeps after ∧ after.isFile workingDirectory source = true ∧
      after.isFile workingDirectory target = true ∧
      ∀ location, after.bytes? location =
        if location = target.resolved workingDirectory then
          tree.bytes? (source.resolved workingDirectory)
        else tree.bytes? location := by
  rcases copyInto_cases tree workingDirectory source target disk with
    ⟨error, other, hcopy, -⟩ | ⟨middle, other, hcopy, hmade, hcopied⟩
  · rw [hcopy] at h
    cases h
  · obtain rfl : other = after := by
      rw [hcopy] at h
      exact (Prod.mk.inj h).2
    obtain ⟨hsource, emptied, hemptied, hwritten⟩ := FileTree.copy_eq_ok hcopied
    have hkeeps := (FileTree.keeps_of_write hemptied).trans (FileTree.keeps_of_write hwritten)
    refine ⟨hmade.keeps.trans hkeeps, hkeeps.isFile hsource, FileTree.isFile_of_write hwritten, ?_⟩
    intro location
    have hsourceKept : emptied.bytes? (source.resolved workingDirectory) =
        tree.bytes? (source.resolved workingDirectory) := by
      rw [FileTree.bytes?, FileTree.withEntry_of_write hemptied, if_neg hapart, ← FileTree.bytes?,
        hmade.bytes?_eq]
    split
    case isTrue hplace =>
      obtain ⟨bytes, hbytes⟩ :=
        Option.isSome_iff_exists.mp (FileTree.isFile_iff_locate.mp hsource).2
      rw [hmade.bytes?_eq] at hbytes
      rw [FileTree.bytes?, FileTree.withEntry_of_write hwritten, if_pos hplace, hsourceKept, hbytes]
      rfl
    case isFalse hplace =>
      rw [FileTree.bytes?, FileTree.withEntry_of_write hwritten, if_neg hplace,
        FileTree.withEntry_of_write hemptied, if_neg hplace, ← FileTree.bytes?, hmade.bytes?_eq]

/-- One file is copied over another. -/
theorem exists_copyInto_over (hsource : tree.isFile workingDirectory source = true)
    (htarget : tree.isFile workingDirectory target = true)
    (hapart : source.resolved workingDirectory ≠ target.resolved workingDirectory) :
    ∃ copied, copyInto tree workingDirectory source target = (.ok (), copied) ∧
      ∀ location, copied.at? location =
        if location = target.resolved workingDirectory then
          tree.at? (source.resolved workingDirectory)
        else tree.at? location := by
  obtain ⟨hlocate, hbytes⟩ := FileTree.isFile_iff_locate.mp hsource
  obtain ⟨bytes, hbytes⟩ := Option.isSome_iff_exists.mp hbytes
  have hfile := FileTree.bytes?_eq_some_iff.mp hbytes
  obtain ⟨emptied, hemptied, hemptiedView⟩ := FileTree.exists_write_over htarget .empty
  obtain ⟨copied, hcopied, hcopiedView⟩ :=
    FileTree.exists_write_over (FileTree.isFile_of_write hemptied) bytes
  have hkept : emptied.bytes? (source.resolved workingDirectory) = some bytes := by
    rw [FileTree.bytes?, hemptiedView, if_neg hapart, ← FileTree.bytes?, hbytes]
  refine ⟨copied, ?_, fun location => ?_⟩
  · rw [copyInto, makeRoom_of_isFile htarget]
    simp [FileTree.copy, hlocate, hfile, hemptied, hkept, hcopied, bind, Except.bind]
  · rw [hcopiedView, hemptiedView, hfile]
    split <;> rfl

end Menus
