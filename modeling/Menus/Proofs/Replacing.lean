import Menus.Disk
import Menus.Proofs.Resolving
import Menus.Proofs.TreeChanges
import Mathlib.Data.List.Perm.Subperm

/-!
# Replacing the bytes of a file

A file gets new bytes by way of a temporary file beside it, and any step of that may be refused by
the disk. Either the file has all of its new bytes then and nothing else has changed, or everything
is as before, except that the temporary file may be left. On a disk that refuses nothing, replacing
the bytes of a file comes to writing them in its place.
-/

namespace Menus

namespace FileTree

variable {tree : FileTree} {workingDirectory location directory : Location} {path : Path}
  {name : String} {bytes : ByteArray} {disk : Disk}

/-! ### Paths to files -/

/-- A path to a file ends in the name of the file in its directory. -/
theorem exists_directory_of_isFile (h : tree.isFile workingDirectory path = true) :
    ∃ directory name, tree.locateParent workingDirectory path = .ok (directory, name) ∧
      IsProperName name ∧ path.resolved workingDirectory = directory ++ [name] ∧
      ∃ above, path.segments = above ++ [name] ∧
        tree.follow (if path.rooted then [] else workingDirectory) above = .ok directory := by
  obtain ⟨hlocate, hbytes⟩ := isFile_iff_locate.mp h
  obtain ⟨hempty, hfollow⟩ := locate_eq_ok_iff.mp hlocate
  obtain ⟨above, name, hsegments, hname⟩ := endsInName_of_isFile h
  rw [hsegments] at hfollow
  obtain ⟨directory, hreached, hlast⟩ := exists_of_follow_append hfollow
  have hdirectory := at?_of_follow_cons hlast
  simp only [follow, hdirectory, hname, Bool.false_eq_true, if_false] at hlast
  have hup : name ≠ ".." := by
    rintro rfl
    obtain ⟨bytes, hbytes⟩ := Option.isSome_iff_exists.mp hbytes
    rw [bytes?_eq_some_iff, ← Except.ok.inj hlast] at hbytes
    rcases List.eq_nil_or_concat directory with rfl | ⟨higher, below, rfl⟩
    · simp at hbytes
    · simp only [List.concat_eq_append, List.dropLast_concat] at hbytes hdirectory
      rw [at?_of_at?_append hdirectory (by simp)] at hbytes
      cases hbytes
  rw [if_neg hup] at hlast
  refine ⟨directory, name, ?_, ⟨hname, hup⟩, (Except.ok.inj hlast).symm, above, hsegments, hreached⟩
  rw [locateParent_eq hempty hsegments, hreached]
  simp [bind, Except.bind, hdirectory]

/-- Where there is a file, another one can be written. -/
theorem exists_write_over (h : tree.isFile workingDirectory path = true) (bytes : ByteArray) :
    ∃ written, tree.write workingDirectory path bytes = .ok written ∧
      tree.WithEntry (path.resolved workingDirectory) (.file bytes) written := by
  obtain ⟨directory, name, hparent, hname, hresolved, -⟩ := exists_directory_of_isFile h
  have hends := endsInName_of_isFile h
  obtain ⟨old, hold⟩ := Option.isSome_iff_exists.mp (isFile_iff_locate.mp h).2
  rw [bytes?_eq_some_iff, hresolved] at hold
  have hwritten : tree.write workingDirectory path bytes =
      .ok (tree.put directory name (.file bytes)) := by
    simp [write, hends.dropSlashes_eq_self, hparent, bind, Except.bind, hends.endsInSlash_eq_false,
      hname.1, hname.2, hold]
  have htakes : tree.Takes directory name (.file bytes) :=
    takes_file (at?_of_at?_append hold (by simp)) hname (by simp [hold]) bytes
  refine ⟨_, hwritten, fun other => ?_⟩
  rw [at?_put htakes, hresolved]

/-- A path that is followed to a directory is followed to it without what comes after its last name,
unless nothing is left of the path. -/
theorem locate_trimEnd
    (hfollow : tree.follow (if path.rooted then [] else workingDirectory) path.segments =
      .ok location)
    (hdirectory : tree.at? location = some .directory) :
    path.trimEnd = .empty ∧ location = workingDirectory ∨
      tree.locate workingDirectory path.trimEnd = .ok location := by
  have hresolve := eq_resolve_of_follow hfollow
  rcases Path.trimEnd_cases path with
    ⟨hnames, htrim⟩ | ⟨above, name, rest, hsegments, hname, hrest, htrim⟩
  · rw [← Path.names, hnames, resolve_nil] at hresolve
    by_cases hhere : path.startsHere = true
    · right
      obtain ⟨hrooted, -⟩ := Path.exists_of_startsHere hhere
      rw [hrooted, if_neg (by simp)] at hresolve
      rw [hresolve] at hdirectory ⊢
      rw [htrim, if_pos hhere]
      simp [locate, hrooted, Path.isEmpty, follow, hdirectory, isIdleSegment]
    · rw [htrim, if_neg hhere]
      cases hrooted : path.rooted with
      | true =>
        right
        rw [hrooted, if_pos rfl] at hresolve
        simp [locate, Path.isEmpty, follow, hresolve]
      | false =>
        rw [hrooted, if_neg (by simp)] at hresolve
        exact Or.inl ⟨rfl, hresolve⟩
  · right
    rw [hsegments, List.append_cons] at hfollow
    obtain ⟨reached, hreached, hlast⟩ := exists_of_follow_append hfollow
    obtain rfl : location = reached := by rw [eq_resolve_of_follow hlast, hrest, resolve_nil]
    refine locate_eq_ok_iff.mpr ⟨Path.isEmpty_of_names ?_, by rwa [htrim]⟩
    simp [htrim, Path.names, namesOf_singleton hname]

/-- The directory that is written for a file is the one that the file is in. -/
theorem locate_holder (h : tree.isFile workingDirectory path = true) :
    ∃ directory name, tree.locate workingDirectory path.holder = .ok directory ∧
      tree.at? directory = some .directory ∧
      path.resolved workingDirectory = directory ++ [name] := by
  obtain ⟨directory, name, -, hname, hresolved, above, hsegments, hreached⟩ :=
    exists_directory_of_isFile h
  obtain ⟨bytes, hbytes⟩ := Option.isSome_iff_exists.mp (isFile_iff_locate.mp h).2
  rw [bytes?_eq_some_iff, hresolved] at hbytes
  have hdirectory := at?_of_at?_append hbytes (by simp)
  refine ⟨directory, name, ?_, hdirectory, hresolved⟩
  rw [Path.holder, Path.parent?_eq hsegments hname.1 namesOf_nil]
  rcases @locate_trimEnd tree workingDirectory directory ⟨path.rooted, above⟩ hreached
    hdirectory with
    ⟨hempty, rfl⟩ | hlocate
  · simp [hempty, Path.isEmpty, Path.empty, locate, follow, hdirectory, isIdleSegment]
  · obtain ⟨hempty, -⟩ := locate_eq_ok_iff.mp hlocate
    simpa [hempty] using hlocate

/-! ### Putting and taking out -/

/-- Trees with the same entries are the same. -/
theorem eq_of_entries {other : FileTree} (h : tree.entries = other.entries) : tree = other := by
  cases tree
  cases other
  cases h
  rfl

/-- Where nothing is, nothing is listed either, nor anything below. -/
theorem not_prefix_of_mem (h : tree.at? location = none) {entry : Location × FileEntry}
    (hentry : entry ∈ tree.entries) : ¬location <+: entry.1 := by
  intro hbelow
  have hat := entryAt_of_mem tree.distinct (tree.topless entry hentry) hentry
  rw [← at?, at?_eq_none_below h hbelow] at hat
  cases hat

/-- The entries other than one that is not there are all entries. -/
theorem filter_ne_eq_self (h : tree.at? location = none) :
    tree.entries.filter (fun other => !(other.1 == location)) = tree.entries := by
  refine List.filter_eq_self.mpr fun entry hentry => ?_
  have hne : entry.1 ≠ location := by
    intro hsame
    exact not_prefix_of_mem h hentry (hsame ▸ List.prefix_rfl)
  simpa using hne

/-- The entries after a new one was put. -/
theorem entries_put {entry : FileEntry} (htakes : tree.Takes directory name entry) :
    (tree.put directory name entry).entries =
      replaceEntry tree.entries (directory ++ [name]) entry := by
  rw [put, dif_pos htakes]

/-- Nothing is left of a file that was put where nothing was and is taken out again. -/
theorem remove_put (htakes : tree.Takes directory name (.file bytes))
    (h : tree.at? (directory ++ [name]) = none) :
    (tree.put directory name (.file bytes)).remove (directory ++ [name]) = tree := by
  refine eq_of_entries ?_
  simp only [remove, entries_put htakes, replaceEntry]
  rw [filter_ne_eq_self h, List.filter_cons_of_neg (by simp)]
  refine List.filter_eq_self.mpr fun entry hentry => ?_
  rw [Bool.not_eq_true', ← Bool.not_eq_true, List.isPrefixOf_iff_prefix]
  exact not_prefix_of_mem h hentry

/-- Of two files that are put in one place only the second is left. -/
theorem put_put (htakes : tree.Takes directory name (.file bytes)) (others : ByteArray) :
    (tree.put directory name (.file bytes)).put directory name (.file others) =
      tree.put directory name (.file others) := by
  have htakes' : tree.Takes directory name (.file others) := htakes
  have hagain : (tree.put directory name (.file bytes)).Takes directory name (.file others) := by
    refine ⟨?_, htakes.2.1, Or.inr ⟨?_, rfl⟩⟩
    · rw [at?_put htakes, if_neg (by simp), htakes.1]
    · rw [at?_put htakes, if_pos rfl]
      rfl
  refine eq_of_entries ?_
  rw [entries_put hagain, entries_put htakes, entries_put htakes']
  simp [replaceEntry]

/-! ### Temporary files -/

/-- A name that is chosen is free. -/
theorem freeName?_eq_some {drawnName : Nat → String}
    (h : tree.freeName? directory drawnName = some name) :
    IsProperName name ∧ tree.at? (directory ++ [name]) = none := by
  simpa using List.find?_some h

/-- The draws on a disk that refuses nothing are all different. -/
theorem drawnName_sound_injective : Function.Injective Disk.sound.drawnName := by
  intro first second h
  have hlength := congrArg (fun text => text.toList.length) h
  simpa [Disk.sound] using hlength

/-- Such a draw can be the name of a file. -/
theorem isProperName_drawnName_sound (draw : Nat) : IsProperName (Disk.sound.drawnName draw) := by
  have hdrawn : (Disk.sound.drawnName draw).toList =
      ['.', 't', 'm', 'p'] ++ List.replicate draw '_' := by simp [Disk.sound]
  have hne (other : String) (hother : other.toList.length < 4) :
      Disk.sound.drawnName draw ≠ other := by
    rintro rfl
    rw [hdrawn] at hother
    simp at hother
    omega
  refine ⟨?_, hne ".." (by decide)⟩
  simp [isIdleSegment, hne "" (by decide), hne "." (by decide)]

/-- Of more draws than there are entries one is free. -/
theorem exists_freeName?_sound (tree : FileTree) (directory : Location) :
    ∃ name, tree.freeName? directory Disk.sound.drawnName = some name := by
  by_contra hnone
  rw [← Option.isSome_iff_exists, freeName?, List.find?_isSome] at hnone
  have htaken : ((List.range (tree.entries.length + 1)).map fun draw =>
      directory ++ [Disk.sound.drawnName draw]) ⊆ tree.entries.map Prod.fst := by
    intro location hlocation
    obtain ⟨draw, hdraw, rfl⟩ := List.mem_map.mp hlocation
    have hentry : tree.at? (directory ++ [Disk.sound.drawnName draw]) ≠ none := fun hfree =>
      hnone ⟨_, List.mem_map_of_mem hdraw,
        by simp [isProperName_drawnName_sound, hfree]⟩
    obtain ⟨entry, hentry⟩ := Option.ne_none_iff_exists'.mp hentry
    exact List.mem_map.mpr ⟨_, mem_of_entryAt (by simp) hentry, rfl⟩
  have hdistinct : ((List.range (tree.entries.length + 1)).map fun draw =>
      directory ++ [Disk.sound.drawnName draw]).Nodup := by
    refine List.nodup_range.map fun first second h => drawnName_sound_injective ?_
    simpa using h
  have hlength := (hdistinct.subperm htaken).length_le
  simp only [List.length_map, List.length_range] at hlength
  omega

/-- A temporary file can be put where it was chosen to go, and nothing is there yet. -/
theorem takes_of_chooseTemporary {drawnName : Nat → String} {holder : Path}
    (h : tree.chooseTemporary workingDirectory holder drawnName = .ok (directory, name))
    (bytes : ByteArray) :
    tree.locate workingDirectory holder = .ok directory ∧
      tree.at? (directory ++ [name]) = none ∧ tree.Takes directory name (.file bytes) := by
  rw [chooseTemporary] at h
  cases hlocate : tree.locate workingDirectory holder with
  | error error => simp [hlocate, bind, Except.bind] at h
  | ok location =>
    simp only [hlocate, bind, Except.bind] at h
    split at h
    case h_1 => cases h
    case h_2 => cases h
    case h_3 hdirectory =>
      split at h
      case h_1 => cases h
      case h_2 free hfree =>
        obtain ⟨rfl, rfl⟩ := Prod.mk.inj (Except.ok.inj h)
        obtain ⟨hproper, hnone⟩ := freeName?_eq_some hfree
        exact ⟨rfl, hnone, hdirectory, hproper, Or.inl hnone⟩

/-! ### Replacing -/

/-- What a failure to replace a file leaves: nothing new, or a temporary file beside the file. -/
def LeavesTemporary (tree : FileTree) (workingDirectory : Location) (path : Path) (disk : Disk)
    (after : FileTree) : Prop :=
  after = tree ∨ (disk.fault? .discard path).isSome ∧ ∃ directory name bytes,
    tree.locate workingDirectory path.holder = .ok directory ∧
      tree.at? (directory ++ [name]) = none ∧
      tree.WithEntry (directory ++ [name]) (.file bytes) after

/-- A temporary file is deleted, or it is left because the disk refuses that. -/
theorem leavesTemporary_discard
    (hlocate : tree.locate workingDirectory path.holder = .ok directory)
    (hnone : tree.at? (directory ++ [name]) = none)
    (htakes : tree.Takes directory name (.file bytes)) :
    tree.LeavesTemporary workingDirectory path disk
      ((tree.put directory name (.file bytes)).discard (directory ++ [name]) path disk) := by
  rw [discard]
  split
  case isTrue hrefused =>
    exact Or.inr ⟨hrefused, directory, name, bytes, hlocate, hnone, at?_put htakes⟩
  case isFalse => exact Or.inl (remove_put htakes hnone)

/-- When a temporary file takes the place of a file, its bytes are written there and it is gone. -/
theorem rename_put (hnone : tree.at? (directory ++ [name]) = none)
    (htakes : tree.Takes directory name (.file bytes)) :
    (tree.put directory name (.file bytes)).rename workingDirectory (directory ++ [name]) path =
      tree.write workingDirectory path bytes := by
  have hbytes : (tree.put directory name (.file bytes)).bytes? (directory ++ [name]) =
      some bytes := by
    rw [bytes?, at?_put htakes, if_pos rfl]
    rfl
  rw [rename, hbytes]
  simp only [remove_put htakes hnone]

/-- **A file is replaced at once.** Whatever a disk refuses, either replacing the bytes of a file
fails and the file is not touched, or all of the bytes are written in its place. -/
theorem replaceFile_cases (tree : FileTree) (workingDirectory : Location) (path : Path)
    (bytes : ByteArray) (disk : Disk) :
    (∃ error after, tree.replaceFile workingDirectory path bytes disk = (.error error, after) ∧
        tree.LeavesTemporary workingDirectory path disk after) ∨
      ∃ written, tree.write workingDirectory path bytes = .ok written ∧
        tree.replaceFile workingDirectory path bytes disk = (.ok (), written) := by
  rw [replaceFile]
  split
  case h_1 error _ => exact Or.inl ⟨error, tree, rfl, Or.inl rfl⟩
  case h_2 =>
    split
    case h_1 error _ => exact Or.inl ⟨error, tree, rfl, Or.inl rfl⟩
    case h_2 directory name hchosen =>
      have hfacts := takes_of_chooseTemporary (Disk.attempt_eq_ok_iff.mp hchosen).2
      obtain ⟨hlocate, hnone, htakes⟩ := hfacts .empty
      have hfails (written : ByteArray) : tree.LeavesTemporary workingDirectory path disk
          ((tree.put directory name (.file written)).discard (directory ++ [name]) path disk) :=
        leavesTemporary_discard hlocate hnone (hfacts written).2.2
      simp only [settleTemporary, put_put htakes]
      split
      case h_1 fault _ => exact Or.inl ⟨fault.error, _, rfl, hfails _⟩
      case h_2 =>
        split
        case h_1 error _ => exact Or.inl ⟨error, _, rfl, hfails _⟩
        case h_2 =>
          rw [rename_put hnone (hfacts bytes).2.2]
          split
          case h_1 error _ => exact Or.inl ⟨error, _, rfl, hfails _⟩
          case h_2 replaced hreplaced =>
            exact Or.inr ⟨replaced, (Disk.attempt_eq_ok_iff.mp hreplaced).2, rfl⟩

/-- On a disk that refuses nothing a failure leaves everything as it is. -/
theorem replaceFile_sound_cases (tree : FileTree) (workingDirectory : Location) (path : Path)
    (bytes : ByteArray) :
    (∃ error, tree.replaceFile workingDirectory path bytes = (.error error, tree)) ∨
      ∃ written, tree.write workingDirectory path bytes = .ok written ∧
        tree.replaceFile workingDirectory path bytes = (.ok (), written) := by
  rcases replaceFile_cases tree workingDirectory path bytes .sound with
    ⟨error, after, hfailed, rfl | ⟨hrefused, -⟩⟩ | hwritten
  · exact Or.inl ⟨error, hfailed⟩
  · simp at hrefused
  · exact Or.inr hwritten

/-- On such a disk the bytes of a file that is there are replaced, and nothing else changes. -/
theorem exists_replaceFile (h : tree.isFile workingDirectory path = true) (bytes : ByteArray) :
    ∃ written, tree.replaceFile workingDirectory path bytes = (.ok (), written) ∧
      tree.WithEntry (path.resolved workingDirectory) (.file bytes) written := by
  obtain ⟨directory, last, hholder, hdirectory, -⟩ := locate_holder h
  obtain ⟨hlocate, hbytes⟩ := isFile_iff_locate.mp h
  obtain ⟨old, hold⟩ := Option.isSome_iff_exists.mp hbytes
  obtain ⟨name, hname⟩ := exists_freeName?_sound tree directory
  have hchosen : tree.chooseTemporary workingDirectory path.holder Disk.sound.drawnName =
      .ok (directory, name) := by
    simp [chooseTemporary, hholder, bind, Except.bind, hdirectory, hname]
  have hinspect : tree.inspect workingDirectory path = .ok (.file old) := by
    simp [inspect, hlocate, bind, Except.bind, bytes?_eq_some_iff.mp hold]
  obtain ⟨written, hwritten, hview⟩ := exists_write_over h bytes
  obtain ⟨-, hnone, htakes⟩ := takes_of_chooseTemporary hchosen bytes
  obtain ⟨-, -, hempty⟩ := takes_of_chooseTemporary hchosen .empty
  refine ⟨written, ?_, hview⟩
  simp [replaceFile, hinspect, hchosen, settleTemporary, put_put hempty, rename_put hnone htakes,
    hwritten]

end FileTree

end Menus
