import Menus.Proofs.Following

/-!
# What operations change in a tree

Writing a file changes what is at its place and nothing else. Making directories puts directories
where nothing was on the way to a place, unless a file stands there; then nothing changes. Copying a
file gives its bytes to the place of the target.
-/

namespace Menus

namespace FileTree

variable {tree : FileTree} {workingDirectory directory : Location} {path : Path} {name : String}

/-- Another tree has an entry at a location and is the same everywhere else. -/
def WithEntry (tree : FileTree) (location : Location) (entry : FileEntry) (after : FileTree) :
    Prop :=
  ∀ other, after.at? other = if other = location then some entry else tree.at? other

/-- Another tree has directories all the way to a location and is the same everywhere else. -/
def WithDirectories (tree : FileTree) (location : Location) (after : FileTree) : Prop :=
  ∀ other, after.at? other = if other <+: location then some .directory else tree.at? other

/-- Another tree has a file at a location, with directories all the way to it, and is the same
everywhere else. -/
def WithFile (tree : FileTree) (location : Location) (bytes : ByteArray) (after : FileTree) :
    Prop :=
  ∀ other, after.at? other =
    if other = location then some (.file bytes)
    else if other <+: location then some .directory
    else tree.at? other

/-- A directory stays when an entry is put where no directory is. -/
theorem WithEntry.keeps_directory {location other : Location} {entry : FileEntry} {after : FileTree}
    (h : tree.WithEntry location entry after) (hfree : tree.at? location ≠ some .directory)
    (hother : tree.at? other = some .directory) : after.at? other = some .directory := by
  rw [h other, if_neg, hother]
  rintro rfl
  exact hfree hother

/-- Of two entries that are put at one location only the second is left. -/
theorem WithEntry.again {location : Location} {entry other : FileEntry} {middle after : FileTree}
    (h : tree.WithEntry location entry middle) (hafter : middle.WithEntry location other after) :
    tree.WithEntry location other after := by
  intro place
  rw [hafter, h]
  split <;> rfl

/-- A directory stays when directories are made. -/
theorem WithDirectories.keeps_directory {location other : Location} {after : FileTree}
    (h : tree.WithDirectories location after) (hother : tree.at? other = some .directory) :
    after.at? other = some .directory := by
  rw [h other, hother, ite_self]

/-- The directories above a directory are there already. -/
theorem withDirectories_self {location : Location} (h : tree.at? location = some .directory) :
    tree.WithDirectories location tree := by
  intro other
  split
  case isTrue hother =>
    obtain rfl | hne := eq_or_ne other location
    · exact h
    · exact at?_above h hother hne
  case isFalse => rfl

/-- A directory that is made below others goes on from them. -/
theorem WithDirectories.concat {middle after : FileTree}
    (h : tree.WithDirectories directory middle)
    (hafter : middle.WithEntry (directory ++ [name]) .directory after) :
    tree.WithDirectories (directory ++ [name]) after := by
  intro other
  rw [hafter other]
  by_cases hname : other = directory ++ [name]
  · simp [hname]
  · rw [if_neg hname, h other]
    simp [List.prefix_concat_iff, hname]

/-! ### Writing -/

/-- A directory takes a file under a name that no directory in it has. -/
theorem takes_file (hdirectory : tree.at? directory = some .directory) (hname : IsProperName name)
    (hfree : tree.at? (directory ++ [name]) ≠ some .directory) (bytes : ByteArray) :
    tree.Takes directory name (.file bytes) := by
  refine ⟨hdirectory, hname, ?_⟩
  cases hat : tree.at? (directory ++ [name]) with
  | none => exact Or.inl rfl
  | some entry =>
    cases entry with
    | file other => exact Or.inr ⟨rfl, rfl⟩
    | directory => exact absurd hat hfree

/-- A file is written at the place of a path if its directory is there and no directory stands at
the place itself. Nothing else changes. -/
theorem exists_write (hworking : tree.at? workingDirectory = some .directory)
    (hdescends : path.Descends) (hends : path.EndsInName)
    (hdirectory : tree.at? (path.place workingDirectory).dropLast = some .directory)
    (hfree : tree.at? (path.place workingDirectory) ≠ some .directory) (bytes : ByteArray) :
    ∃ written, tree.write workingDirectory path bytes = .ok written ∧
      tree.WithEntry (path.place workingDirectory) (.file bytes) written := by
  obtain ⟨directory, name, hplace, hname, hne⟩ := exists_place_eq hdescends hends workingDirectory
  rw [hplace] at hfree
  rw [hplace, List.dropLast_concat] at hdirectory
  have htakes := takes_file hdirectory ⟨hname, hne⟩ hfree bytes
  refine ⟨tree.put directory name (.file bytes), ?_, ?_⟩
  · rcases locateParent_cases hworking hdescends hends hplace with
      ⟨-, hok⟩ | ⟨hnone, -⟩ | ⟨hblocked, -⟩
    · rw [write, hends.dropSlashes_eq_self, hok]
      simp [bind, Except.bind, hends.endsInSlash_eq_false, hname, hne, hfree]
    · rw [hnone] at hdirectory
      cases hdirectory
    · exact absurd (isClear_of_directory hdirectory) hblocked
  · intro location
    rw [at?_put htakes, hplace]

/-! ### Making directories -/

/-- Making a directory puts it where nothing is in a directory that is there. Each other case is an
error of its own. -/
theorem makeDirectory_cases (hworking : tree.at? workingDirectory = some .directory)
    (hdescends : path.Descends) (hnames : path.names ≠ [])
    (hplace : path.place workingDirectory = directory ++ [name]) :
    tree.at? directory = some .directory ∧
        (tree.at? (directory ++ [name]) = none ∧
            (∃ made, tree.makeDirectory workingDirectory path = .ok made ∧
              tree.WithEntry (directory ++ [name]) .directory made) ∨
          tree.at? (directory ++ [name]) ≠ none ∧
            tree.makeDirectory workingDirectory path = .error .alreadyExists) ∨
      tree.at? directory = none ∧ tree.IsClear directory ∧
        tree.makeDirectory workingDirectory path = .error .missing ∨
      ¬tree.IsClear directory ∧
        tree.makeDirectory workingDirectory path = .error .notDirectory := by
  have htrim := hdescends.trimEnd
  have hends := Path.endsInName_trimEnd hnames
  rw [← Path.place_trimEnd] at hplace
  obtain ⟨other, last, hother, hlast⟩ := exists_place_eq htrim hends workingDirectory
  obtain ⟨rfl, rfl⟩ : other = directory ∧ last = name := by
    obtain ⟨hdirectory, hname⟩ := List.append_inj' (hother.symm.trans hplace) rfl
    exact ⟨hdirectory, List.singleton_inj.mp hname⟩
  rcases locateParent_cases hworking htrim hends hplace with
    ⟨hdirectory, hok⟩ | ⟨hnone, hclear, herror⟩ | ⟨hblocked, herror⟩
  · refine Or.inl ⟨hdirectory, ?_⟩
    by_cases hat : tree.at? (other ++ [last]) = none
    · refine Or.inl ⟨hat, tree.put other last .directory, ?_, ?_⟩
      · simp [makeDirectory, hok, bind, Except.bind, hlast.1, hlast.2, hat]
      · exact at?_put ⟨hdirectory, hlast, Or.inl hat⟩
    · refine Or.inr ⟨hat, ?_⟩
      have hsome : (tree.at? (other ++ [last])).isSome = true := Option.isSome_iff_ne_none.mpr hat
      simp [makeDirectory, hok, bind, Except.bind, hlast.1, hlast.2, hsome]
  · exact Or.inr (Or.inl ⟨hnone, hclear, by rw [makeDirectory, herror]; rfl⟩)
  · exact Or.inr (Or.inr ⟨hblocked, by rw [makeDirectory, herror]; rfl⟩)

/-- A directory that is there is not made. Without a name its path is a lone dot, which leads to
where one is. -/
theorem makeDirectory_of_isDirectory (hparent : path.parent? ≠ none)
    (h : tree.isDirectory workingDirectory path = true) :
    tree.makeDirectory workingDirectory path = .error .alreadyExists := by
  obtain ⟨location, hlocate, hdirectory⟩ := isDirectory_iff_locate.mp h
  obtain ⟨-, hfollow⟩ := locate_eq_ok_iff.mp hlocate
  rcases Path.trimEnd_cases path with ⟨-, htrim⟩ | ⟨above, name, rest, hsegments, hname, -, htrim⟩
  · have hhere : path.startsHere = true := by
      by_contra hhere
      exact hparent (by simp [Path.parent?, htrim, hhere])
    obtain ⟨hrooted, -, segments, hsegments⟩ := Path.exists_of_startsHere hhere
    rw [hsegments, hrooted] at hfollow
    have hworking : tree.at? workingDirectory = some .directory := at?_of_follow_cons hfollow
    simp [makeDirectory, htrim, hhere, hrooted, locateParent, Path.isEmpty, follow, hworking, bind,
      Except.bind, isIdleSegment]
  · rw [hsegments] at hfollow
    obtain ⟨reached, hreached, hfollow⟩ := exists_of_follow_append hfollow
    have hreachedDirectory := at?_of_follow_cons hfollow
    have hempty : path.trimEnd.isEmpty = false := by
      apply Path.isEmpty_of_names
      rw [Path.names_trimEnd]
      simp [Path.names, hsegments, namesOf_cons hname]
    rw [makeDirectory, locateParent_eq hempty (by rw [htrim]), Path.rooted_trimEnd, hreached]
    by_cases hup : name = ".."
    · simp [bind, Except.bind, hreachedDirectory, hup]
    · have hthere : (tree.at? (reached ++ [name])).isSome = true := by
        simp only [follow, hreachedDirectory, hname, hup, Bool.false_eq_true, if_false] at hfollow
        cases rest with
        | nil => simp [Except.ok.inj hfollow, hdirectory]
        | cons segment rest => simp [at?_of_follow_cons hfollow]
      simp [bind, Except.bind, hreachedDirectory, hname, hup, hthere]

/-- No directory is made for one that is there. -/
theorem makeDirectoriesOf_of_isDirectory
    (h : path.parent? = none ∨ tree.isDirectory workingDirectory path = true)
    (parents : List Path) :
    tree.makeDirectoriesOf workingDirectory (path :: parents) = (.ok (), tree) := by
  rw [makeDirectoriesOf]
  by_cases hparent : path.parent? = none
  · rw [if_pos (by simp [hparent])]
  · have hdirectory := h.resolve_left hparent
    rw [if_neg (by simpa using hparent), makeDirectory_of_isDirectory hparent hdirectory]
    simp [hdirectory]

/-- A path without names leads to a directory that is there. -/
theorem makeDirectoriesOf_of_names_eq_nil
    (hworking : tree.at? workingDirectory = some .directory) (hdescends : path.Descends)
    (hnames : path.names = []) (parents : List Path) :
    tree.makeDirectoriesOf workingDirectory (path :: parents) = (.ok (), tree) := by
  refine makeDirectoriesOf_of_isDirectory ?_ parents
  rcases Path.trimEnd_cases path with ⟨-, htrim⟩ | ⟨above, name, after, hsegments, hname, -, -⟩
  · by_cases hhere : path.startsHere = true
    · right
      rw [isDirectory_iff (Path.exists_of_startsHere hhere).2.1 hworking hdescends, Path.place,
        hnames, List.append_nil]
      exact at?_start hworking path
    · exact Or.inl (by simp [Path.parent?, htrim, hhere])
  · simp [Path.names, hsegments, namesOf_cons hname] at hnames

/-- Directories are made all the way to a place unless a file stands there. The parents are made
first, and then there is a directory to make the last one in. -/
theorem exists_makeDirectoriesOf (hworking : tree.at? workingDirectory = some .directory)
    (hdescends : path.Descends) {count : Nat} (hcount : path.names.length ≤ count)
    (hclear : tree.IsClear (path.place workingDirectory)) :
    ∃ made, tree.makeDirectoriesOf workingDirectory (path.ancestorsUpTo count) = (.ok (), made) ∧
      tree.WithDirectories (path.place workingDirectory) made := by
  induction count generalizing path with
  | zero =>
    have hnames : path.names = [] := by simpa using hcount
    refine ⟨tree, makeDirectoriesOf_of_names_eq_nil hworking hdescends hnames _, ?_⟩
    rw [Path.place, hnames, List.append_nil]
    exact withDirectories_self (at?_start hworking path)
  | succ count ih =>
    by_cases hnames : path.names = []
    · refine ⟨tree, ?_, ?_⟩
      · rw [Path.ancestorsUpTo]
        split <;> exact makeDirectoriesOf_of_names_eq_nil hworking hdescends hnames _
      · rw [Path.place, hnames, List.append_nil]
        exact withDirectories_self (at?_start hworking path)
    · obtain ⟨parent, hparent, hrooted, hparentNames, hparentDescends⟩ := Path.exists_parent? hnames
      have hparentPlace := Path.place_eq_dropLast hnames hrooted hparentNames workingDirectory
      obtain ⟨directory, name, hplace⟩ :=
        (Path.names_eq_nil_or_eq_concat path workingDirectory).resolve_left hnames
      rw [hplace, List.dropLast_concat] at hparentPlace
      rw [hplace] at hclear ⊢
      simp only [Path.ancestorsUpTo, hparent, makeDirectoriesOf, Option.isNone_some,
        Bool.false_eq_true, if_false]
      rcases makeDirectory_cases hworking hdescends hnames hplace with
        ⟨hdirectory, ⟨hfree, made, hmade, hview⟩ | ⟨hthere, hexists⟩⟩ |
        ⟨hnone, hclearAbove, hmissing⟩ | ⟨hblocked, -⟩
      · exact ⟨made, by rw [hmade], (withDirectories_self hdirectory).concat hview⟩
      · obtain ⟨entry, hentry⟩ := Option.ne_none_iff_exists'.mp hthere
        obtain rfl := hclear.eq_directory hentry
        have hthere : tree.isDirectory workingDirectory path = true := by
          rwa [isDirectory_iff (Path.isEmpty_of_names hnames) hworking hdescends, hplace]
        exact ⟨tree, by simp [hexists, hthere], withDirectories_self hentry⟩
      · obtain ⟨middle, hmiddle, hmiddleView⟩ := ih (hparentDescends hdescends)
          (by rw [hparentNames, List.length_dropLast]; omega) (by rwa [hparentPlace])
        rw [hparentPlace] at hmiddleView
        have hworking' := hmiddleView.keeps_directory hworking
        have hdirectory : middle.at? directory = some .directory := by
          rw [hmiddleView, if_pos List.prefix_rfl]
        have hfree : middle.at? (directory ++ [name]) = none := by
          rw [hmiddleView, if_neg (not_prefix_of_concat directory name),
            at?_concat_eq_none (by simp [hnone])]
        rcases makeDirectory_cases hworking' hdescends hnames hplace with
          ⟨-, ⟨-, made, hmade, hview⟩ | ⟨hthere, -⟩⟩ | ⟨hnone', -⟩ | ⟨hblocked, -⟩
        · exact ⟨made, by rw [hmissing, hmiddle]; simp [hmade], hmiddleView.concat hview⟩
        · exact absurd hfree hthere
        · rw [hdirectory] at hnone'
          cases hnone'
        · exact absurd (isClear_of_directory hdirectory) hblocked
      · exact absurd (hclear.mono (List.prefix_append _ _)) hblocked

/-- How making directories fails when a file stands on the way to a location, or at it. -/
def blockedError (tree : FileTree) (location : Location) : FileError :=
  if tree.IsClear location.dropLast then .alreadyExists else .notDirectory

/-- When a file stands in the way, no directory is made. -/
theorem makeDirectoriesOf_of_blocked (hworking : tree.at? workingDirectory = some .directory)
    (hdescends : path.Descends) {count : Nat} (hcount : path.names.length ≤ count)
    (hblocked : ¬tree.IsClear (path.place workingDirectory)) :
    tree.makeDirectoriesOf workingDirectory (path.ancestorsUpTo count) =
      (.error (tree.blockedError (path.place workingDirectory)), tree) := by
  have hnames : path.names ≠ [] := by
    intro hnames
    apply hblocked
    rw [Path.place, hnames, List.append_nil]
    exact isClear_of_directory (at?_start hworking path)
  obtain ⟨parent, hparent, -⟩ := Path.exists_parent? hnames
  obtain ⟨directory, name, hplace⟩ :=
    (Path.names_eq_nil_or_eq_concat path workingDirectory).resolve_left hnames
  obtain ⟨count, rfl⟩ : ∃ less, count = less + 1 :=
    Nat.exists_eq_succ_of_ne_zero (by have := List.length_pos_of_ne_nil hnames; omega)
  rw [hplace] at hblocked
  rw [blockedError, hplace, List.dropLast_concat]
  simp only [Path.ancestorsUpTo, hparent, makeDirectoriesOf, Option.isNone_some,
    Bool.false_eq_true, if_false]
  rcases makeDirectory_cases hworking hdescends hnames hplace with
    ⟨hdirectory, ⟨hfree, -⟩ | ⟨hthere, hexists⟩⟩ | ⟨hnone, hclear, -⟩ | ⟨hblocked, herror⟩
  · exact absurd ((isClear_of_directory hdirectory).concat (bytes?_eq_none_iff.mpr (Or.inl hfree)))
      hblocked
  · have hfile : tree.isDirectory workingDirectory path = false := by
      rw [← Bool.not_eq_true, isDirectory_iff (Path.isEmpty_of_names hnames) hworking hdescends,
        hplace]
      exact fun hat => hblocked (isClear_of_directory hat)
    simp [hexists, hfile, isClear_of_directory hdirectory]
  · refine absurd (hclear.concat (bytes?_eq_none_iff.mpr (Or.inl ?_))) hblocked
    exact at?_concat_eq_none (by simp [hnone])
  · simp [herror, hblocked]

/-- A directory is made with its parents unless a file stands on the way to it. -/
theorem exists_makeDirectories (hworking : tree.at? workingDirectory = some .directory)
    (hdescends : path.Descends) (hclear : tree.IsClear (path.place workingDirectory)) :
    ∃ made, tree.makeDirectories workingDirectory path = (.ok (), made) ∧
      tree.WithDirectories (path.place workingDirectory) made :=
  exists_makeDirectoriesOf hworking hdescends (List.length_filter_le _ _) hclear

/-- If a file stands there, no directory is made. -/
theorem makeDirectories_of_blocked (hworking : tree.at? workingDirectory = some .directory)
    (hdescends : path.Descends) (hblocked : ¬tree.IsClear (path.place workingDirectory)) :
    tree.makeDirectories workingDirectory path =
      (.error (tree.blockedError (path.place workingDirectory)), tree) :=
  makeDirectoriesOf_of_blocked hworking hdescends (List.length_filter_le _ _) hblocked

/-! ### Copying -/

/-- A file is copied to another place if the directory of the target is there and the target is no
directory. -/
theorem exists_copy (hworking : tree.at? workingDirectory = some .directory) {source target : Path}
    {bytes : ByteArray} (hsource : source.Descends) (hsourceEnds : source.EndsInName)
    (hbytes : tree.bytes? (source.place workingDirectory) = some bytes)
    (htarget : target.Descends) (htargetEnds : target.EndsInName)
    (hdirectory : tree.at? (target.place workingDirectory).dropLast = some .directory)
    (hfree : tree.at? (target.place workingDirectory) ≠ some .directory)
    (hapart : source.place workingDirectory ≠ target.place workingDirectory) :
    ∃ copied, tree.copy workingDirectory source target = .ok copied ∧
      tree.WithEntry (target.place workingDirectory) (.file bytes) copied := by
  obtain ⟨emptied, hemptied, hemptiedView⟩ :=
    exists_write hworking htarget htargetEnds hdirectory hfree .empty
  have hdirectory' := hemptiedView.keeps_directory hfree hdirectory
  have hworking' := hemptiedView.keeps_directory hfree hworking
  obtain ⟨copied, hcopied, hcopiedView⟩ := exists_write hworking' htarget htargetEnds hdirectory'
    (by rw [hemptiedView, if_pos rfl]; simp) bytes
  have hlocate : tree.locate workingDirectory source = .ok (source.place workingDirectory) :=
    locate_eq_place_of_file hworking hsource hsourceEnds (by simp [hbytes])
  have hkept : emptied.bytes? (source.place workingDirectory) = some bytes := by
    rw [bytes?, hemptiedView, if_neg hapart]
    exact hbytes
  refine ⟨copied, ?_, ?_⟩
  · rw [bytes?_eq_some_iff] at hbytes
    simp [copy, hlocate, hbytes, hemptied, hkept, hcopied, bind, Except.bind]
  · exact hemptiedView.again hcopiedView

end FileTree

end Menus
