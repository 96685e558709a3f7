import Menus.Proofs.Processing

/-!
# Documents do not disturb each other

Documents below one root have backups at different places, none of them above another. Processing
one of them therefore leaves alone all that the outcome of another depends on, and what the two put
into the tree does not clash.
-/

namespace Menus

variable {tree after : FileTree} {workingDirectory : Location} {settings : Settings}
  {mode : RunMode} {document other : MenuDocument} {backups : Path}

/-! ### Two documents below one root -/

/-- Of two backups one is above the other only if the documents are. -/
theorem place_prefix_of_backupPlace (hstands : document.Stands tree workingDirectory)
    (hother : other.Stands tree workingDirectory) (hroot : document.root = other.root)
    (h : document.backupPlace backups workingDirectory <+:
      other.backupPlace backups workingDirectory) :
    document.path.place workingDirectory <+: other.path.place workingDirectory := by
  rw [hstands.place_eq, hother.place_eq, hroot, List.prefix_append_right_inj]
  rwa [MenuDocument.backupPlace, MenuDocument.backupPlace, List.prefix_append_right_inj] at h

/-- Two files of which one is above the other are at one place. -/
theorem MenuDocument.Stands.place_eq_of_above (hstands : document.Stands tree workingDirectory)
    (hother : other.Stands tree workingDirectory)
    (h : document.path.place workingDirectory <+: other.path.place workingDirectory) :
    document.path.place workingDirectory = other.path.place workingDirectory := by
  apply FileTree.eq_of_prefix_of_bytes? h hstands.isFile
  obtain ⟨bytes, hbytes⟩ := Option.isSome_iff_exists.mp hother.isFile
  rw [FileTree.bytes?_eq_some_iff.mp hbytes]
  nofun

/-- The backup of a document is not above that of another one. -/
theorem not_prefix_of_backupPlace (hstands : document.Stands tree workingDirectory)
    (hother : other.Stands tree workingDirectory) (hroot : document.root = other.root)
    (hne : document.path.place workingDirectory ≠ other.path.place workingDirectory)
    (backups : Path) :
    ¬document.backupPlace backups workingDirectory <+: other.backupPlace backups workingDirectory :=
  fun h => hne (hstands.place_eq_of_above hother
    (place_prefix_of_backupPlace hstands hother hroot h))

/-! ### What one document puts into the tree -/

/-- A document is rewritten only if its backup is not blocked. -/
theorem blocked?_of_rewritten (hworking : tree.at? workingDirectory = some .directory)
    (hstands : document.Stands tree workingDirectory)
    (hbackups : ∀ backups ∈ settings.backupDirectory, backups.Descends) {reduced : String}
    (h : rewrittenWith? mode (process tree workingDirectory settings mode document).1 =
      some reduced) : blocked? tree workingDirectory settings document = none := by
  obtain ⟨bytes, hbytes⟩ := Option.isSome_iff_exists.mp hstands.isFile
  rw [(process_eq hworking hstands hbackups hbytes).1] at h
  cases hblocked : blocked? tree workingDirectory settings document with
  | none => rfl
  | some error =>
    rw [hblocked, outcomeOf] at h
    cases mode <;> grind [rewrittenWith?]

/-- What processing a document puts at a location is its reduced text, its bytes at the place of the
backup, or a directory on the way there. -/
theorem entryFrom?_cases (hworking : tree.at? workingDirectory = some .directory)
    (hstands : document.Stands tree workingDirectory)
    (hbackups : ∀ backups ∈ settings.backupDirectory, backups.Descends) {location : Location}
    {entry : FileEntry}
    (h : entryFrom? tree workingDirectory settings mode document location = some entry) :
    location = document.path.place workingDirectory ∨
      ∃ backups ∈ settings.backupDirectory,
        tree.at? (document.backupPlace backups workingDirectory) = none ∧
        tree.IsClear (document.backupPlace backups workingDirectory).dropLast ∧
        (location = document.backupPlace backups workingDirectory ∧
            tree.at? (document.path.place workingDirectory) = some entry ∨
          location <+: (document.backupPlace backups workingDirectory).dropLast ∧
            entry = .directory) := by
  obtain ⟨reduced, hreduced, hentry⟩ := Option.bind_eq_some_iff.mp h
  have hblocked := blocked?_of_rewritten hworking hstands hbackups hreduced
  split at hentry
  case isTrue hplace => exact Or.inl hplace
  case isFalse =>
    obtain ⟨backups, hdirectory, hentry⟩ := Option.bind_eq_some_iff.mp hentry
    refine Or.inr ⟨backups, hdirectory, ?_⟩
    rw [blocked?, hdirectory, Option.bind_some] at hblocked
    rw [backupAt?] at hentry
    split at hentry
    case isFalse => cases hentry
    case isTrue hnone =>
      have hclear : tree.IsClear (document.backupPlace backups workingDirectory).dropLast := by
        by_contra hclear
        rw [blockedBackup?, if_pos ⟨hnone, hclear⟩] at hblocked
        cases hblocked
      refine ⟨hnone, hclear, ?_⟩
      split at hentry
      case isTrue hplace => exact Or.inl ⟨hplace, hentry⟩
      case isFalse hne =>
        split at hentry
        case isTrue habove =>
          exact Or.inr ⟨prefix_dropLast_backupPlace hstands backups habove hne,
            (Option.some.inj hentry).symm⟩
        case isFalse => cases hentry

/-- A document puts nothing at the place of another file. -/
theorem not_place_of_entryFrom? (hworking : tree.at? workingDirectory = some .directory)
    (hother : other.Stands tree workingDirectory) (hstands : document.Stands tree workingDirectory)
    (hbackups : ∀ backups ∈ settings.backupDirectory, backups.Descends)
    (hne : other.path.place workingDirectory ≠ document.path.place workingDirectory)
    {location : Location} {entry : FileEntry}
    (h : entryFrom? tree workingDirectory settings mode document location = some entry) :
    location ≠ other.path.place workingDirectory := by
  rintro rfl
  obtain ⟨bytes, hbytes⟩ := Option.isSome_iff_exists.mp hother.isFile
  have hfile := FileTree.bytes?_eq_some_iff.mp hbytes
  rcases entryFrom?_cases hworking hstands hbackups h with
    hplace | ⟨backups, -, hnone, hclear, ⟨hplace, -⟩ | ⟨habove, -⟩⟩
  · exact hne hplace
  · rw [← hplace, hfile] at hnone
    cases hnone
  · cases (hclear.mono habove).eq_directory hfile

/-- What is there stays when a document at another place is processed. -/
theorem at?_process_of_some (hworking : tree.at? workingDirectory = some .directory)
    (hstands : document.Stands tree workingDirectory)
    (hbackups : ∀ backups ∈ settings.backupDirectory, backups.Descends) {location : Location}
    {entry : FileEntry} (hentry : tree.at? location = some entry)
    (hne : location ≠ document.path.place workingDirectory) :
    (process tree workingDirectory settings mode document).2.at? location = some entry := by
  obtain ⟨bytes, hbytes⟩ := Option.isSome_iff_exists.mp hstands.isFile
  rw [(process_eq hworking hstands hbackups hbytes).2 location]
  cases hfrom : entryFrom? tree workingDirectory settings mode document location with
  | none => exact hentry
  | some put =>
    rcases entryFrom?_cases hworking hstands hbackups hfrom with
      hplace | ⟨backups, -, hnone, hclear, ⟨rfl, -⟩ | ⟨habove, rfl⟩⟩
    · exact absurd hplace hne
    · rw [hnone] at hentry
      cases hentry
    · rw [(hclear.mono habove).eq_directory hentry, Option.some_or]

/-- Where nothing was there is nothing after a document is processed, or else its backup is there or
below. -/
theorem at?_process_of_none (hworking : tree.at? workingDirectory = some .directory)
    (hstands : document.Stands tree workingDirectory)
    (hbackups : ∀ backups ∈ settings.backupDirectory, backups.Descends) {location : Location}
    (hnone : tree.at? location = none) (mode : RunMode) :
    (process tree workingDirectory settings mode document).2.at? location = none ∨
      ∃ backups ∈ settings.backupDirectory,
        location = document.backupPlace backups workingDirectory ∨
        location <+: (document.backupPlace backups workingDirectory).dropLast ∧
          (process tree workingDirectory settings mode document).2.at? location =
            some .directory := by
  obtain ⟨bytes, hbytes⟩ := Option.isSome_iff_exists.mp hstands.isFile
  rw [(process_eq hworking hstands hbackups hbytes).2 location, hnone, Option.or_none]
  cases hfrom : entryFrom? tree workingDirectory settings mode document location with
  | none => exact Or.inl rfl
  | some put =>
    rcases entryFrom?_cases hworking hstands hbackups hfrom with
      rfl | ⟨backups, hdirectory, -, -, ⟨hplace, -⟩ | ⟨habove, rfl⟩⟩
    · simp [FileTree.bytes?, hnone] at hbytes
    · exact Or.inr ⟨backups, hdirectory, Or.inl hplace⟩
    · exact Or.inr ⟨backups, hdirectory, Or.inr ⟨habove, rfl⟩⟩

/-- A document is still a file after it is processed. -/
theorem isFile_process (hworking : tree.at? workingDirectory = some .directory)
    (hstands : document.Stands tree workingDirectory)
    (hbackups : ∀ backups ∈ settings.backupDirectory, backups.Descends) (mode : RunMode) :
    ((process tree workingDirectory settings mode document).2.bytes?
      (document.path.place workingDirectory)).isSome := by
  obtain ⟨bytes, hbytes⟩ := Option.isSome_iff_exists.mp hstands.isFile
  rw [FileTree.bytes?, (process_eq hworking hstands hbackups hbytes).2, entryFrom?]
  cases rewrittenWith? mode (process tree workingDirectory settings mode document).1 with
  | none => simp [FileTree.bytes?_eq_some_iff.mp hbytes, FileEntry.bytes?]
  | some reduced => simp [FileEntry.bytes?]

/-- Where something is, a file stays a file and a directory a directory. -/
theorem bytes?_process_eq_none_iff (hworking : tree.at? workingDirectory = some .directory)
    (hstands : document.Stands tree workingDirectory)
    (hbackups : ∀ backups ∈ settings.backupDirectory, backups.Descends) {location : Location}
    {entry : FileEntry} (hentry : tree.at? location = some entry) :
    (process tree workingDirectory settings mode document).2.bytes? location = none ↔
      tree.bytes? location = none := by
  by_cases hplace : location = document.path.place workingDirectory
  · subst hplace
    have hbefore := hstands.isFile
    have hafter := isFile_process hworking hstands hbackups mode
    rw [Option.isSome_iff_ne_none] at hbefore hafter
    exact iff_of_false hafter hbefore
  · rw [FileTree.bytes?, at?_process_of_some hworking hstands hbackups hentry hplace,
      FileTree.bytes?, hentry]

/-! ### What another document depends on -/

/-- Two trees are the same as far as processing a document goes: in the document itself, in whether
there is something at the place of its backup, and in the files on the way there. -/
structure SameFor (document : MenuDocument) (settings : Settings) (workingDirectory : Location)
    (tree after : FileTree) : Prop where
  working : after.at? workingDirectory = some .directory
  at?_place : after.at? (document.path.place workingDirectory) =
    tree.at? (document.path.place workingDirectory)
  free_iff : ∀ backups ∈ settings.backupDirectory,
    after.at? (document.backupPlace backups workingDirectory) = none ↔
      tree.at? (document.backupPlace backups workingDirectory) = none
  file_iff : ∀ backups ∈ settings.backupDirectory, ∀ above,
    above <+: document.backupPlace backups workingDirectory →
      (after.bytes? above = none ↔ tree.bytes? above = none)

namespace SameFor

/-- The document has the same bytes in both trees. -/
theorem bytes?_place (h : SameFor document settings workingDirectory tree after) :
    after.bytes? (document.path.place workingDirectory) =
      tree.bytes? (document.path.place workingDirectory) := by
  rw [FileTree.bytes?, h.at?_place, FileTree.bytes?]

/-- A document that stands in one tree stands in the other. -/
theorem stands (h : SameFor document settings workingDirectory tree after)
    (hstands : document.Stands tree workingDirectory) :
    document.Stands after workingDirectory :=
  { hstands with isFile := by rw [h.bytes?_place]; exact hstands.isFile }

/-- The way to a backup is clear in both trees or in neither. -/
theorem isClear_iff (h : SameFor document settings workingDirectory tree after)
    (hdirectory : backups ∈ settings.backupDirectory) {location : Location}
    (hlocation : location <+: document.backupPlace backups workingDirectory) :
    after.IsClear location ↔ tree.IsClear location :=
  forall₂_congr fun above habove => h.file_iff backups hdirectory above (habove.trans hlocation)

/-- The same backups are blocked, for the same reasons. -/
theorem blocked?_eq (h : SameFor document settings workingDirectory tree after) :
    blocked? after workingDirectory settings document =
      blocked? tree workingDirectory settings document := by
  rw [blocked?, blocked?]
  cases hdirectory : settings.backupDirectory with
  | none => rfl
  | some backups =>
    have habove := List.dropLast_prefix (document.backupPlace backups workingDirectory)
    simp only [Option.bind_some, blockedBackup?, FileTree.blockedError,
      h.free_iff backups hdirectory, h.isClear_iff hdirectory habove,
      h.isClear_iff hdirectory ((List.dropLast_prefix _).trans habove)]

/-- A backup puts the same at every location of both trees. -/
theorem savedAt?_eq (h : SameFor document settings workingDirectory tree after)
    (location : Location) :
    savedAt? after workingDirectory settings document location =
      savedAt? tree workingDirectory settings document location := by
  rw [savedAt?, savedAt?]
  cases hdirectory : settings.backupDirectory with
  | none => rfl
  | some backups =>
    simp only [Option.bind_some, backupAt?, h.free_iff backups hdirectory, h.at?_place]

/-- The document has the same outcome. -/
theorem outcome_eq (h : SameFor document settings workingDirectory tree after)
    (hworking : tree.at? workingDirectory = some .directory)
    (hstands : document.Stands tree workingDirectory)
    (hbackups : ∀ backups ∈ settings.backupDirectory, backups.Descends) :
    (process after workingDirectory settings mode document).1 =
      (process tree workingDirectory settings mode document).1 := by
  obtain ⟨bytes, hbytes⟩ := Option.isSome_iff_exists.mp hstands.isFile
  rw [(process_eq hworking hstands hbackups hbytes).1,
    (process_eq h.working (h.stands hstands) hbackups (h.bytes?_place.trans hbytes)).1,
    h.blocked?_eq]

/-- The document puts the same entries into the tree. -/
theorem entryFrom?_eq (h : SameFor document settings workingDirectory tree after)
    (hworking : tree.at? workingDirectory = some .directory)
    (hstands : document.Stands tree workingDirectory)
    (hbackups : ∀ backups ∈ settings.backupDirectory, backups.Descends) (location : Location) :
    entryFrom? after workingDirectory settings mode document location =
      entryFrom? tree workingDirectory settings mode document location := by
  simp only [entryFrom?, h.outcome_eq hworking hstands hbackups, h.savedAt?_eq]

end SameFor

/-! ### Two documents at different places -/

/-- Processing a document leaves the tree the same for another one below the same root. -/
theorem sameFor_process (hworking : tree.at? workingDirectory = some .directory)
    (hstands : document.Stands tree workingDirectory) (hother : other.Stands tree workingDirectory)
    (hbackups : ∀ backups ∈ settings.backupDirectory, backups.Descends)
    (hroot : document.root = other.root)
    (hne : document.path.place workingDirectory ≠ other.path.place workingDirectory) :
    SameFor other settings workingDirectory tree
      (process tree workingDirectory settings mode document).2 := by
  obtain ⟨bytes, hbytes⟩ := Option.isSome_iff_exists.mp hstands.isFile
  obtain ⟨otherBytes, hotherBytes⟩ := Option.isSome_iff_exists.mp hother.isFile
  have hfile := FileTree.bytes?_eq_some_iff.mp hbytes
  have hotherFile := FileTree.bytes?_eq_some_iff.mp hotherBytes
  refine ⟨?_, ?_, ?_, ?_⟩
  · refine at?_process_of_some hworking hstands hbackups hworking ?_
    rintro hsame
    rw [hsame, hfile] at hworking
    cases hworking
  · rw [at?_process_of_some hworking hstands hbackups hotherFile hne.symm, hotherFile]
  · intro backups hdirectory
    constructor
    · intro hnone
      cases hentry : tree.at? (other.backupPlace backups workingDirectory) with
      | none => rfl
      | some entry =>
        exfalso
        by_cases hplace :
            other.backupPlace backups workingDirectory = document.path.place workingDirectory
        · have hfile := isFile_process hworking hstands hbackups mode
          rw [← hplace, FileTree.bytes?, hnone] at hfile
          cases hfile
        · rw [at?_process_of_some hworking hstands hbackups hentry hplace] at hnone
          cases hnone
    · intro hnone
      rcases at?_process_of_none hworking hstands hbackups hnone mode with h | ⟨others, hothers, h⟩
      · exact h
      · exfalso
        obtain rfl := Option.mem_unique hdirectory hothers
        apply not_prefix_of_backupPlace hother hstands hroot.symm hne.symm backups
        rcases h with hplace | ⟨habove, -⟩
        · rw [hplace]
        · exact habove.trans (List.dropLast_prefix _)
  · intro backups hdirectory above habove
    cases hentry : tree.at? above with
    | some entry => exact bytes?_process_eq_none_iff hworking hstands hbackups hentry
    | none =>
      refine iff_of_true ?_ (by rw [FileTree.bytes?, hentry]; rfl)
      rcases at?_process_of_none hworking hstands hbackups hentry mode with
        h | ⟨others, hothers, rfl | ⟨-, h⟩⟩
      · rw [FileTree.bytes?, h]
        rfl
      · obtain rfl := Option.mem_unique hdirectory hothers
        exact absurd habove (not_prefix_of_backupPlace hstands hother hroot hne backups)
      · rw [FileTree.bytes?, h]
        rfl

/-- What two documents put at the same location is the same. -/
theorem entryFrom?_agree (hworking : tree.at? workingDirectory = some .directory)
    (hstands : document.Stands tree workingDirectory) (hother : other.Stands tree workingDirectory)
    (hbackups : ∀ backups ∈ settings.backupDirectory, backups.Descends)
    (hroot : document.root = other.root)
    (hne : document.path.place workingDirectory ≠ other.path.place workingDirectory)
    {location : Location} {entry otherEntry : FileEntry}
    (hentry : entryFrom? tree workingDirectory settings mode document location = some entry)
    (hotherEntry :
      entryFrom? tree workingDirectory settings mode other location = some otherEntry) :
    entry = otherEntry := by
  rcases entryFrom?_cases hworking hstands hbackups hentry with
    rfl | ⟨backups, hdirectory, hnone, hclear, hplace⟩
  · exact absurd rfl (not_place_of_entryFrom? hworking hstands hother hbackups hne hotherEntry)
  rcases entryFrom?_cases hworking hother hbackups hotherEntry with
    rfl | ⟨others, hothers, -, -, hotherPlace⟩
  · exact absurd rfl (not_place_of_entryFrom? hworking hother hstands hbackups hne.symm hentry)
  obtain rfl := Option.mem_unique hdirectory hothers
  rcases hplace with ⟨rfl, -⟩ | ⟨habove, rfl⟩ <;>
    rcases hotherPlace with ⟨hsame, -⟩ | ⟨hotherAbove, rfl⟩
  · exact absurd (by rw [hsame]) (not_prefix_of_backupPlace hstands hother hroot hne backups)
  · exact absurd (hotherAbove.trans (List.dropLast_prefix _))
      (not_prefix_of_backupPlace hstands hother hroot hne backups)
  · subst hsame
    exact absurd (habove.trans (List.dropLast_prefix _))
      (not_prefix_of_backupPlace hother hstands hroot.symm hne.symm backups)
  · rfl

end Menus
