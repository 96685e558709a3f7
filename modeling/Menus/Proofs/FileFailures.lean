import Menus.Run
import Mathlib.Tactic.SplitIfs

/-!
# How processing a document fails

An operation on a file tree fails for what is found in the tree, or because the disk refuses a step
of it. Processing a document passes such a failure on; apart from that, it fails when the document
gives no text and when there is no path from the root of the document to back it up at.
-/

namespace Menus

/-- Whether a failure comes from what is found in a tree, and not from a path alone. -/
def FileError.fromTree : FileError → Bool
  | .emptyPath | .outsideRoot | .noBackups => false
  | _ => true

/-- What an operation on a path fails with: something is in its way in a tree, or a disk refuses a
step of it. -/
def FileError.IsMet (error : FileError) (disk : Disk) (path : Path) : Prop :=
  error.fromTree = true ∨ ∃ step fault, disk.fault? step path = some fault ∧ fault.error = error

/-- A disk that refuses nothing adds no failure. -/
theorem FileError.isMet_sound {error : FileError} {path : Path} :
    error.IsMet .sound path ↔ error.fromTree = true := by
  simp [IsMet]

namespace FileTree

variable {tree after : FileTree} {workingDirectory location : Location} {path : Path}
  {error : FileError} {disk : Disk}

/-! ### Operations on trees -/

/-- What does one thing after another fails as one of them does. -/
theorem fromTree_of_bind {α β : Type} {first : Except FileError α} {next : α → Except FileError β}
    (hfirst : ∀ error, first = .error error → error.fromTree = true)
    (hnext : ∀ value error, next value = .error error → error.fromTree = true)
    (h : first >>= next = .error error) : error.fromTree = true := by
  cases first with
  | error other => exact hfirst error (congrArg _ (Except.error.inj h))
  | ok value => exact hnext value error h

/-- Segments lead nowhere for what is in the tree. -/
theorem fromTree_of_follow {segments : List String}
    (h : tree.follow location segments = .error error) : error.fromTree = true := by
  fun_induction follow tree location segments with
  | case1 => cases h
  | case2 => cases h; rfl
  | case3 => cases h; rfl
  | case4 _ _ _ _ _ ih => exact ih h
  | case5 _ _ _ _ ih => exact ih h
  | case6 _ _ _ _ _ _ ih => exact ih h

/-- So does a path. -/
theorem fromTree_of_locate (h : tree.locate workingDirectory path = .error error) :
    error.fromTree = true := by
  rw [locate] at h
  split at h
  · cases h
    rfl
  · exact fromTree_of_follow h

/-- Text cannot be read for what is in the tree. -/
theorem fromTree_of_readText (h : tree.readText workingDirectory path = .error error) :
    error.fromTree = true := by
  refine fromTree_of_bind (fun _ => fromTree_of_bind (fun _ => fromTree_of_locate) ?_) ?_ h
  · intro location error h
    split at h <;> cases h <;> rfl
  · intro bytes error h
    split at h <;> cases h
    rfl

/-- The directory of a path is missed for what is in the tree. -/
theorem fromTree_of_locateParent (h : tree.locateParent workingDirectory path = .error error) :
    error.fromTree = true := by
  rw [locateParent] at h
  split at h
  · cases h
    rfl
  · refine fromTree_of_bind (fun _ => fromTree_of_follow) ?_ h
    intro directory error h
    split at h <;> cases h <;> rfl

/-- A file cannot be written for what is in the tree. -/
theorem fromTree_of_write {bytes : ByteArray}
    (h : tree.write workingDirectory path bytes = .error error) : error.fromTree = true := by
  refine fromTree_of_bind (fun _ => fromTree_of_locateParent) ?_ h
  rintro ⟨directory, name⟩ error h
  dsimp only at h
  split_ifs at h <;> cases h <;> rfl

/-- A directory cannot be made for what is in the tree. -/
theorem fromTree_of_makeDirectory
    (h : tree.makeDirectory workingDirectory path = .error error) : error.fromTree = true := by
  refine fromTree_of_bind (fun _ => fromTree_of_locateParent) ?_ h
  rintro ⟨directory, name⟩ error h
  dsimp only at h
  split_ifs at h <;> cases h <;> rfl

/-- Nor can one be made with its parents. -/
theorem fromTree_of_makeDirectoriesOf {paths : List Path}
    (h : tree.makeDirectoriesOf workingDirectory paths = (.error error, after)) :
    error.fromTree = true := by
  induction paths generalizing tree after with
  | nil => cases h
  | cons path parents ih =>
    rw [makeDirectoriesOf] at h
    split at h
    case isTrue => cases h
    case isFalse =>
      split at h
      case h_1 => cases h
      case h_2 =>
        split at h <;> cases h
        rfl
      case h_3 =>
        split at h
        case h_1 hparents =>
          cases h
          exact ih hparents
        case h_2 =>
          split at h
          case h_1 => cases h
          case h_2 hmade =>
            split at h <;> cases h
            exact fromTree_of_makeDirectory hmade
      case h_4 hmade =>
        cases h
        exact fromTree_of_makeDirectory hmade

/-- A file cannot be copied for what is in the tree. -/
theorem fromTree_of_copy {source target : Path}
    (h : tree.copy workingDirectory source target = .error error) : error.fromTree = true := by
  refine fromTree_of_bind (fun _ => fromTree_of_locate) ?_ h
  intro location error h
  split at h
  case h_1 =>
    cases h
    rfl
  case h_2 =>
    cases h
    rfl
  case h_3 => exact fromTree_of_bind (fun _ => fromTree_of_write) (fun _ _ => fromTree_of_write) h

/-! ### Steps that a disk may refuse -/

/-- A step fails because it is refused, or as it does on any disk. -/
theorem isMet_of_attempt {α : Type} {step : DiskStep} {result : Except FileError α}
    (hresult : ∀ error, result = .error error → error.fromTree = true)
    (h : disk.attempt step path result = .error error) : error.IsMet disk path := by
  rw [Disk.attempt] at h
  split at h
  case h_1 fault hfault => exact Or.inr ⟨step, fault, hfault, Except.error.inj h⟩
  case h_2 => exact Or.inl (hresult error h)

/-- Permissions can be looked up unless there is nothing to look them up of. -/
theorem fromTree_of_inspect (h : tree.inspect workingDirectory path = .error error) :
    error.fromTree = true := by
  refine fromTree_of_bind (fun _ => fromTree_of_locate) ?_ h
  intro location error h
  split at h <;> cases h
  rfl

/-- There is a place for a temporary file unless its directory is missing or full. -/
theorem fromTree_of_chooseTemporary {drawnName : Nat → String}
    (h : tree.chooseTemporary workingDirectory path drawnName = .error error) :
    error.fromTree = true := by
  refine fromTree_of_bind (fun _ => fromTree_of_locate) ?_ h
  intro location error h
  split at h
  case h_1 =>
    cases h
    rfl
  case h_2 =>
    cases h
    rfl
  case h_3 =>
    split at h <;> cases h
    rfl

/-- A file is renamed unless it is missing or something is in its way. -/
theorem fromTree_of_rename (h : tree.rename workingDirectory location path = .error error) :
    error.fromTree = true := by
  rw [rename] at h
  split at h
  case h_1 =>
    cases h
    rfl
  case h_2 => exact fromTree_of_write h

/-- What goes wrong with a temporary file is in the way of it or refused. -/
theorem isMet_of_settleTemporary {bytes : ByteArray} {directory : Location} {name : String}
    (h : tree.settleTemporary workingDirectory path bytes disk directory name =
      (.error error, after)) : error.IsMet disk path := by
  rw [settleTemporary] at h
  split at h
  case h_1 fault hfault => exact Or.inr ⟨.fill, fault, hfault, Except.error.inj (Prod.mk.inj h).1⟩
  case h_2 =>
    dsimp only at h
    split at h
    case h_1 hpermit =>
      cases h
      exact isMet_of_attempt (fun _ hnever => by cases hnever) hpermit
    case h_2 =>
      split at h
      case h_1 hrename =>
        cases h
        exact isMet_of_attempt (fun _ => fromTree_of_rename) hrename
      case h_2 => cases h

/-- Likewise for what goes wrong when the bytes of a file are replaced. -/
theorem isMet_of_replaceFile {bytes : ByteArray}
    (h : tree.replaceFile workingDirectory path bytes disk = (.error error, after)) :
    error.IsMet disk path := by
  rw [replaceFile] at h
  split at h
  case h_1 hinspect =>
    cases h
    exact isMet_of_attempt (fun _ => fromTree_of_inspect) hinspect
  case h_2 =>
    split at h
    case h_1 hchoose =>
      cases h
      exact isMet_of_attempt (fun _ => fromTree_of_chooseTemporary) hchoose
    case h_2 => exact isMet_of_settleTemporary h

end FileTree

variable {tree after : FileTree} {workingDirectory : Location} {settings : Settings}
  {mode : RunMode} {document : MenuDocument} {error : RunError} {disk : Disk}

/-! ### Copying and backing up -/

/-- An operation on a path fails for what is in its way in a tree, or because a disk refuses it. -/
def RunError.IsMet (error : RunError) (disk : Disk) : Prop :=
  ∃ path cause, error = .file path cause ∧ cause.IsMet disk path

/-- Making room fails where a file is in the way or a directory is refused. -/
theorem isMet_of_makeRoom {target : Path}
    (h : makeRoom tree workingDirectory target disk = (.error error, after)) :
    error.IsMet disk := by
  rw [makeRoom] at h
  split at h
  case h_1 => cases h
  case h_2 parent _ =>
    split at h
    case h_1 fault hfault =>
      cases h
      exact ⟨parent, fault.error, rfl, Or.inr ⟨.makeDirectories, fault, hfault, rfl⟩⟩
    case h_2 =>
      cases hmade : tree.makeDirectories workingDirectory parent with
      | mk result made =>
        cases result with
        | ok => simp [hmade, Except.mapError] at h
        | error cause =>
          simp only [hmade, Except.mapError, Prod.mk.injEq, Except.error.injEq] at h
          exact ⟨parent, cause, h.1.symm, Or.inl (FileTree.fromTree_of_makeDirectoriesOf hmade)⟩

/-- Copying fails where there is no room or no file can be written, or because it is refused. -/
theorem isMet_of_copyInto {source target : Path}
    (h : copyInto tree workingDirectory source target disk = (.error error, after)) :
    error.IsMet disk := by
  rw [copyInto] at h
  split at h
  case h_1 hroom =>
    cases h
    exact isMet_of_makeRoom hroom
  case h_2 =>
    split at h
    case h_1 fault hfault =>
      cases h
      exact ⟨target, fault.error, rfl, Or.inr ⟨.copy, fault, hfault, rfl⟩⟩
    case h_2 =>
      split at h
      case h_1 cause hcopied =>
        cases h
        exact ⟨target, cause, rfl, Or.inl (FileTree.fromTree_of_copy hcopied)⟩
      case h_2 => cases h

/-- Backing up a document fails for what is in the tree, because the disk refuses it, or because the
document is outside of its root. -/
theorem backUp_eq_error {backups : Path}
    (h : backUp tree workingDirectory document backups disk = (.error error, after)) :
    error.IsMet disk ∨ document.path.strip? document.root = none ∧
      error = .file document.path .outsideRoot := by
  rw [backUp] at h
  split at h
  case h_1 hstrip =>
    cases h
    exact Or.inr ⟨hstrip, rfl⟩
  case h_2 =>
    left
    dsimp only at h
    split at h
    case isTrue => cases h
    case isFalse =>
      split at h
      case h_1 hfailed =>
        cases h
        exact isMet_of_copyInto hfailed
      case h_2 => cases h

/-- Writing a document fails as its backup does, or for what is in the way of the document. -/
theorem saveReduced_eq_error {reduced : String}
    (h : saveReduced tree workingDirectory settings document reduced disk = (.error error, after)) :
    error.IsMet disk ∨ document.path.strip? document.root = none ∧
      error = .file document.path .outsideRoot := by
  rw [saveReduced] at h
  split at h
  case h_1 hfailed =>
    cases h
    rw [backUpIfAsked] at hfailed
    split at hfailed
    case h_1 => cases hfailed
    case h_2 backups _ =>
      cases hbackUp : backUp tree workingDirectory document backups disk with
      | mk result saved =>
        cases result with
        | ok => simp [hbackUp, Except.map] at hfailed
        | error cause =>
          simp only [hbackUp, Except.map, Prod.mk.injEq, Except.error.injEq] at hfailed
          exact hfailed.1 ▸ backUp_eq_error hbackUp
  case h_2 saved _ =>
    cases hreplaced :
        saved.replaceFile workingDirectory document.path reduced.toUTF8 disk with
    | mk result written =>
      cases result with
      | ok => simp only [hreplaced, Except.mapError, Prod.mk.injEq, reduceCtorEq, false_and] at h
      | error cause =>
        simp only [hreplaced, Except.mapError, Prod.mk.injEq, Except.error.injEq] at h
        exact Or.inl ⟨document.path, cause, h.1.symm, FileTree.isMet_of_replaceFile hreplaced⟩

/-! ### Processing -/

/-- Processing a document fails for what is in the tree, because the disk refuses a step, because
the document gives no text, or because it is outside of its root. -/
theorem process_eq_error
    (h : process tree workingDirectory settings mode document disk = (.error error, after)) :
    error.IsMet disk ∨ (∃ cause, error = .document document.path cause) ∨
      document.path.strip? document.root = none ∧ error = .file document.path .outsideRoot := by
  rw [process] at h
  split at h
  case h_1 cause hread =>
    cases h
    exact Or.inl ⟨document.path, cause, rfl,
      FileTree.isMet_of_attempt (fun _ => FileTree.fromTree_of_readText) hread⟩
  case h_2 =>
    split at h
    case h_1 => cases h
    case h_2 cause _ _ =>
      cases h
      exact Or.inr (Or.inl ⟨cause, rfl⟩)
    case h_3 =>
      split at h
      case isTrue => cases h
      case isFalse =>
        split at h
        case h_1 => cases h
        case h_2 =>
          split at h
          case h_1 hfailed =>
            cases h
            exact (saveReduced_eq_error hfailed).imp_right Or.inr
          case h_2 => cases h

end Menus
