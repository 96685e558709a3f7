import Menus.Path
import Mathlib.Data.List.Sort

/-!
# The order of paths

Components are totally ordered, and so are lists of them, so that paths can be put in order. What is
left when repeats are dropped from paths in order is strictly increasing, and holds each list of
components that occurred.
-/

namespace Menus

namespace Component

/-- Names are ordered by their texts. -/
theorem precedes_name {first second : String} :
    (name first).precedes (name second) = true ↔ first < second := decide_eq_true_iff

/-- No component comes before itself. -/
theorem precedes_irrefl (component : Component) : component.precedes component = false := by
  cases component with
  | name text => exact decide_eq_false (String.lt_irrefl text)
  | top => rfl
  | here => rfl
  | up => rfl

/-- The order of components is transitive. -/
theorem precedes_trans {first second third : Component} (hfirst : first.precedes second = true)
    (hsecond : second.precedes third = true) : first.precedes third = true := by
  cases first <;> cases second <;> cases third
  case name.name.name =>
    rw [precedes_name] at hfirst hsecond ⊢
    exact String.lt_trans hfirst hsecond
  all_goals simp [precedes, rank] at hfirst hsecond ⊢

/-- Of two different components one comes first. -/
theorem precedes_or_precedes {first second : Component} (h : first ≠ second) :
    first.precedes second = true ∨ second.precedes first = true := by
  cases first <;> cases second
  case name.name text other =>
    rw [precedes_name, precedes_name]
    by_contra hboth
    rw [not_or, String.not_lt, String.not_lt] at hboth
    exact h (congrArg name (String.le_antisymm hboth.2 hboth.1))
  all_goals simp [precedes, rank] at h ⊢

end Component

namespace Path

/-- No list of components comes before itself. -/
theorem precedesBy_irrefl (components : List Component) :
    precedesBy components components = false := by
  induction components with
  | nil => rfl
  | cons component components ih => simp [precedesBy, ih]

/-- The order of lists of components is transitive. -/
theorem precedesBy_trans {first second third : List Component}
    (hfirst : precedesBy first second = true) (hsecond : precedesBy second third = true) :
    precedesBy first third = true := by
  induction first generalizing second third with
  | nil =>
    cases third with
    | nil => cases second <;> simp [precedesBy] at hsecond
    | cons component third => rfl
  | cons component first ih =>
    cases second with
    | nil => simp [precedesBy] at hfirst
    | cons other second =>
      cases third with
      | nil => simp [precedesBy] at hsecond
      | cons last third =>
        simp only [precedesBy] at hfirst hsecond ⊢
        by_cases hsame : component = other
        · subst hsame
          by_cases hlast : component = last
          · subst hlast
            simp only [if_true] at hfirst hsecond ⊢
            exact ih hfirst hsecond
          · simpa [hlast] using hsecond
        · simp only [hsame, if_false] at hfirst
          by_cases hlast : other = last
          · subst hlast
            simpa [hsame] using hfirst
          · simp only [hlast, if_false] at hsecond
            have htrans := Component.precedes_trans hfirst hsecond
            rw [if_neg, htrans]
            rintro rfl
            rw [Component.precedes_irrefl] at htrans
            cases htrans

/-- Of two different lists of components one comes first. -/
theorem precedesBy_or_precedesBy {first second : List Component} (h : first ≠ second) :
    precedesBy first second = true ∨ precedesBy second first = true := by
  induction first generalizing second with
  | nil =>
    cases second with
    | nil => exact absurd rfl h
    | cons other second => exact Or.inl rfl
  | cons component first ih =>
    cases second with
    | nil => exact Or.inr rfl
    | cons other second =>
      simp only [precedesBy]
      by_cases hsame : component = other
      · subst hsame
        simp only [if_true]
        exact ih fun heq => h (by rw [heq])
      · simp only [hsame, Ne.symm hsame, if_false]
        exact Component.precedes_or_precedes hsame

/-- That a path does not come after another one is transitive. -/
theorem not_precedes_trans {first second third : Path} (hfirst : (!second.precedes first) = true)
    (hsecond : (!third.precedes second) = true) : (!third.precedes first) = true := by
  simp only [precedes, Bool.not_eq_true'] at hfirst hsecond ⊢
  by_contra hthird
  rw [Bool.not_eq_false] at hthird
  by_cases hsame : second.components = first.components
  · rw [hsame, hthird] at hsecond
    cases hsecond
  · rcases precedesBy_or_precedesBy hsame with hless | hless
    · rw [hless] at hfirst
      cases hfirst
    · rw [precedesBy_trans hthird hless] at hsecond
      cases hsecond

/-- Of two paths one does not come after the other. -/
theorem not_precedes_total (first second : Path) :
    ((!second.precedes first) || (!first.precedes second)) = true := by
  by_contra hboth
  simp only [precedes, Bool.or_eq_true, Bool.not_eq_true', not_or, Bool.not_eq_false] at hboth
  have hless := precedesBy_trans hboth.1 hboth.2
  rw [precedesBy_irrefl] at hless
  cases hless

/-- Paths are in order when none comes before an earlier one. -/
theorem pairwise_inOrder (paths : List Path) :
    (inOrder paths).Pairwise fun first second => second.precedes first = false := by
  have hsorted : (inOrder paths).Pairwise fun first second => (!second.precedes first) = true := by
    apply List.pairwise_mergeSort
    case trans => exact fun _ _ _ => not_precedes_trans
    case total => exact not_precedes_total
  simpa using hsorted

/-- Sorting paths loses none of them. -/
theorem inOrder_perm (paths : List Path) : (inOrder paths).Perm paths := List.mergeSort_perm _ _

/-- The sorted paths are the paths. -/
theorem mem_inOrder {paths : List Path} {path : Path} : path ∈ inOrder paths ↔ path ∈ paths :=
  (inOrder_perm paths).mem_iff

/-- Dropping repeats keeps the order of the other paths. -/
theorem dropRepeats_sublist (paths : List Path) : (dropRepeats paths).Sublist paths := by
  induction paths with
  | nil => exact List.Sublist.refl _
  | cons path paths ih =>
    rw [dropRepeats]
    split
    case h_1 => simp
    case h_2 next others hothers =>
      rw [hothers] at ih
      split
      · exact ((List.sublist_cons_self _ _).trans ih).cons_cons _
      · exact ih.cons_cons _

/-- Every path is there when repeats are dropped, in one spelling or another. -/
theorem exists_mem_dropRepeats {paths : List Path} {path : Path} (h : path ∈ paths) :
    ∃ other ∈ dropRepeats paths, other.components = path.components := by
  induction paths with
  | nil => cases h
  | cons first paths ih =>
    rw [dropRepeats]
    split
    case h_1 hothers =>
      rcases List.mem_cons.mp h with rfl | h
      · exact ⟨path, by simp, rfl⟩
      · obtain ⟨other, hother, -⟩ := ih h
        rw [hothers] at hother
        cases hother
    case h_2 next others hothers =>
      rw [hothers] at ih
      split
      case isTrue hsame =>
        have hsame : first.components = next.components := by simpa [sameAs] using hsame
        rcases List.mem_cons.mp h with rfl | h
        · exact ⟨path, by simp, rfl⟩
        · obtain ⟨other, hother, heq⟩ := ih h
          rcases List.mem_cons.mp hother with rfl | hother
          · exact ⟨first, by simp, hsame.trans heq⟩
          · exact ⟨other, by simp [hother], heq⟩
      case isFalse =>
        rcases List.mem_cons.mp h with rfl | h
        · exact ⟨path, by simp, rfl⟩
        · obtain ⟨other, hother, heq⟩ := ih h
          exact ⟨other, List.mem_cons_of_mem _ hother, heq⟩

/-- Repeats are dropped from paths in order so that the rest is strictly increasing. A path that
differs from its neighbour comes before it, hence before all that follow. -/
theorem pairwise_dropRepeats {paths : List Path}
    (h : paths.Pairwise fun first second => second.precedes first = false) :
    (dropRepeats paths).Pairwise fun first second => first.precedes second = true := by
  induction paths with
  | nil => exact List.Pairwise.nil
  | cons first paths ih =>
    obtain ⟨hfirst, hpaths⟩ := List.pairwise_cons.mp h
    have ih := ih hpaths
    have hsublist := dropRepeats_sublist paths
    rw [dropRepeats]
    split
    case h_1 => exact List.pairwise_singleton _ _
    case h_2 next others hothers =>
      rw [hothers] at ih hsublist
      obtain ⟨hnext, hrest⟩ := List.pairwise_cons.mp ih
      split
      case isTrue hsame =>
        have hsame : first.components = next.components := by simpa [sameAs] using hsame
        refine List.pairwise_cons.mpr ⟨fun other hother => ?_, hrest⟩
        rw [precedes, hsame]
        exact hnext other hother
      case isFalse hdiffer =>
        have hdiffer : first.components ≠ next.components := by simpa [sameAs] using hdiffer
        have hless : first.precedes next = true := by
          rcases precedesBy_or_precedesBy hdiffer with hless | hless
          · exact hless
          · have hnot := hfirst next (hsublist.subset List.mem_cons_self)
            rw [precedes, hless] at hnot
            cases hnot
        refine List.pairwise_cons.mpr ⟨fun other hother => ?_, ih⟩
        rcases List.mem_cons.mp hother with rfl | hother
        · exact hless
        · exact precedesBy_trans hless (hnext other hother)

/-- Two lists of paths in order that hold the same components are the same up to spelling. -/
theorem map_components_eq {first second : List Path}
    (hfirst : first.Pairwise fun path other => other.precedes path = false)
    (hsecond : second.Pairwise fun path other => other.precedes path = false)
    (h : (first.map components).Perm (second.map components)) :
    first.map components = second.map components := by
  have hlist (paths : List Path)
      (hpaths : paths.Pairwise fun path other => other.precedes path = false) :
      (paths.map components).Pairwise fun path other => precedesBy other path = false :=
    List.pairwise_map.mpr hpaths
  refine List.Perm.eq_of_pairwise ?_ (hlist first hfirst) (hlist second hsecond) h
  intro path other _ _ hmore hless
  by_contra hne
  rcases precedesBy_or_precedesBy hne with h | h
  · rw [h] at hless
    cases hless
  · rw [h] at hmore
    cases hmore

/-- Paths that all differ are strictly increasing once they are in order. -/
theorem pairwise_inOrder_of_nodup {paths : List Path} (h : (paths.map components).Nodup) :
    (inOrder paths).Pairwise fun first second => first.precedes second = true := by
  have hnodup : ((inOrder paths).map components).Nodup :=
    ((inOrder_perm paths).map components).nodup_iff.mpr h
  refine ((pairwise_inOrder paths).and (List.pairwise_map.mp hnodup)).imp ?_
  rintro first second ⟨hnot, hdiffer⟩
  rcases precedesBy_or_precedesBy hdiffer with hless | hless
  · exact hless
  · rw [precedes, hless] at hnot
    cases hnot

/-- Whatever has the components of strictly increasing paths is strictly increasing. -/
theorem pairwise_of_map_components {α : Type} {path : α → Path} {items : List α} {paths : List Path}
    (hitems : items.Pairwise fun first second => (path first).precedes (path second) = true)
    (h : paths.map components = items.map fun item => (path item).components) :
    paths.Pairwise fun first second => first.precedes second = true := by
  have hlist : (items.map fun item => (path item).components).Pairwise
      fun first second => precedesBy first second = true := List.pairwise_map.mpr hitems
  rw [← h] at hlist
  exact List.pairwise_map.mp hlist

/-- What is strictly increasing is in order. -/
theorem precedes_asymm {first second : Path} (h : first.precedes second = true) :
    second.precedes first = false := by
  by_contra hmore
  have hself := precedesBy_trans h (eq_true_of_ne_false hmore)
  rw [precedesBy_irrefl] at hself
  cases hself

/-- Strictly increasing paths all differ. -/
theorem nodup_map_components {paths : List Path}
    (h : paths.Pairwise fun first second => first.precedes second = true) :
    (paths.map components).Nodup := by
  refine List.pairwise_map.mpr (h.imp fun {first second} hless hsame => ?_)
  rw [precedes, hsame, precedesBy_irrefl] at hless
  cases hless

/-- In order and without repeats, paths have the components that occurred. -/
theorem mem_map_components_dropRepeats {paths : List Path} {components : List Component} :
    components ∈ (dropRepeats (inOrder paths)).map Path.components ↔
      ∃ path ∈ paths, path.components = components := by
  rw [List.mem_map]
  constructor
  · rintro ⟨path, hpath, hcomponents⟩
    exact ⟨path, mem_inOrder.mp ((dropRepeats_sublist _).subset hpath), hcomponents⟩
  · rintro ⟨path, hpath, rfl⟩
    exact exists_mem_dropRepeats (mem_inOrder.mpr hpath)

/-- In order and without repeats, it makes no difference in which order paths were or how often. -/
theorem map_components_dropRepeats_eq {first second : List Path}
    (h : ∀ path, path ∈ first ↔ path ∈ second) :
    (dropRepeats (inOrder first)).map components =
      (dropRepeats (inOrder second)).map components := by
  have hfirst := pairwise_dropRepeats (pairwise_inOrder first)
  have hsecond := pairwise_dropRepeats (pairwise_inOrder second)
  refine map_components_eq (hfirst.imp precedes_asymm) (hsecond.imp precedes_asymm) ?_
  rw [List.perm_ext_iff_of_nodup (nodup_map_components hfirst) (nodup_map_components hsecond)]
  intro components
  simp only [mem_map_components_dropRepeats, h]

end Path

end Menus
