import Menus.Node.Collapse
import Menus.Node.Separators
import Menus.Proofs.Tree
import Mathlib.Data.List.Chain

/-!
# Tidy entries

Tidying drops separators and nothing else: the entries that are not separators stay as they are,
no separator is left at either end, and none follows another. Entries that are already tidy do not
change. The statements about `tidyAfter` carry the separator that is still owed when the given
entries come after some that were skipped.
-/

namespace Menus

open Node

/-- The entries that are not separators. -/
def meaningful (entries : List Node) : List Node := entries.filter (!·.isSeparator)

/-- Of two neighbours at most one is a separator. -/
def Apart (entries : List Node) : Prop :=
  entries.IsChain fun entry next => ¬(entry = separator ∧ next = separator)

/-- Entries with no separator at either end and no two of them in a row. -/
structure Tidy (entries : List Node) : Prop where
  /-- The first entry is no separator. -/
  first : entries.head? ≠ some separator
  /-- The last entry is no separator. -/
  last : entries.getLast? ≠ some separator
  /-- No separator follows another. -/
  apart : Apart entries

/-- Only one node is a separator. -/
theorem isSeparator_iff {node : Node} : node.isSeparator = true ↔ node = separator := by
  simp [isSeparator]

/-- There is nothing meaningful among no entries. -/
@[simp] theorem meaningful_nil : meaningful [] = [] := rfl

/-- A separator is not meaningful. -/
theorem meaningful_cons_separator (entries : List Node) :
    meaningful (separator :: entries) = meaningful entries := by
  simp [meaningful]

/-- Every other entry is. -/
theorem meaningful_cons {entry : Node} (h : entry ≠ separator) (entries : List Node) :
    meaningful (entry :: entries) = entry :: meaningful entries := by
  simp [meaningful, isSeparator, h]

/-- The meaningful entries are those that are no separators. -/
theorem mem_meaningful {entry : Node} {entries : List Node} :
    entry ∈ meaningful entries ↔ entry ∈ entries ∧ entry ≠ separator := by
  simp [meaningful, isSeparator]

/-- Only separators are left exactly when nothing meaningful is. -/
theorem all_isSeparator_iff {entries : List Node} :
    entries.all isSeparator = true ↔ meaningful entries = [] := by
  simp [meaningful, List.filter_eq_nil_iff]

/-- The separator that is owed to the entries after a gap. -/
private def owed (divided : Bool) : List Node := if divided then [separator] else []

/-- A separator is held back until an entry follows. -/
private theorem tidyAfter_separator (divided : Bool) (entries : List Node) :
    tidyAfter divided (separator :: entries) = tidyAfter true entries := by
  simp [tidyAfter]

/-- An entry comes after the separator that was held back. -/
private theorem tidyAfter_cons {entry : Node} (h : entry ≠ separator) (divided : Bool)
    (entries : List Node) :
    tidyAfter divided (entry :: entries) = owed divided ++ entry :: tidyAfter false entries := by
  cases divided <;> simp [tidyAfter, owed, isSeparator, h]

/-- Tidying keeps the meaningful entries. -/
private theorem meaningful_tidyAfter (divided : Bool) (entries : List Node) :
    meaningful (tidyAfter divided entries) = meaningful entries := by
  induction entries generalizing divided with
  | nil => rfl
  | cons entry entries ih =>
    by_cases h : entry = separator
    · subst h
      rw [tidyAfter_separator, ih, meaningful_cons_separator]
    · rw [tidyAfter_cons h, meaningful_cons h, ← ih false, ← meaningful_cons h]
      cases divided with
      | false => rfl
      | true => exact meaningful_cons_separator _

/-- Tidying adds at most the separator that was held back. -/
private theorem tidyAfter_sublist (divided : Bool) (entries : List Node) :
    (tidyAfter divided entries).Sublist (owed divided ++ entries) := by
  induction entries generalizing divided with
  | nil => simp [tidyAfter]
  | cons entry entries ih =>
    by_cases h : entry = separator
    · subst h
      rw [tidyAfter_separator]
      exact (ih true).trans (List.sublist_append_right _ _)
    · rw [tidyAfter_cons h]
      exact ((ih false).cons_cons entry).append_left (owed divided)

/-- Tidying leaves no two separators together. -/
private theorem tidyAfter_apart (divided : Bool) (entries : List Node) :
    Apart (tidyAfter divided entries) := by
  induction entries generalizing divided with
  | nil => exact List.IsChain.nil
  | cons entry entries ih =>
    by_cases h : entry = separator
    · subst h
      rw [tidyAfter_separator]
      exact ih true
    · have hrest : Apart (entry :: tidyAfter false entries) :=
        (ih false).cons fun next _ hboth => h hboth.1
      rw [tidyAfter_cons h]
      cases divided with
      | false => exact hrest
      | true => exact hrest.cons fun next hnext hboth => by simp_all

/-- Tidying leaves no separator at the end. -/
private theorem tidyAfter_last (divided : Bool) (entries : List Node) :
    (tidyAfter divided entries).getLast? ≠ some separator := by
  induction entries generalizing divided with
  | nil => simp [tidyAfter]
  | cons entry entries ih =>
    by_cases h : entry = separator
    · subst h
      rw [tidyAfter_separator]
      exact ih true
    · rw [tidyAfter_cons h, List.getLast?_append, List.getLast?_cons]
      cases hend : (tidyAfter false entries).getLast? with
      | none => simpa using h
      | some last => simpa [hend] using ih false

/-- After the separator that is owed, entries that are tidy but for their start stay the same. -/
private theorem tidyAfter_eq (divided : Bool) {entries : List Node}
    (hlast : (owed divided ++ entries).getLast? ≠ some separator)
    (hapart : Apart (owed divided ++ entries)) :
    tidyAfter divided entries = owed divided ++ entries := by
  induction entries generalizing divided with
  | nil =>
    cases divided with
    | false => rfl
    | true => simp [owed] at hlast
  | cons entry entries ih =>
    by_cases h : entry = separator
    · subst h
      rw [tidyAfter_separator]
      cases divided with
      | false => exact ih true hlast hapart
      | true => simp [owed, Apart] at hapart
    · have hrest : tidyAfter false entries = entries := by
        apply ih false
        · intro hend
          apply hlast
          have hend : entries.getLast? = some separator := hend
          simp [List.getLast?_append, List.getLast?_cons, hend]
        · exact (hapart.right_of_append).of_cons
      rw [tidyAfter_cons h, hrest]

/-- The first entry that is kept is the first one that is no separator. -/
theorem tidySeparators_eq (entries : List Node) :
    tidySeparators entries = tidyAfter false (entries.dropWhile isSeparator) := by
  induction entries with
  | nil => rfl
  | cons entry entries ih =>
    cases hentry : entry.isSeparator <;> simp [tidySeparators, tidyAfter, hentry, ih]

/-- Separators in front can go without changing the meaningful entries. -/
theorem meaningful_dropWhile (entries : List Node) :
    meaningful (entries.dropWhile isSeparator) = meaningful entries := by
  induction entries with
  | nil => rfl
  | cons entry entries ih =>
    cases hentry : entry.isSeparator <;> simp [hentry, meaningful] at ih ⊢
    exact ih

/-- Tidying keeps every entry that is no separator, in its place among the others. -/
@[simp] theorem meaningful_tidySeparators (entries : List Node) :
    meaningful (tidySeparators entries) = meaningful entries := by
  rw [tidySeparators_eq, meaningful_tidyAfter, meaningful_dropWhile]

/-- Tidying adds nothing. -/
theorem tidySeparators_sublist (entries : List Node) :
    (tidySeparators entries).Sublist entries := by
  rw [tidySeparators_eq]
  exact (tidyAfter_sublist false _).trans (List.dropWhile_sublist _)

/-- Tidied entries are tidy. -/
theorem tidy_tidySeparators (entries : List Node) : Tidy (tidySeparators entries) := by
  refine ⟨?_, ?_, ?_⟩
  · rw [tidySeparators_eq]
    cases hkept : entries.dropWhile isSeparator with
    | nil => simp [tidyAfter]
    | cons entry rest =>
      have hentry : entry.isSeparator = false := by
        have h := List.head_dropWhile_not isSeparator (l := entries) (by simp [hkept])
        simpa [hkept] using h
      have hne : entry ≠ separator := by
        intro h
        simp [h] at hentry
      simpa [tidyAfter, hentry] using hne
  · rw [tidySeparators_eq]
    exact tidyAfter_last false _
  · rw [tidySeparators_eq]
    exact tidyAfter_apart false _

/-- Nothing is left exactly when there were only separators. -/
theorem tidySeparators_eq_nil_iff {entries : List Node} :
    tidySeparators entries = [] ↔ meaningful entries = [] := by
  constructor
  · intro h
    rw [← meaningful_tidySeparators, h, meaningful_nil]
  · intro h
    rw [← meaningful_tidySeparators] at h
    cases hkept : tidySeparators entries with
    | nil => rfl
    | cons entry rest =>
      have hfirst := (tidy_tidySeparators entries).first
      have hentry : entry ≠ separator := by simpa [hkept] using hfirst
      rw [hkept, meaningful_cons hentry] at h
      cases h

/-- Tidy entries stay as they are. -/
theorem Tidy.tidySeparators_eq_self {entries : List Node} (htidy : Tidy entries) :
    tidySeparators entries = entries := by
  have hstart : entries.dropWhile isSeparator = entries := by
    cases entries with
    | nil => rfl
    | cons entry rest =>
      have hentry : entry ≠ separator := by simpa using htidy.first
      simp [isSeparator, hentry]
  rw [tidySeparators_eq, hstart]
  exact tidyAfter_eq false htidy.last htidy.apart

/-! ### One more separator -/

/-- What ends in a separator does so without its first entry, unless that is the only one. -/
private theorem eq_separator_of_last {entry : Node} {before : List Node}
    (hlast : ∀ last ∈ (entry :: before).getLast?, last = separator) :
    (∀ last ∈ before.getLast?, last = separator) ∧ (before = [] → entry = separator) := by
  refine ⟨fun last hmem => hlast last ?_, ?_⟩
  · rw [List.getLast?_cons, Option.mem_def.mp hmem]
    rfl
  · rintro rfl
    exact hlast entry rfl

/-- A separator next to another one, or at an end, makes no difference. -/
private theorem tidyAfter_insert (divided : Bool) {before after : List Node}
    (hnext : (∀ last ∈ before.getLast?, last = separator) ∧ (before = [] → divided = true) ∨
      ∀ next ∈ after.head?, next = separator) :
    tidyAfter divided (before ++ separator :: after) = tidyAfter divided (before ++ after) := by
  induction before generalizing divided with
  | nil =>
    rw [List.nil_append, List.nil_append, tidyAfter_separator]
    obtain ⟨-, hdivided⟩ | hhead := hnext
    · rw [hdivided rfl]
    · cases after with
      | nil => rfl
      | cons next after =>
        rw [hhead next rfl, tidyAfter_separator, tidyAfter_separator]
  | cons entry before ih =>
    by_cases h : entry = separator
    · subst h
      rw [List.cons_append, List.cons_append, tidyAfter_separator, tidyAfter_separator]
      exact ih true (hnext.imp_left fun hlast => ⟨(eq_separator_of_last hlast.1).1, fun _ => rfl⟩)
    · rw [List.cons_append, List.cons_append, tidyAfter_cons h, tidyAfter_cons h]
      refine congrArg (owed divided ++ entry :: ·) (ih false (hnext.imp_left fun hlast => ?_))
      obtain ⟨hlast, hempty⟩ := eq_separator_of_last hlast.1
      exact ⟨hlast, fun hbefore => absurd (hempty hbefore) h⟩

/-- One more separator makes no difference at either end, nor next to another one. -/
theorem tidySeparators_insert {before after : List Node}
    (hnext : (∀ last ∈ before.getLast?, last = separator) ∨
      ∀ next ∈ after.head?, next = separator) :
    tidySeparators (before ++ separator :: after) = tidySeparators (before ++ after) := by
  induction before with
  | nil => simp [tidySeparators]
  | cons entry before ih =>
    by_cases h : entry = separator
    · subst h
      simp only [List.cons_append, tidySeparators, isSeparator_separator, if_true]
      exact ih (hnext.imp_left fun hlast => (eq_separator_of_last hlast).1)
    · have hentry : ¬entry.isSeparator = true := isSeparator_iff.not.mpr h
      simp only [List.cons_append, tidySeparators, if_neg hentry]
      refine congrArg (entry :: ·) (tidyAfter_insert false (hnext.imp_left fun hlast => ?_))
      obtain ⟨hlast, hempty⟩ := eq_separator_of_last hlast
      exact ⟨hlast, fun hbefore => absurd (hempty hbefore) h⟩

end Menus
