import Menus.Proofs.Separators

/-!
# Runs of separators

Entries are determined by those that are no separators and by the lengths of the runs of separators
before, between and after these. Tidying keeps the former, and of the runs it keeps one separator
each, but only between two entries. That is all it does: which entries are divided from the next
ones is all that a tidied list tells of the separators, and it does not lose any of that.
-/

namespace Menus

open Node

/-- The number of separators that come after exactly so many of the other entries. After none these
are the ones at the start, after all of them the ones at the end, and in between they stand between
two neighbours. -/
def separatorsAfter : Nat → List Node → Nat
  | _, [] => 0
  | 0, entry :: entries => if entry.isSeparator then separatorsAfter 0 entries + 1 else 0
  | count + 1, entry :: entries =>
    if entry.isSeparator then separatorsAfter (count + 1) entries else separatorsAfter count entries

section

variable {entry : Node} {entries : List Node}

/-- There is no separator where there are no entries. -/
theorem separatorsAfter_nil (count : Nat) : separatorsAfter count [] = 0 := by
  cases count <;> rfl

/-- A separator counts if it stands after the entry that is asked for. -/
theorem separatorsAfter_separator (count : Nat) (entries : List Node) :
    separatorsAfter count (separator :: entries) =
      separatorsAfter count entries + if count = 0 then 1 else 0 := by
  cases count <;> simp [separatorsAfter]

/-- The separators after an entry end at the next one. -/
theorem separatorsAfter_zero_cons (h : entry ≠ separator) :
    separatorsAfter 0 (entry :: entries) = 0 := by
  simp [separatorsAfter, isSeparator_iff, h]

/-- Past an entry one less is left to pass. -/
theorem separatorsAfter_succ_cons (h : entry ≠ separator) (count : Nat) :
    separatorsAfter (count + 1) (entry :: entries) = separatorsAfter count entries := by
  simp [separatorsAfter, isSeparator_iff, h]

/-- Entries start with a separator exactly if one comes before all others. -/
theorem separatorsAfter_zero_pos_iff :
    0 < separatorsAfter 0 entries ↔ entries.head? = some separator := by
  cases entries with
  | nil => simp [separatorsAfter]
  | cons entry entries =>
    by_cases h : entry = separator
    · simp [h, separatorsAfter_separator]
    · simp [h, separatorsAfter_zero_cons h]

end

/-- The lengths of the runs determine the separators. -/
theorem eq_of_separatorsAfter {first second : List Node}
    (hmeaningful : meaningful first = meaningful second)
    (hruns : ∀ count, separatorsAfter count first = separatorsAfter count second) :
    first = second := by
  induction first generalizing second with
  | nil =>
    have hstart : second.head? ≠ some separator := by
      rw [ne_eq, ← separatorsAfter_zero_pos_iff, ← hruns 0, separatorsAfter_nil]
      decide
    cases second with
    | nil => rfl
    | cons other second =>
      rw [meaningful_cons (by simpa using hstart)] at hmeaningful
      cases hmeaningful
  | cons entry first ih =>
    have hstart : entry = separator ↔ second.head? = some separator := by
      rw [← separatorsAfter_zero_pos_iff, ← hruns 0, separatorsAfter_zero_pos_iff]
      simp
    by_cases h : entry = separator
    · obtain ⟨others, rfl⟩ := List.head?_eq_some_iff.mp (hstart.mp h)
      subst h
      rw [meaningful_cons_separator, meaningful_cons_separator] at hmeaningful
      simp only [separatorsAfter_separator, Nat.add_right_cancel_iff] at hruns
      rw [ih hmeaningful hruns]
    · rw [meaningful_cons h] at hmeaningful
      cases second with
      | nil => cases hmeaningful
      | cons other second =>
        have hother : other ≠ separator := by simpa [h] using hstart
        rw [meaningful_cons hother, List.cons.injEq] at hmeaningful
        obtain ⟨rfl, hmeaningful⟩ := hmeaningful
        refine congrArg (entry :: ·) (ih hmeaningful fun count => ?_)
        have hcount := hruns (count + 1)
        rwa [separatorsAfter_succ_cons h, separatorsAfter_succ_cons h] at hcount

/-! ### The runs that tidying leaves -/

/-- Of the separators after an entry one is left, unless no entry follows. -/
private theorem separatorsAfter_tidyAfter (divided : Bool) (count : Nat) (entries : List Node) :
    separatorsAfter count (tidyAfter divided entries) =
      if count < (meaningful entries).length ∧
        (0 < separatorsAfter count entries ∨ count = 0 ∧ divided = true) then 1 else 0 := by
  induction entries generalizing divided count with
  | nil => simp [tidyAfter, separatorsAfter_nil]
  | cons entry entries ih =>
    by_cases h : entry = separator
    · subst h
      rw [tidyAfter, if_pos isSeparator_separator, ih, meaningful_cons_separator,
        separatorsAfter_separator]
      by_cases hcount : count = 0 <;> simp [hcount]
    · rw [tidyAfter, if_neg (isSeparator_iff.not.mpr h), meaningful_cons h, List.length_cons]
      cases count with
      | zero =>
        cases divided <;>
          simp [separatorsAfter_zero_cons h, separatorsAfter_separator]
      | succ count =>
        cases divided <;>
          simp [separatorsAfter_succ_cons h, separatorsAfter_separator, ih]

/-- Of a run between two entries one separator is left, and of the runs at the ends none. -/
theorem separatorsAfter_tidySeparators (count : Nat) (entries : List Node) :
    separatorsAfter count (tidySeparators entries) =
      if 0 < count ∧ count < (meaningful entries).length ∧ 0 < separatorsAfter count entries then 1
      else 0 := by
  induction entries with
  | nil => simp [tidySeparators, separatorsAfter_nil]
  | cons entry entries ih =>
    by_cases h : entry = separator
    · subst h
      rw [tidySeparators, if_pos isSeparator_separator, ih, meaningful_cons_separator,
        separatorsAfter_separator]
      by_cases hcount : count = 0 <;> simp [hcount]
    · rw [tidySeparators, if_neg (isSeparator_iff.not.mpr h), meaningful_cons h, List.length_cons]
      cases count with
      | zero => simp [separatorsAfter_zero_cons h]
      | succ count => simp [separatorsAfter_succ_cons h, separatorsAfter_tidyAfter]

/-- Entries are tidied to the same list exactly if they are the same but for the separators at the
ends and for the lengths of the runs between two entries, as far as there is such a run at all. -/
theorem tidySeparators_eq_iff {first second : List Node} :
    tidySeparators first = tidySeparators second ↔ meaningful first = meaningful second ∧
      ∀ count, 0 < count ∧ count < (meaningful second).length →
        (0 < separatorsAfter count first ↔ 0 < separatorsAfter count second) := by
  constructor
  · intro h
    have hmeaningful : meaningful first = meaningful second := by
      rw [← meaningful_tidySeparators, h, meaningful_tidySeparators]
    refine ⟨hmeaningful, fun count hcount => ?_⟩
    have hruns := congrArg (separatorsAfter count) h
    rw [separatorsAfter_tidySeparators, separatorsAfter_tidySeparators, hmeaningful] at hruns
    simp only [hcount, true_and] at hruns
    split at hruns <;> split at hruns <;> simp_all
  · rintro ⟨hmeaningful, hruns⟩
    refine eq_of_separatorsAfter (by simpa using hmeaningful) fun count => ?_
    rw [separatorsAfter_tidySeparators, separatorsAfter_tidySeparators, hmeaningful]
    by_cases hcount : 0 < count ∧ count < (meaningful second).length
    · simp only [hcount, hruns count hcount]
    · simp only [← and_assoc, hcount, false_and]

/-- **Tidying is exactly the reduction of separators.** The entries that are no separators stay as
they are. No separator is left at either end and none follows another; between two entries there is
one exactly if there was at least one. So doing it again changes nothing, and two lists have the
same result exactly if they differ only in the lengths of runs that are not empty and in the
separators at the ends. -/
theorem tidySeparators_exact (entries : List Node) :
    meaningful (tidySeparators entries) = meaningful entries ∧
      Tidy (tidySeparators entries) ∧
      (∀ count, 0 < count ∧ count < (meaningful entries).length →
        separatorsAfter count (tidySeparators entries) =
          if 0 < separatorsAfter count entries then 1 else 0) ∧
      tidySeparators (tidySeparators entries) = tidySeparators entries ∧
      ∀ other, tidySeparators other = tidySeparators entries ↔
        meaningful other = meaningful entries ∧
          ∀ count, 0 < count ∧ count < (meaningful entries).length →
            (0 < separatorsAfter count other ↔ 0 < separatorsAfter count entries) := by
  have htidy := tidy_tidySeparators entries
  refine ⟨meaningful_tidySeparators entries, htidy, fun count hcount => ?_,
    htidy.tidySeparators_eq_self, fun other => tidySeparators_eq_iff⟩
  rw [separatorsAfter_tidySeparators]
  simp only [hcount, true_and]

/-- Runs at both ends, one between the first two entries, and none between the last two. -/
theorem tidySeparators_exact_of_runs :
    let a : Node := .atom "snippet.a"
    let b : Node := .list [.atom "snippet.b"]
    let entries := [separator, a, separator, separator, b, a, separator]
    (0 < 1 ∧ 1 < (meaningful entries).length) ∧ (0 < 2 ∧ 2 < (meaningful entries).length) ∧
      separatorsAfter 1 (tidySeparators entries) = 1 ∧
      separatorsAfter 2 (tidySeparators entries) = 0 ∧
      tidySeparators [a, separator, b, a] = tidySeparators entries := by
  intro a b entries
  obtain ⟨-, -, hruns, -, hsame⟩ := tidySeparators_exact entries
  have hfirst : 0 < 1 ∧ 1 < (meaningful entries).length := by decide
  have hsecond : 0 < 2 ∧ 2 < (meaningful entries).length := by decide
  refine ⟨hfirst, hsecond, hruns 1 hfirst, hruns 2 hsecond, (hsame _).mpr ⟨by decide, ?_⟩⟩
  rintro count ⟨hpos, hless⟩
  have hlength : (meaningful entries).length = 3 := by decide
  obtain rfl | rfl : count = 1 ∨ count = 2 := by omega
  · decide
  · decide

end Menus
