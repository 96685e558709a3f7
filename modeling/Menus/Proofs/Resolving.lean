import Menus.Proofs.Components
import Menus.Proofs.Following
import Mathlib.Data.List.Infix
import Mathlib.Data.Nat.Find

/-!
# Paths with steps upwards

There are no links in a file tree, so a step upwards takes the last name of a location off again.
Where a path leads can be read off its names then, whatever the tree holds: if the path leads
anywhere, it leads to its resolved location.

Taken from a location on, names take a number of names off its end and put others there. So what the
same names lead to from two locations differs only in what is left of these.
-/

namespace Menus

/-- One step from a location on. At the top there is no name to take off. -/
def stepTo (location : Location) (name : String) : Location :=
  if name = ".." then location.dropLast else location ++ [name]

/-- Where names lead from a location on, if all of the way is there. -/
def resolve (location : Location) (names : List String) : Location := names.foldl stepTo location

/-- No steps lead nowhere else. -/
@[simp]
theorem resolve_nil (location : Location) : resolve location [] = location := rfl

/-- Steps are taken one part after the other. -/
theorem resolve_append (location : Location) (first second : List String) :
    resolve location (first ++ second) = resolve (resolve location first) second :=
  List.foldl_append

/-- The last step is taken from where the others lead. -/
theorem resolve_concat (location : Location) (names : List String) (name : String) :
    resolve location (names ++ [name]) = stepTo (resolve location names) name :=
  resolve_append location names [name]

/-- Names without steps upwards are put at the end. -/
theorem resolve_of_ne_up {names : List String} (hup : ∀ name ∈ names, name ≠ "..")
    (location : Location) : resolve location names = location ++ names := by
  induction names using List.reverseRecOn with
  | nil => rw [resolve_nil, List.append_nil]
  | append_singleton names name ih =>
    rw [List.forall_mem_append, List.forall_mem_singleton] at hup
    rw [resolve_concat, ih hup.1, stepTo, if_neg hup.2, List.append_assoc]

/-- If segments lead anywhere in a tree, they lead to what they resolve to. -/
theorem FileTree.eq_resolve_of_follow {tree : FileTree} {location reached : Location}
    {segments : List String} (h : tree.follow location segments = .ok reached) :
    reached = resolve location (namesOf segments) := by
  induction segments generalizing location with
  | nil => exact (Except.ok.inj h).symm
  | cons segment segments ih =>
    rw [follow] at h
    split at h
    case h_1 => cases h
    case h_2 => cases h
    case h_3 =>
      cases hidle : isIdleSegment segment with
      | true =>
        rw [hidle, if_pos rfl] at h
        rw [namesOf_cons_idle hidle]
        exact ih h
      | false =>
        rw [hidle, if_neg (by simp)] at h
        rw [namesOf_cons hidle]
        by_cases hup : segment = ".."
        · rw [if_pos hup] at h
          rw [ih h, resolve, resolve, List.foldl_cons, stepTo, if_pos hup]
        · rw [if_neg hup] at h
          rw [ih h, resolve, resolve, List.foldl_cons, stepTo, if_neg hup]

/-! ### What names do to a location -/

/-- Names take some names off the end of a location and put others there. How many and which does
not depend on the location. -/
theorem exists_resolve_eq (names : List String) :
    ∃ count others, ∀ location,
      resolve location names = location.take (location.length - count) ++ others := by
  induction names using List.reverseRecOn with
  | nil => exact ⟨0, [], by simp⟩
  | append_singleton names name ih =>
    obtain ⟨count, others, hresolve⟩ := ih
    by_cases hup : name = ".."
    · rcases List.eq_nil_or_concat others with rfl | ⟨front, last, rfl⟩
      · refine ⟨count + 1, [], fun location => ?_⟩
        rw [resolve_concat, hresolve, stepTo, if_pos hup, List.append_nil, List.append_nil,
          List.dropLast_eq_take, List.take_take, List.length_take]
        congr 1
        omega
      · refine ⟨count, front, fun location => ?_⟩
        rw [resolve_concat, hresolve, stepTo, if_pos hup, List.concat_eq_append,
          ← List.append_assoc, List.dropLast_concat]
    · refine ⟨count, others ++ [name], fun location => ?_⟩
      rw [resolve_concat, hresolve, stepTo, if_neg hup, List.append_assoc]

/-- Of two different locations of one length, the first place where they differ tells which of them
some names left something of. -/
theorem exists_rank_of_length_eq {first second : Location}
    (hlength : first.length = second.length) :
    ∃ rank : Location → Int, ∀ names, resolve first names = resolve second names ∨
      rank (resolve first names) < rank (resolve second names) := by
  by_cases heq : first = second
  · exact ⟨fun _ => 0, fun names => Or.inl (by rw [heq])⟩
  have hexists : ∃ place : Nat, first[place]? ≠ second[place]? := by
    by_contra! hsame
    exact heq (List.ext_getElem? hsame)
  classical
  obtain ⟨place, hdiffer, hbefore⟩ :
      ∃ place : Nat, first[place]? ≠ second[place]? ∧ ∀ i < place, first[i]? = second[i]? :=
    ⟨Nat.find hexists, Nat.find_spec hexists, fun i hi => by_contra (Nat.find_min hexists hi)⟩
  refine ⟨fun location => if location[place]? = first[place]? then 0 else 1, fun names => ?_⟩
  obtain ⟨count, others, hresolve⟩ := exists_resolve_eq names
  rw [hresolve, hresolve, ← hlength]
  have hplace : place < first.length := by
    by_contra hout
    rw [List.getElem?_eq_none (by omega), List.getElem?_eq_none (by omega)] at hdiffer
    exact hdiffer rfl
  by_cases hkept : place < first.length - count
  · right
    have hget (location : Location) (hlocation : location.length = first.length) :
        (location.take (first.length - count) ++ others)[place]? = location[place]? := by
      rw [List.getElem?_append_left (by rw [List.length_take]; omega),
        List.getElem?_take_of_lt hkept]
    simp only [hget first rfl, hget second hlength.symm, if_true, if_neg (Ne.symm hdiffer)]
    decide
  · left
    congr 1
    refine List.ext_getElem? fun i => ?_
    by_cases hi : i < first.length - count
    · rw [List.getElem?_take_of_lt hi, List.getElem?_take_of_lt hi, hbefore i (by omega)]
    · rw [List.getElem?_eq_none (by rw [List.length_take]; omega),
        List.getElem?_eq_none (by rw [List.length_take]; omega)]

/-- Locations can be ranked so that what the same names lead to from two of them is one location, or
else the one from the first location comes before the one from the second. From locations of
different lengths the way from the longer one ends further down, unless nothing is left of
either. -/
theorem exists_rank (first second : Location) :
    ∃ rank : Location → Int, ∀ names, resolve first names = resolve second names ∨
      rank (resolve first names) < rank (resolve second names) := by
  by_cases hlength : first.length = second.length
  · exact exists_rank_of_length_eq hlength
  · refine ⟨fun location => if first.length < second.length then location.length
      else -location.length, fun names => ?_⟩
    obtain ⟨count, others, hresolve⟩ := exists_resolve_eq names
    rw [hresolve, hresolve]
    by_cases hnone : first.length ≤ count ∧ second.length ≤ count
    · left
      rw [Nat.sub_eq_zero_of_le hnone.1, Nat.sub_eq_zero_of_le hnone.2]
      rfl
    · right
      simp only [List.length_append, List.length_take]
      split <;> omega

/-! ### Paths -/

namespace Path

/-- Where a path leads if it leads anywhere, also with steps upwards. -/
def resolved (path : Path) (workingDirectory : Location) : Location :=
  resolve (if path.rooted then [] else workingDirectory) path.names

/-- A path without steps upwards resolves to its place. -/
theorem Descends.resolved_eq {path : Path} (h : path.Descends) (workingDirectory : Location) :
    path.resolved workingDirectory = path.place workingDirectory :=
  resolve_of_ne_up h.ne_up _

/-- A trimmed path is resolved to the same location. -/
@[simp]
theorem resolved_trimEnd (path : Path) (workingDirectory : Location) :
    path.trimEnd.resolved workingDirectory = path.resolved workingDirectory := by
  rw [resolved, resolved, rooted_trimEnd, names_trimEnd]

/-- A path that is taken from a directory on resolves from where the directory does. -/
theorem resolved_join (directory : Path) {path : Path} (hpath : path.rooted = false)
    (workingDirectory : Location) :
    (directory.join path).resolved workingDirectory =
      resolve (directory.resolved workingDirectory) path.names := by
  rw [resolved, rooted_join directory hpath, names_join directory hpath, resolve_append, resolved]

/-- Taking components off the front of segments leaves the names after theirs. -/
theorem names_of_stripSteps {names segments rest : List String}
    (h : stripSteps (names.map Component.ofSegment) segments = some rest) :
    namesOf segments = names ++ namesOf rest := by
  induction names generalizing segments with
  | nil =>
    rw [List.map_nil, stripSteps] at h
    rw [← Option.some.inj h, namesOf_dropWhile, List.nil_append]
  | cons name names ih =>
    have hkept := namesOf_dropWhile segments
    rw [List.map_cons, stripSteps] at h
    split at h
    case h_1 => cases h
    case h_2 segment kept hsegments =>
      rw [Option.ite_none_right_eq_some] at h
      have hname : isIdleSegment segment = false := by
        have hhead := List.head_dropWhile_not isIdleSegment (l := segments) (by simp [hsegments])
        simpa [hsegments] using hhead
      rw [← hkept, hsegments, namesOf_cons hname, ih h.2, ofSegment_injective h.1, List.cons_append]

/-- A path goes through the names of its base first, and then through those of what is left. -/
theorem names_of_strip? {path base relative : Path} (h : path.strip? base = some relative)
    (hrelative : relative.rooted = false) :
    path.rooted = base.rooted ∧ path.names = base.names ++ relative.names := by
  have hsteps : steps base.segments = base.names.map Component.ofSegment := rfl
  have hstripped {segments : List String}
      (h : (stripSteps (base.names.map Component.ofSegment) segments).map
        (fun rest => trimEnd ⟨false, rest⟩) = some relative) :
      namesOf segments = base.names ++ relative.names := by
    obtain ⟨rest, hrest, rfl⟩ := Option.map_eq_some_iff.mp h
    rw [names_trimEnd]
    exact names_of_stripSteps hrest
  cases hbase : base.rooted with
  | true =>
    simp only [strip?, components, hbase, if_true, List.singleton_append, hsteps,
      Option.ite_none_right_eq_some] at h
    exact ⟨h.1, hstripped h.2⟩
  | false =>
    by_cases hhere : base.startsHere = true
    · simp only [strip?, components, hbase, Bool.false_eq_true, if_false, hhere, if_true,
        List.singleton_append, hsteps, Option.ite_none_right_eq_some] at h
      obtain ⟨hstarts, h⟩ := h
      obtain ⟨hpath, hhead⟩ : path.rooted = false ∧ path.segments.head? = some "." := by
        simpa [startsHere] using hstarts
      obtain ⟨segments, hsegments⟩ := List.head?_eq_some_iff.mp hhead
      rw [hsegments, List.tail_cons] at h
      exact ⟨hpath, by rw [names, hsegments, namesOf_cons_idle (by decide), hstripped h]⟩
    · simp only [strip?, components, hbase, Bool.false_eq_true, if_false, hhere,
        List.nil_append, hsteps] at h
      cases hnames : base.names with
      | nil =>
        obtain rfl : path.trimEnd = relative := by simpa [hnames] using h
        exact ⟨by simpa using hrelative, by simp⟩
      | cons name names =>
        obtain ⟨hpath, h⟩ : path.rooted = false ∧
            (stripSteps (base.names.map Component.ofSegment) path.segments).map
              (fun rest => trimEnd ⟨false, rest⟩) = some relative := by
          rw [hnames, List.map_cons] at h ⊢
          by_cases hup : name = ".." <;>
            simp only [Component.ofSegment, hup, if_true, if_false, Option.ite_none_left_eq_some,
              Bool.or_eq_true, not_or, Bool.not_eq_true] at h ⊢ <;>
            exact ⟨h.1.1, h.2⟩
        exact ⟨hpath, hnames ▸ hstripped h⟩

/-- What is left of a path after its base resolves from the base to where the path does. -/
theorem resolved_of_strip? {path base relative : Path} (h : path.strip? base = some relative)
    (hrelative : relative.rooted = false) (workingDirectory : Location) :
    path.resolved workingDirectory =
      resolve (base.resolved workingDirectory) relative.names := by
  obtain ⟨hrooted, hnames⟩ : path.rooted = base.rooted ∧
      path.names = base.names ++ relative.names := names_of_strip? h hrelative
  rw [resolved, hnames, resolve_append, hrooted, resolved]

/-- Only from an empty base on can what is left of a path be rooted. -/
theorem eq_trimEnd_of_strip? {path base relative : Path} (h : path.strip? base = some relative)
    (hrelative : relative.rooted = true) : relative = path.trimEnd := by
  have hstripped {rest : Option (List String)}
      (h : rest.map (fun rest => trimEnd ⟨false, rest⟩) = some relative) : False := by
    obtain ⟨rest, -, rfl⟩ := Option.map_eq_some_iff.mp h
    rw [rooted_trimEnd] at hrelative
    cases hrelative
  rw [strip?] at h
  split at h
  case h_1 => exact (Option.some.inj h).symm
  all_goals
    split at h
    first | cases h | exact (hstripped h).elim
    first | cases h | exact (hstripped h).elim

/-- What is left of a path after its base leads from another directory as it does from the base,
unless it leads to where the path does anyway. -/
theorem resolved_join_of_strip? {path base relative : Path} (h : path.strip? base = some relative)
    (directory : Path) (workingDirectory : Location) :
    (directory.join relative).resolved workingDirectory = path.resolved workingDirectory ∨
      ∃ names, path.resolved workingDirectory = resolve (base.resolved workingDirectory) names ∧
        (directory.join relative).resolved workingDirectory =
          resolve (directory.resolved workingDirectory) names := by
  cases hrelative : relative.rooted with
  | true =>
    left
    rw [join, if_pos hrelative, eq_trimEnd_of_strip? h hrelative, resolved_trimEnd]
  | false =>
    exact Or.inr ⟨relative.names, resolved_of_strip? h hrelative workingDirectory,
      resolved_join directory hrelative workingDirectory⟩

/-- Slashes at the end of a path do not make it absolute. -/
@[simp]
theorem rooted_dropSlashes (path : Path) : path.dropSlashes.rooted = path.rooted := rfl

/-- Slashes at the end of a path are no names. -/
@[simp]
theorem names_dropSlashes (path : Path) : path.dropSlashes.names = path.names := by
  have hsplit :=
    congrArg List.reverse
      (List.takeWhile_append_dropWhile (p := fun segment => decide (segment = ""))
        (l := path.segments.reverse))
  rw [List.reverse_append, List.reverse_reverse] at hsplit
  have hslashes : namesOf (path.segments.reverse.takeWhile (· = "")).reverse = [] := by
    rw [namesOf_eq_nil_iff]
    intro segment hsegment
    have hall := List.all_takeWhile (p := fun segment => decide (segment = ""))
      (l := path.segments.reverse)
    have hempty := List.all_eq_true.mp hall segment (by simpa using hsegment)
    simp [isIdleSegment, of_decide_eq_true hempty]
  rw [names, names, ← hsplit, namesOf_append, hslashes, List.append_nil, dropSlashes]

/-- Without slashes at its end a path is resolved to the same location. -/
@[simp]
theorem resolved_dropSlashes (path : Path) (workingDirectory : Location) :
    path.dropSlashes.resolved workingDirectory = path.resolved workingDirectory := by
  rw [resolved, resolved, rooted_dropSlashes, names_dropSlashes]

/-! ### Paths that stay below where they start -/

/-- A path leads below the directory it is taken from and never above it on the way: no beginning of
it has more steps upwards than names, and the whole has fewer. -/
def StaysBelow (path : Path) : Prop :=
  path.rooted = false ∧ (∀ front ∈ path.names.inits, front.count ".." ≤ front.countP (· ≠ "..")) ∧
    path.names.count ".." < path.names.countP (· ≠ "..")

instance (path : Path) : Decidable path.StaysBelow := inferInstanceAs (Decidable (_ ∧ _ ∧ _))

/-- Names without steps upwards are names only. -/
theorem Descends.staysBelow {path : Path} (h : path.Descends) (hrooted : path.rooted = false)
    (hnames : path.names ≠ []) : path.StaysBelow := by
  have hnone {front : List String} (hfront : front <+: path.names) : front.count ".." = 0 := by
    rw [List.count_eq_zero]
    exact fun hup => h.ne_up _ (hfront.subset hup) rfl
  refine ⟨hrooted, fun front hfront => ?_, ?_⟩
  · rw [hnone ((List.mem_inits _ _).mp hfront)]
    exact Nat.zero_le _
  · rw [hnone List.prefix_rfl, List.countP_pos_iff]
    obtain ⟨name, hname⟩ := List.exists_mem_of_ne_nil _ hnames
    exact ⟨name, hname, by simpa using h.ne_up name hname⟩

/-- Names of which no beginning has more steps upwards than names put a name at the end for each
step upwards that is left out. -/
theorem exists_resolve_eq_append {names : List String}
    (h : ∀ front, front <+: names → front.count ".." ≤ front.countP (· ≠ ".."))
    (location : Location) :
    ∃ others, resolve location names = location ++ others ∧
      others.length + names.count ".." = names.countP (· ≠ "..") := by
  induction names using List.reverseRecOn with
  | nil => exact ⟨[], by simp⟩
  | append_singleton names name ih =>
    obtain ⟨others, hresolve, hlength⟩ :=
      ih fun front hfront => h front (hfront.trans (List.prefix_append _ _))
    have hall := h _ List.prefix_rfl
    rw [resolve_concat, hresolve, stepTo]
    by_cases hup : name = ".."
    · have hups : (names ++ [name]).count ".." = names.count ".." + 1 := by simp [hup]
      have hnames : (names ++ [name]).countP (· ≠ "..") = names.countP (· ≠ "..") := by simp [hup]
      obtain ⟨front, last, rfl⟩ : ∃ front last, others = front ++ [last] := by
        rcases List.eq_nil_or_concat others with rfl | ⟨front, last, rfl⟩
        · rw [List.length_nil] at hlength
          omega
        · exact ⟨front, last, List.concat_eq_append⟩
      refine ⟨front, by rw [if_pos hup, ← List.append_assoc, List.dropLast_concat], ?_⟩
      rw [List.length_append, List.length_singleton] at hlength
      omega
    · have hups : (names ++ [name]).count ".." = names.count ".." := by
        simp [hup]
      have hnames : (names ++ [name]).countP (· ≠ "..") = names.countP (· ≠ "..") + 1 := by
        simp [hup]
      refine ⟨others ++ [name], by rw [if_neg hup, List.append_assoc], ?_⟩
      rw [List.length_append, List.length_singleton]
      omega

/-- From wherever such a path is taken, it leads to a location below. -/
theorem StaysBelow.exists_resolve_eq {path : Path} (h : path.StaysBelow) (location : Location) :
    ∃ others, others ≠ [] ∧ resolve location path.names = location ++ others := by
  obtain ⟨others, hresolve, hlength⟩ := exists_resolve_eq_append
    (fun front hfront => h.2.1 front ((List.mem_inits _ _).mpr hfront)) location
  refine ⟨others, ?_, hresolve⟩
  rintro rfl
  have hless := h.2.2
  rw [List.length_nil] at hlength
  omega

end Path

/-! ### Following paths -/

namespace FileTree

variable {tree : FileTree} {workingDirectory location directory : Location} {path : Path}
  {name : String}

/-- If a path leads anywhere, it leads to its resolved location. -/
theorem eq_resolved_of_locate (h : tree.locate workingDirectory path = .ok location) :
    location = path.resolved workingDirectory := by
  rw [locate] at h
  split at h
  case isTrue => cases h
  case isFalse => exact eq_resolve_of_follow h

/-- A path leads to a file exactly if there is one at its resolved location and the path can be
followed to there. -/
theorem isFile_iff_locate :
    tree.isFile workingDirectory path = true ↔
      tree.locate workingDirectory path = .ok (path.resolved workingDirectory) ∧
        (tree.bytes? (path.resolved workingDirectory)).isSome := by
  rw [isFile, find?]
  cases hlocate : tree.locate workingDirectory path with
  | error error => simp
  | ok location =>
    obtain rfl := eq_resolved_of_locate hlocate
    cases hat : tree.at? (path.resolved workingDirectory) <;> simp [bytes?, hat]

/-- The text that is read from a path is written in the file that it leads to. -/
theorem readText_eq_ok {text : String} (h : tree.readText workingDirectory path = .ok text) :
    tree.isFile workingDirectory path = true ∧
      tree.bytes? (path.resolved workingDirectory) = some text.toUTF8 := by
  rw [readText, read] at h
  cases hlocate : tree.locate workingDirectory path with
  | error error => simp [hlocate, bind, Except.bind] at h
  | ok location =>
    obtain rfl := eq_resolved_of_locate hlocate
    simp only [hlocate, bind, Except.bind] at h
    cases hat : tree.at? (path.resolved workingDirectory) with
    | none => simp [hat] at h
    | some entry =>
      cases entry with
      | directory => simp [hat] at h
      | file bytes =>
        simp only [hat, String.fromUTF8?] at h
        split at h
        case h_2 => cases h
        case h_1 other hother =>
          obtain rfl := Except.ok.inj h
          split at hother
          case isFalse => cases hother
          case isTrue =>
            have hbytes : tree.bytes? (path.resolved workingDirectory) = some other.toUTF8 := by
              rw [bytes?_eq_some_iff, hat, ← Option.some.inj hother]
              rfl
            exact ⟨isFile_iff_locate.mpr ⟨hlocate, by rw [hbytes]; rfl⟩, hbytes⟩

/-- Finding the directory of a path that ends in a name is following all segments but that. -/
theorem exists_of_locateParent
    (h : tree.locateParent workingDirectory path = .ok (directory, name))
    (hname : isIdleSegment name = false) :
    path.isEmpty = false ∧ tree.at? directory = some .directory ∧
      ∃ above, path.segments = above ++ [name] ∧
        tree.follow (if path.rooted then [] else workingDirectory) above = .ok directory := by
  rw [locateParent] at h
  split at h
  case isTrue => cases h
  case isFalse hempty =>
    cases hreached : tree.follow (if path.rooted then [] else workingDirectory)
        path.segments.dropLast with
    | error error => simp [hreached, bind, Except.bind] at h
    | ok reached =>
      simp only [hreached, bind, Except.bind] at h
      split at h
      case h_1 => cases h
      case h_2 => cases h
      case h_3 hdirectory =>
        obtain ⟨rfl, hlast⟩ : reached = directory ∧ path.segments.getLast?.getD "" = name := by
          simpa using h
        obtain ⟨above, habove⟩ : ∃ above, path.segments = above ++ [name] := by
          cases hlast? : path.segments.getLast? with
          | none =>
            rw [hlast?, Option.getD_none] at hlast
            rw [← hlast] at hname
            cases hname
          | some last =>
            rw [hlast?, Option.getD_some] at hlast
            exact List.getLast?_eq_some_iff.mp (hlast ▸ hlast?)
        rw [habove, List.dropLast_concat] at hreached
        exact ⟨by simpa using hempty, hdirectory, above, habove, hreached⟩

/-- The directory of a path is one, and with the last segment it makes up the resolved location. -/
theorem resolved_eq_of_locateParent
    (h : tree.locateParent workingDirectory path = .ok (directory, name))
    (hname : isIdleSegment name = false) (hup : name ≠ "..") :
    tree.at? directory = some .directory ∧
      path.resolved workingDirectory = directory ++ [name] := by
  obtain ⟨-, hdirectory, above, hsegments, hreached⟩ := exists_of_locateParent h hname
  refine ⟨hdirectory, ?_⟩
  rw [Path.resolved, Path.names, hsegments, namesOf_append, namesOf_singleton hname,
    resolve_concat, ← eq_resolve_of_follow hreached, stepTo, if_neg hup]

end FileTree

end Menus
