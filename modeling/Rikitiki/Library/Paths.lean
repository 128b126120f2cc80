import Mathlib.Data.List.DropRight
import Mathlib.Data.List.Infix

/-!
# Paths and where they lead

Lexical normalisation of file names: segments between separators, of which `.` and the empty one stay where
they are and `..` goes up. `inside_append_iff` says when a name that is put behind the path of a directory,
without a separator between them, leads to a place in this directory.
-/

namespace Paths

variable {α : Type}

/-! ### Segments -/

theorem splitOnP_parts {p : α → Bool} (path : List α) :
    ∃ segment segments, path.splitOnP p = segment :: segments ∧ segment <+: path ∧
      ∀ later ∈ segments, later <:+: path := by
  induction path with
  | nil => exact ⟨[], [], List.splitOnP_nil, List.prefix_rfl, by simp⟩
  | cons b path ih =>
      obtain ⟨segment, segments, hsplit, hsegment, hsegments⟩ := ih
      have hlater : ∀ later ∈ segments, later <:+: b :: path := fun later hlater =>
        List.infix_cons (hsegments later hlater)
      rw [List.splitOnP_cons_eq_if_modifyHead, hsplit]
      split
      · refine ⟨[], segment :: segments, rfl, List.nil_prefix, ?_⟩
        exact List.forall_mem_cons.mpr ⟨List.infix_cons hsegment.isInfix, hlater⟩
      · exact ⟨b :: segment, segments, rfl, List.cons_prefix_cons.mpr ⟨rfl, hsegment⟩, hlater⟩

theorem infix_of_mem_splitOnP {p : α → Bool} {path segment : List α} (h : segment ∈ path.splitOnP p) :
    segment <:+: path := by
  obtain ⟨first, segments, hsplit, hfirst, hsegments⟩ := splitOnP_parts (p := p) path
  rw [hsplit, List.mem_cons] at h
  rcases h with rfl | hlater
  · exact hfirst.isInfix
  · exact hsegments segment hlater

/-! ### Locations -/

structure Style (α : Type) where
  separator : α → Bool
  dot : α
  separator_dot : separator dot = false

/-- Where a path leads: from the root or from the current directory, through these names, the innermost
first. -/
structure Location (α : Type) where
  absolute : Bool
  names : List (List α)
  deriving DecidableEq

namespace Style

variable [DecidableEq α] (P : Style α)

def up : List α := [P.dot, P.dot]

/-- There is nothing that `up` could take back. -/
def ascends (absolute : Bool) : List (List α) → Bool
  | [] => !absolute
  | name :: _ => name = P.up

def enter (absolute : Bool) (names : List (List α)) (segment : List α) : List (List α) :=
  if segment = [] ∨ segment = [P.dot] then names
  else if segment = P.up then
    if P.ascends absolute names then P.up :: names else names.tail
  else segment :: names

def walk (absolute : Bool) (names : List (List α)) (path : List α) : List (List α) :=
  (path.splitOnP P.separator).foldl (P.enter absolute) names

def absolute (path : List α) : Bool := path.head?.any P.separator

/-- Lexical normalisation. -/
def locate (path : List α) : Location α := ⟨P.absolute path, P.walk (P.absolute path) [] path⟩

/-- Names that go on from those of a directory without going up. -/
def Extends (names directory : List (List α)) : Prop := ∃ inner, names = inner ++ directory ∧ P.up ∉ inner

def Inside (file directory : Location α) : Prop :=
  file.absolute = directory.absolute ∧ P.Extends file.names directory.names

/-! ### Where a path is cut -/

def last (path : List α) : List α := path.rtakeWhile fun b => !P.separator b

def front (path : List α) : List α := path.rdropWhile fun b => !P.separator b

def first (path : List α) : List α := path.takeWhile fun b => !P.separator b

def later (path : List α) : List α := path.dropWhile fun b => !P.separator b

def named (path : List α) : List (List α) :=
  (path.splitOnP P.separator).filter fun segment => segment ≠ [] ∧ segment ≠ [P.dot]

/-- The path is empty or ends with a separator. -/
def Closed (path : List α) : Prop := path = [] ∨ ∃ before b, path = before ++ [b] ∧ P.separator b = true

/-- The path is empty or starts with a separator. -/
def Detached (path : List α) : Prop := path = [] ∨ ∃ b rest, path = b :: rest ∧ P.separator b = true

section Cuts

omit [DecidableEq α]

theorem front_append_last (path : List α) : P.front path ++ P.last path = path := by
  rw [front, last, List.rdropWhile, List.rtakeWhile, ← List.reverse_append, List.takeWhile_append_dropWhile,
    List.reverse_reverse]

theorem first_append_later (path : List α) : P.first path ++ P.later path = path :=
  List.takeWhile_append_dropWhile

theorem closed_front (path : List α) : P.Closed (P.front path) := by
  by_cases hnil : P.front path = []
  · exact .inl hnil
  · have hlast := List.rdropWhile_last_not _ path hnil
    exact .inr ⟨_, _, (List.dropLast_append_getLast hnil).symm, by simpa [front] using hlast⟩

theorem detached_later (path : List α) : P.Detached (P.later path) := by
  cases hlater : P.later path with
  | nil => exact .inl rfl
  | cons b rest =>
      have hhead : (P.later path).head? = some b := by rw [hlater]; rfl
      have hb := List.head?_dropWhile_not (fun b => !P.separator b) path
      rw [show path.dropWhile (fun b => !P.separator b) = P.later path from rfl, hhead] at hb
      exact .inr ⟨b, rest, rfl, by simpa using hb⟩

theorem separator_of_mem_last {path : List α} {b : α} (h : b ∈ P.last path) : P.separator b = false := by
  simpa using List.mem_rtakeWhile_imp h

theorem separator_of_mem_first {path : List α} {b : α} (h : b ∈ P.first path) : P.separator b = false := by
  simpa using List.mem_takeWhile_imp h

end Cuts

/-! ### Walking -/

section Walking

variable {absolute : Bool} {names : List (List α)}

@[simp] theorem enter_nil : P.enter absolute names [] = names := by simp [enter]

@[simp] theorem enter_dot : P.enter absolute names [P.dot] = names := by simp [enter]

theorem enter_up : P.enter absolute names P.up
    = if P.ascends absolute names then P.up :: names else names.tail := by
  simp [enter, up]

theorem enter_name {segment : List α} (hnil : segment ≠ []) (hdot : segment ≠ [P.dot])
    (hup : segment ≠ P.up) : P.enter absolute names segment = segment :: names := by
  rw [enter, if_neg (not_or.mpr ⟨hnil, hdot⟩), if_neg hup]

theorem walk_segment {segment : List α} (h : ∀ b ∈ segment, P.separator b = false) :
    P.walk absolute names segment = P.enter absolute names segment := by
  rw [walk, List.splitOnP_eq_singleton h]
  rfl

theorem walk_separator {b : α} (hb : P.separator b = true) (path rest : List α) :
    P.walk absolute names (path ++ b :: rest)
      = P.walk absolute (P.walk absolute names path) rest := by
  rw [walk, List.splitOnP_append_cons _ _ hb, List.foldl_append]
  rfl

@[simp] theorem walk_nil : P.walk absolute names [] = names := by
  rw [walk_segment P (by simp), enter_nil]

theorem walk_closed {path segment : List α} (hpath : P.Closed path)
    (hsegment : ∀ b ∈ segment, P.separator b = false) :
    P.walk absolute names (path ++ segment) = P.enter absolute (P.walk absolute names path) segment := by
  obtain rfl | ⟨before, b, rfl, hb⟩ := hpath
  · rw [List.nil_append, walk_segment P hsegment, walk_nil]
  · rw [List.append_assoc, List.singleton_append, walk_separator P hb, walk_separator P hb,
      walk_segment P hsegment, walk_nil]

theorem walk_detached {rest : List α} (hrest : P.Detached rest) (path : List α) :
    P.walk absolute names (path ++ rest) = P.walk absolute (P.walk absolute names path) rest := by
  obtain rfl | ⟨b, rest, rfl, hb⟩ := hrest
  · rw [List.append_nil, walk_nil]
  · have hrest : P.walk absolute (P.walk absolute names path) ([] ++ b :: rest)
        = P.walk absolute (P.walk absolute names path) rest := by
      rw [walk_separator P hb, walk_nil]
    rw [walk_separator P hb, ← hrest, List.nil_append]

theorem walk_named {path : List α} (h : P.up ∉ path.splitOnP P.separator) :
    P.walk absolute names path = (P.named path).reverse ++ names := by
  rw [walk, named]
  generalize path.splitOnP P.separator = segments at h ⊢
  induction segments generalizing names with
  | nil => rfl
  | cons segment segments ih =>
      obtain ⟨hsegment, hsegments⟩ := not_or.mp (List.mem_cons.not.mp h)
      rw [List.foldl_cons, ih hsegments]
      by_cases hstays : segment = [] ∨ segment = [P.dot]
      · rw [List.filter_cons_of_neg (by simpa [imp_iff_not_or] using hstays), enter, if_pos hstays]
      · obtain ⟨hnil, hdot⟩ := not_or.mp hstays
        rw [List.filter_cons_of_pos (by simp [hnil, hdot]), enter_name P hnil hdot (Ne.symm hsegment),
          List.reverse_cons, List.append_assoc, List.singleton_append]

end Walking

/-! ### Going on behind a directory -/

section Joining

variable {path rest : List α}

theorem walk_directory (absolute : Bool) (path : List α) : P.walk absolute [] path
    = P.enter absolute (P.walk absolute [] (P.front path)) (P.last path) := by
  have hlast : ∀ b ∈ P.last path, P.separator b = false := fun b hb => P.separator_of_mem_last hb
  rw [← P.walk_closed (P.closed_front path) hlast, front_append_last]

theorem walk_joined (absolute : Bool) (hup : ¬ P.up <:+: rest) : P.walk absolute [] (path ++ rest)
    = (P.named (P.later rest)).reverse ++
        P.enter absolute (P.walk absolute [] (P.front path)) (P.last path ++ P.first rest) := by
  have hsplit : path ++ rest = (P.front path ++ (P.last path ++ P.first rest)) ++ P.later rest := by
    rw [List.append_assoc, List.append_assoc, first_append_later, ← List.append_assoc, front_append_last]
  have hlater : P.up ∉ (P.later rest).splitOnP P.separator := by
    intro hmem
    exact hup ((infix_of_mem_splitOnP hmem).trans (List.dropWhile_suffix _).isInfix)
  have hsegment : ∀ b ∈ P.last path ++ P.first rest, P.separator b = false := by
    intro b hb
    rcases List.mem_append.mp hb with hb | hb
    · exact P.separator_of_mem_last hb
    · exact P.separator_of_mem_first hb
  rw [hsplit, P.walk_detached (P.detached_later rest), P.walk_named hlater,
    P.walk_closed (P.closed_front path) hsegment]

theorem up_notMem_named (h : ¬ P.up <:+: rest) : P.up ∉ (P.named (P.later rest)).reverse := by
  intro hmem
  rw [List.mem_reverse, named] at hmem
  have hpart := infix_of_mem_splitOnP (List.mem_of_mem_filter hmem)
  exact h (hpart.trans (List.dropWhile_suffix _).isInfix)

omit [DecidableEq α] in
theorem first_ne_up (h : ¬ P.up <:+: rest) : P.first rest ≠ P.up := by
  intro hfirst
  exact h (hfirst ▸ (List.takeWhile_prefix _).isInfix)

end Joining

/-! ### The segment where a directory and a name meet -/

section Meeting

variable {absolute : Bool} {names behind : List (List α)} {segment more : List α}

omit [DecidableEq α] in
theorem extends_append {inner directory : List (List α)} (h : P.up ∉ inner) :
    P.Extends (inner ++ directory) directory := ⟨inner, rfl, h⟩

omit [DecidableEq α] in
theorem not_extends_cons {name name' : List α} (hne : name ≠ name') (behind : List (List α)) :
    ¬ P.Extends (behind ++ name :: names) (name' :: names) := by
  rintro ⟨inner, hinner, -⟩
  rw [← List.singleton_append, ← List.singleton_append (x := name'), ← List.append_assoc, ← List.append_assoc,
    List.append_cancel_right_eq] at hinner
  exact hne (List.append_inj_right' hinner rfl |> List.cons.inj |>.1)

theorem extends_enter (h : P.up ∉ behind) (hmore : more ≠ P.up) :
    P.Extends (behind ++ P.enter absolute names more) names := by
  by_cases hstays : more = [] ∨ more = [P.dot]
  · rw [enter, if_pos hstays]
    exact P.extends_append h
  · obtain ⟨hnil, hdot⟩ := not_or.mp hstays
    rw [enter_name P hnil hdot hmore, ← List.singleton_append, ← List.append_assoc]
    exact P.extends_append (by simp [h, Ne.symm hmore])

theorem extends_dot (h : P.up ∉ behind) (hdot : more ≠ [P.dot]) :
    P.Extends (behind ++ P.enter absolute names ([P.dot] ++ more)) (P.enter absolute names [P.dot]) := by
  have hup : [P.dot] ++ more ≠ P.up := by
    intro heq
    exact hdot (List.cons.inj heq).2
  rw [enter_dot]
  exact P.extends_enter h hup

theorem extends_dots (h : P.up ∉ behind) :
    P.Extends (behind ++ P.enter absolute names ([P.dot] ++ [P.dot])) (P.enter absolute names [P.dot]) ↔
      P.ascends absolute names = false ∧ ∀ name ∈ names.head?, behind.getLast? = some name := by
  rw [enter_dot, show [P.dot] ++ [P.dot] = P.up from rfl, enter_up]
  cases hascends : P.ascends absolute names with
  | true =>
      simp only [if_true, Bool.true_eq_false, false_and, iff_false]
      rintro ⟨inner, hinner, hup⟩
      rw [← List.singleton_append, ← List.append_assoc, List.append_cancel_right_eq] at hinner
      exact hup (hinner ▸ by simp)
  | false =>
      simp only [Bool.false_eq_true, if_false, true_and]
      cases names with
      | nil => exact iff_of_true ⟨behind, rfl, h⟩ (by simp)
      | cons name names =>
          simp only [List.tail_cons, List.head?_cons, Option.mem_def, Option.some.injEq, forall_eq']
          rw [List.getLast?_eq_some_iff]
          constructor
          · rintro ⟨inner, hinner, -⟩
            rw [← List.singleton_append, ← List.append_assoc, List.append_cancel_right_eq] at hinner
            exact ⟨inner, hinner⟩
          · rintro ⟨inner, rfl⟩
            exact ⟨inner, by simp, fun hmem => h (List.mem_append_left _ hmem)⟩

theorem extends_up (h : P.up ∉ behind) (hnil : more ≠ []) :
    P.Extends (behind ++ P.enter absolute names (P.up ++ more)) (P.enter absolute names P.up) ↔
      P.ascends absolute names = false := by
  have hlength : 2 < (P.up ++ more).length := by
    have hpos := List.length_pos_of_ne_nil hnil
    rw [List.length_append, up]
    exact Nat.lt_add_of_pos_right hpos
  have hup : P.up ++ more ≠ P.up := by
    intro heq
    rw [heq] at hlength
    exact absurd hlength (by simp [up])
  rw [enter_up, enter_name P (by simp [up]) (by simp [up]) hup]
  cases hascends : P.ascends absolute names with
  | true => exact iff_of_false (P.not_extends_cons hup behind) (by simp)
  | false =>
      simp only [Bool.false_eq_true, if_false, iff_true]
      cases names with
      | nil =>
          rw [List.tail_nil, ← List.append_nil (behind ++ _)]
          exact P.extends_append (by simp [h, Ne.symm hup])
      | cons name names =>
          have hname : name ≠ P.up := by simpa [ascends] using hascends
          rw [List.tail_cons, ← List.singleton_append, ← List.singleton_append (x := name),
            ← List.append_assoc, ← List.append_assoc]
          exact P.extends_append (by simp [h, Ne.symm hup, Ne.symm hname])

theorem not_extends_name (hnil : segment ≠ []) (hdot : segment ≠ [P.dot]) (hup : segment ≠ P.up)
    (hmore : more ≠ []) :
    ¬ P.Extends (behind ++ P.enter absolute names (segment ++ more)) (P.enter absolute names segment) := by
  have hne : segment ++ more ≠ segment := by
    intro heq
    exact hmore (List.append_right_eq_self.mp heq)
  have hdots : segment ++ more ≠ [P.dot] ∧ segment ++ more ≠ P.up := by
    obtain ⟨a, segment, rfl⟩ := List.exists_cons_of_ne_nil hnil
    obtain ⟨b, more, rfl⟩ := List.exists_cons_of_ne_nil hmore
    cases segment with
    | nil => simp_all [up]
    | cons c segment => simp [up]
  rw [enter_name P (by simp [hnil]) hdots.1 hdots.2, enter_name P hnil hdot hup]
  exact P.not_extends_cons hne behind

/-- **Where two segments meet** without a separator. -/
theorem extends_meeting_iff (absolute : Bool) (names : List (List α)) (segment : List α)
    (h : P.up ∉ behind) (hmore : more ≠ P.up) :
    P.Extends (behind ++ P.enter absolute names (segment ++ more)) (P.enter absolute names segment) ↔
      more = [] ∨ segment = [] ∨ segment = [P.dot] ∧ more ≠ [P.dot] ∨
        P.ascends absolute names = false ∧
          (segment = P.up ∨ segment = [P.dot] ∧ more = [P.dot] ∧
            ∀ name ∈ names.head?, behind.getLast? = some name) := by
  have hup_ne : P.up ≠ [] ∧ P.up ≠ [P.dot] := by simp [up]
  by_cases hnil : more = []
  · subst hnil
    rw [List.append_nil]
    exact iff_of_true (P.extends_append h) (.inl rfl)
  rw [or_iff_right hnil]
  by_cases hsegment : segment = []
  · subst hsegment
    rw [List.nil_append, enter_nil]
    exact iff_of_true (P.extends_enter h hmore) (.inl rfl)
  rw [or_iff_right hsegment]
  by_cases hdot : segment = [P.dot]
  · subst hdot
    simp only [true_and, Ne.symm hup_ne.2, false_or]
    by_cases hdots : more = [P.dot]
    · subst hdots
      simpa using P.extends_dots h
    · exact iff_of_true (P.extends_dot h hdots) (.inl hdots)
  simp only [hdot, false_and, false_or, or_false]
  by_cases hup : segment = P.up
  · subst hup
    simpa using P.extends_up h hnil
  · exact iff_of_false (P.not_extends_name hsegment hdot hup hnil) fun h => hup h.2

end Meeting

/-- A name behind a directory, without a separator between them, leads to a place in the directory: the
first segment of the name does not change the last one of the directory, or this is `.` or `..` and what
becomes of it leads back. -/
def StaysInside (path rest : List α) : Prop :=
  (path = [] → P.absolute rest = false) ∧
    (P.first rest = [] ∨ P.last path = [] ∨ P.last path = [P.dot] ∧ P.first rest ≠ [P.dot] ∨
      P.ascends (P.absolute path) (P.walk (P.absolute path) [] (P.front path)) = false ∧
        (P.last path = P.up ∨ P.last path = [P.dot] ∧ P.first rest = [P.dot] ∧
          ∀ name ∈ (P.walk (P.absolute path) [] (P.front path)).head?,
            (P.named (P.later rest)).head? = some name))

omit [DecidableEq α] in
theorem absolute_append_iff (path rest : List α) :
    P.absolute (path ++ rest) = P.absolute path ↔ (path = [] → P.absolute rest = false) := by
  cases path with
  | nil => simp [absolute]
  | cons b path => simp [absolute]

/-- **Where a name behind a directory leads.** -/
theorem inside_append_iff (path : List α) {rest : List α} (hup : ¬ P.up <:+: rest) :
    P.Inside (P.locate (path ++ rest)) (P.locate path) ↔ P.StaysInside path rest := by
  rw [Inside, StaysInside, ← absolute_append_iff]
  refine and_congr_right fun (habsolute : P.absolute (path ++ rest) = P.absolute path) => ?_
  have hmeeting := P.extends_meeting_iff (P.absolute path)
    (P.walk (P.absolute path) [] (P.front path)) (P.last path) (P.up_notMem_named hup) (P.first_ne_up hup)
  rw [List.getLast?_reverse] at hmeeting
  rw [← hmeeting, locate, locate, habsolute, P.walk_joined _ hup, ← P.walk_directory]

end Style

end Paths
