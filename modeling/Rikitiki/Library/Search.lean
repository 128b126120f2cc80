import Mathlib.Data.List.Infix

/-!
# Searching a text

The first place where a text stands in another one, and the last place of a character. A search is known by the
text in front of what it finds.
-/

namespace Search

variable {α : Type*} [DecidableEq α]

def find (text : List α) : List α → Option Nat
  | [] => if text = [] then some 0 else none
  | a :: s => if text <+: a :: s then some 0 else (find text s).map (· + 1)

def findFrom (text s : List α) (start : Nat) : Option Nat := (find text (s.drop start)).map (start + ·)

def findLast (a : α) : List α → Option Nat
  | [] => none
  | b :: s => ((findLast a s).map (· + 1)).or (if b = a then some 0 else none)

/-! ### The first place -/

/-- **A search stops behind a text in which nothing begins.** -/
theorem find_append {text front : List α} (back : List α)
    (h : ∀ first later, front = first ++ later → later ≠ [] → ¬ text <+: later ++ (text ++ back)) :
    find text (front ++ (text ++ back)) = some front.length := by
  induction front with
  | nil =>
      rw [List.nil_append]
      cases hs : text ++ back with
      | nil =>
          rw [find, if_pos (List.append_eq_nil_iff.mp hs).1]
          rfl
      | cons a s =>
          rw [find, if_pos ⟨back, hs⟩]
          rfl
  | cons a front ih =>
      have hhere := h [] (a :: front) rfl (List.cons_ne_nil a front)
      rw [List.cons_append] at hhere ⊢
      rw [find, if_neg hhere, ih fun first later hfront hlater => h (a :: first) later (by rw [hfront]; rfl) hlater]
      rfl

theorem find_append_of_notMem {a : α} {rest front : List α} (h : a ∉ front) (back : List α) :
    find (a :: rest) (front ++ (a :: rest ++ back)) = some front.length := by
  apply find_append
  intro first later hfront hlater hstart
  cases later with
  | nil => exact hlater rfl
  | cons b later =>
      obtain ⟨rfl, -⟩ := List.cons_prefix_cons.mp hstart
      exact h (by rw [hfront]; simp)

theorem findFrom_append {a : α} {middle : List α} (front : List α) (h : a ∉ middle) (back : List α) :
    findFrom [a] (front ++ (middle ++ a :: back)) front.length = some (front.length + middle.length) := by
  have hfind : find [a] (middle ++ a :: back) = some middle.length := find_append_of_notMem h back
  rw [findFrom, List.drop_left, hfind, Option.map_some]

/-! ### The last place -/

theorem findLast_eq_none {a : α} {s : List α} : findLast a s = none ↔ a ∉ s := by
  induction s with
  | nil => simp [findLast]
  | cons b s ih =>
      rw [findLast, Option.or_eq_none_iff, Option.map_eq_none_iff, ih, List.mem_cons, not_or, and_comm]
      split_ifs with hb
      · simp [hb]
      · simp [Ne.symm hb]

theorem findLast_append {a : α} {back : List α} (h : a ∉ back) (front : List α) :
    findLast a (front ++ a :: back) = some front.length := by
  induction front with
  | nil => simp [findLast, findLast_eq_none.mpr h]
  | cons b front ih => simp [findLast, ih]

omit [DecidableEq α] in
theorem exists_last {a : α} {s : List α} (h : a ∈ s) : ∃ front back, s = front ++ a :: back ∧ a ∉ back := by
  obtain ⟨front, back, hsplit, hfront⟩ := List.eq_append_cons_of_mem (List.mem_reverse.mpr h)
  refine ⟨back.reverse, front.reverse, ?_, by rwa [List.mem_reverse]⟩
  rw [← List.reverse_reverse s, hsplit]
  simp

end Search
