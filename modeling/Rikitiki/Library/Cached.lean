import Mathlib.Data.List.Basic

/-!
# Cells that are filled once

A cell is set by some calls and read by others. The first reading fills it with a copy of something that other calls
change, unless it has been set before; later readings return what is in it. `read_foldl` says what a reading returns
behind any history.
-/

namespace Cached

variable {ι ε α : Type*}

/-- What the calls have to do with a cell, and where it is filled from. -/
structure Use (ι ε α : Type*) where
  sets : ι → Option α
  reads : ι → Bool
  source : ε → α

namespace Use

variable (u : Use ι ε α) (change : ε → ι → ε)

def step (s : ε × Option α) (call : ι) : ε × Option α :=
  (change s.1 call,
    match u.sets call with
    | some value => some value
    | none => if u.reads call then some (s.2.getD (u.source s.1)) else s.2)

def lastSet (calls : List ι) : Option α := (calls.filterMap u.sets).getLast?

def copied (env : ε) (calls : List ι) : α :=
  u.source ((calls.takeWhile fun call => !u.reads call).foldl change env)

theorem lastSet_cons_of_some {call : ι} {value : α} (h : u.sets call = some value) (calls : List ι) :
    u.lastSet (call :: calls) = some ((u.lastSet calls).getD value) := by
  rw [lastSet, List.filterMap_cons_some h, List.getLast?_cons, lastSet]

theorem lastSet_cons_of_none {call : ι} (h : u.sets call = none) (calls : List ι) :
    u.lastSet (call :: calls) = u.lastSet calls := by
  rw [lastSet, List.filterMap_cons_none h, lastSet]

theorem foldl_step_some (calls : List ι) (env : ε) (value : α) :
    (calls.foldl (u.step change) (env, some value)).2 = some ((u.lastSet calls).getD value) := by
  induction calls generalizing env value with
  | nil => rfl
  | cons call calls ih =>
      rw [List.foldl_cons, step]
      cases hsets : u.sets call with
      | some other => rw [ih, u.lastSet_cons_of_some hsets, Option.getD_some]
      | none => rw [u.lastSet_cons_of_none hsets, Option.getD_some, ite_self, ih]

/-- **What a reading returns** behind a history: what was set last, or else what the first reading found. -/
theorem read_foldl (calls : List ι) (env : ε) :
    (calls.foldl (u.step change) (env, none)).2.getD (u.source (calls.foldl change env))
      = (u.lastSet calls).getD (u.copied change env calls) := by
  induction calls generalizing env with
  | nil => rfl
  | cons call calls ih =>
      rw [List.foldl_cons, step]
      cases hsets : u.sets call with
      | some value => rw [foldl_step_some, u.lastSet_cons_of_some hsets, Option.getD_some, Option.getD_some]
      | none =>
          rw [u.lastSet_cons_of_none hsets]
          cases hreads : u.reads call with
          | true =>
              rw [if_pos rfl, foldl_step_some, Option.getD_some, Option.getD_none, copied,
                List.takeWhile_cons_of_neg (by simp [hreads]), List.foldl_nil]
          | false =>
              rw [if_neg Bool.false_ne_true, List.foldl_cons, ih, copied, copied,
                List.takeWhile_cons_of_pos (by simp [hreads]), List.foldl_cons]

end Use

end Cached
