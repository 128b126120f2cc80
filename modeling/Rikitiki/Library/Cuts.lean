import Mathlib.Data.List.Flatten

/-!
# Cuttings of a stream

A stream that arrives in fragments is the list of its fragments, and a boundary between two of them is
told by how much is still to come behind it. A set of boundaries `Marks` the fragments that have not
arrived yet, so it serves a whole run: the boundaries that have been passed no longer count.
-/

namespace Cuts

variable {α : Type*} {K : List Nat} {f : List α} {F : List (List α)}

/-- How much is still to come at the start, after each fragment, and at the end. -/
def boundaries : List (List α) → List Nat
  | [] => [0]
  | f :: F => (f ++ F.flatten).length :: boundaries F

theorem length_flatten_mem_boundaries (F : List (List α)) : F.flatten.length ∈ boundaries F := by
  cases F <;> simp [boundaries]

theorem le_of_mem_boundaries {l : Nat} (h : l ∈ boundaries F) : l ≤ F.flatten.length := by
  induction F with
  | nil => simpa [boundaries] using h
  | cons f F ih =>
      rcases List.mem_cons.mp h with rfl | h
      · exact Nat.le_of_eq (by rw [List.flatten_cons])
      · have := ih h
        rw [List.flatten_cons, List.length_append]
        omega

theorem mem_boundaries_cons_of_lt {l : Nat} (h : l < (f ++ F.flatten).length) :
    l ∈ boundaries (f :: F) ↔ l ∈ boundaries F := by
  rw [boundaries, List.mem_cons]
  exact or_iff_right (Nat.ne_of_lt h)

theorem mem_boundaries_iff {l : Nat} :
    l ∈ boundaries F ↔ ∃ before later, F = before ++ later ∧ later.flatten.length = l := by
  constructor
  · intro h
    induction F with
    | nil => exact ⟨[], [], rfl, (List.mem_singleton.mp h).symm⟩
    | cons f F ih =>
        rcases List.mem_cons.mp h with rfl | h
        · exact ⟨[], f :: F, rfl, by rw [List.flatten_cons]⟩
        · obtain ⟨before, later, rfl, hl⟩ := ih h
          exact ⟨f :: before, later, rfl, hl⟩
  · rintro ⟨before, later, rfl, rfl⟩
    induction before with
    | nil => exact length_flatten_mem_boundaries later
    | cons f before ih => exact List.mem_cons_of_mem _ ih

theorem eq_of_mem_boundaries {before later : List (List α)} {l : Nat}
    (h : l ∈ boundaries (before ++ f :: later)) (hge : later.flatten.length ≤ l)
    (hlt : l < (f ++ later.flatten).length) : l = later.flatten.length := by
  induction before with
  | nil =>
      rw [List.nil_append, mem_boundaries_cons_of_lt hlt] at h
      exact Nat.le_antisymm (le_of_mem_boundaries h) hge
  | cons g before ih =>
      rw [List.cons_append, mem_boundaries_cons_of_lt] at h
      · exact ih h
      · simp only [List.flatten_append, List.flatten_cons, List.length_append] at hlt ⊢
        omega

theorem exists_split {n : Nat} (hpos : 0 < n) (hn : n ≤ F.flatten.length) :
    ∃ before f later, F = before ++ f :: later ∧ before.flatten.length < n ∧
      n ≤ (before.flatten ++ f).length := by
  induction F generalizing n with
  | nil => simp at hn; omega
  | cons g F ih =>
      rw [List.flatten_cons, List.length_append] at hn
      by_cases hg : n ≤ g.length
      · exact ⟨[], g, F, rfl, hpos, by simpa using hg⟩
      · obtain ⟨before, f, later, rfl, hlt, hle⟩ := ih (n := n - g.length) (by omega) (by omega)
        refine ⟨g :: before, f, later, rfl, ?_, ?_⟩
        · rw [List.flatten_cons, List.length_append]
          omega
        · rw [List.length_append] at hle
          rw [List.flatten_cons, List.length_append, List.length_append]
          omega

theorem split_unique {n : Nat} {before before' later later' : List (List α)} {f f' : List α}
    (h : before ++ f :: later = before' ++ f' :: later') (hlt : before.flatten.length < n)
    (hle : n ≤ (before.flatten ++ f).length) (hlt' : before'.flatten.length < n)
    (hle' : n ≤ (before'.flatten ++ f').length) : before = before' ∧ f = f' ∧ later = later' := by
  induction before generalizing before' n with
  | nil =>
      cases before' with
      | nil =>
          obtain ⟨rfl, rfl⟩ := List.cons.inj h
          exact ⟨rfl, rfl, rfl⟩
      | cons g before' =>
          obtain ⟨rfl, -⟩ := List.cons.inj h
          rw [List.flatten_cons, List.length_append] at hlt'
          simp at hle
          omega
  | cons g before ih =>
      cases before' with
      | nil =>
          obtain ⟨rfl, -⟩ := List.cons.inj h
          rw [List.flatten_cons, List.length_append] at hlt
          simp at hle'
          omega
      | cons g' before' =>
          obtain ⟨rfl, htail⟩ := List.cons.inj h
          simp only [List.flatten_cons, List.length_append] at hlt hle hlt' hle'
          obtain ⟨rfl, rfl, rfl⟩ := ih (n := n - g.length) htail (by omega)
            (by rw [List.length_append]; omega) (by omega) (by rw [List.length_append]; omega)
          exact ⟨rfl, rfl, rfl⟩

/-- `K` has the boundaries inside the stream that is still to come. -/
def Marks (K : List Nat) (F : List (List α)) : Prop :=
  ∀ l < F.flatten.length, l ∈ K ↔ l ∈ boundaries F

theorem marks_boundaries (F : List (List α)) : Marks (boundaries F) F := fun _ _ => Iff.rfl

namespace Marks

theorem mem_iff (h : Marks K (f :: F)) {l : Nat} (hl : l < (f ++ F.flatten).length) :
    l ∈ K ↔ l ∈ boundaries F := by
  rw [h l (by rwa [List.flatten_cons]), mem_boundaries_cons_of_lt hl]

theorem tail (h : Marks K (f :: F)) : Marks K F := by
  intro l hl
  exact h.mem_iff (by rw [List.length_append]; omega)

theorem of_rest (h : Marks K (f :: F)) {rest : List α} (hrest : rest.length ≤ f.length) :
    Marks K (rest :: F) := by
  intro l hl
  rw [List.flatten_cons] at hl
  rw [mem_boundaries_cons_of_lt hl]
  rw [List.length_append] at hl
  exact h.mem_iff (by rw [List.length_append]; omega)

theorem notMem (h : Marks K (f :: F)) {l : Nat} (hlt : F.flatten.length < l)
    (hl : l < (f ++ F.flatten).length) : l ∉ K := by
  rw [h.mem_iff hl]
  exact fun hmem => Nat.not_le_of_lt hlt (le_of_mem_boundaries hmem)

theorem mem_end (h : Marks K (f :: F)) (hf : f ≠ []) : F.flatten.length ∈ K := by
  rw [h.mem_iff (by simpa using List.length_pos_iff.mpr hf)]
  exact length_flatten_mem_boundaries F

end Marks

end Cuts
