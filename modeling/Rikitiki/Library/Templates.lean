import Mathlib.Data.List.Infix

/-!
# Texts with names to be replaced

A name stands behind an opening mark of two characters and in front of a closing one. A text in which every
opening mark is closed is a list of pieces, each a text without a mark and a name, and a tail without a mark;
expanding it replaces the names piece by piece.
-/

namespace Templates

variable {α : Type*}

/-- The characters around a name. -/
structure Marks (α : Type*) where
  first : α
  second : α
  close : α
  first_ne_second : first ≠ second

structure Piece (α : Type*) where
  text : List α
  name : List α

variable (marks : Marks α)

namespace Marks

/-- No opening mark stands in the text. -/
def Free (s : List α) : Prop := ¬ [marks.first, marks.second] <:+: s

/-- Every opening mark is closed later on. -/
def Closed (s : List α) : Prop := ∀ rest, marks.first :: marks.second :: rest <:+ s → marks.close ∈ rest

/-- The text with every closed name replaced. -/
def expand [DecidableEq α] (subst : List α → List α) : List α → List α
  | [] => []
  | a :: rest =>
    if [marks.first, marks.second] <+: a :: rest ∧ marks.close ∈ rest.tail then
      subst (rest.tail.takeWhile fun b => b ≠ marks.close)
        ++ expand subst (rest.tail.dropWhile fun b => b ≠ marks.close).tail
    else a :: expand subst rest
  termination_by s => s.length
  decreasing_by
    · have hdrop := (List.dropWhile_suffix fun b => decide (b ≠ marks.close) : _ <:+ rest.tail).length_le
      simp only [List.length_tail, List.length_cons] at hdrop ⊢
      omega
    · exact Nat.lt_succ_self _

end Marks

namespace Piece

def source (piece : Piece α) : List α :=
  piece.text ++ marks.first :: marks.second :: (piece.name ++ [marks.close])

def expanded (subst : List α → List α) (piece : Piece α) : List α := piece.text ++ subst piece.name

/-- The piece is read back: its text has no opening mark, and its name no closing one. -/
structure Valid (piece : Piece α) : Prop where
  text_free : marks.Free piece.text
  close_notMem : marks.close ∉ piece.name

end Piece

variable {marks}

/-! ### The first opening mark -/

theorem Marks.free_cons {a : α} {s : List α} :
    marks.Free (a :: s) ↔ ¬ [marks.first, marks.second] <+: a :: s ∧ marks.Free s := by
  rw [Marks.Free, List.infix_cons_iff, not_or, Marks.Free]

theorem Marks.Free.not_prefix_append {a : α} {text : List α} (h : marks.Free (a :: text)) (rest : List α) :
    ¬ [marks.first, marks.second] <+: a :: (text ++ marks.first :: rest) := by
  intro hstart
  obtain ⟨ha, hstart⟩ := List.cons_prefix_cons.mp hstart
  cases text with
  | nil =>
      obtain ⟨hne, -⟩ := List.cons_prefix_cons.mp hstart
      exact marks.first_ne_second hne.symm
  | cons b text =>
      obtain ⟨hb, -⟩ := List.cons_prefix_cons.mp hstart
      apply (Marks.free_cons.mp h).1
      rw [ha, hb]
      exact List.prefix_append [a, b] text

theorem Marks.exists_first {s : List α} (h : ¬ marks.Free s) :
    ∃ text rest, s = text ++ marks.first :: marks.second :: rest ∧ marks.Free text := by
  induction s with
  | nil => exact absurd (by simp [Marks.Free]) h
  | cons a s ih =>
      by_cases hstart : [marks.first, marks.second] <+: a :: s
      · obtain ⟨rest, hrest⟩ := hstart
        exact ⟨[], rest, hrest.symm, by simp [Marks.Free]⟩
      · have htail : ¬ marks.Free s := fun hfree => h (Marks.free_cons.mpr ⟨hstart, hfree⟩)
        obtain ⟨text, rest, rfl, hfree⟩ := ih htail
        refine ⟨a :: text, rest, rfl, Marks.free_cons.mpr ⟨fun htext => hstart ?_, hfree⟩⟩
        exact htext.trans (List.prefix_append (a :: text) _)

/-! ### Pieces -/

/-- **A text whose marks are closed** is a list of pieces and a tail. -/
theorem Marks.Closed.exists_pieces {s : List α} (h : marks.Closed s) :
    ∃ (pieces : List (Piece α)) (tail : List α), s = pieces.flatMap (Piece.source marks) ++ tail ∧
      (∀ piece ∈ pieces, piece.Valid marks) ∧ marks.Free tail := by
  induction hn : s.length using Nat.strongRecOn generalizing s with
  | ind n ih =>
      by_cases hfree : marks.Free s
      · exact ⟨[], s, rfl, by simp, hfree⟩
      obtain ⟨text, rest, rfl, htext⟩ := Marks.exists_first hfree
      obtain ⟨name, after, rfl, hname⟩ := List.eq_append_cons_of_mem (h rest (List.suffix_append _ _))
      have hlater : marks.Closed after := by
        intro rest hsuffix
        apply h
        apply hsuffix.trans
        exact ⟨text ++ marks.first :: marks.second :: (name ++ [marks.close]), by simp⟩
      have hless : after.length < n := by
        rw [← hn]
        simp only [List.length_append, List.length_cons]
        omega
      obtain ⟨pieces, tail, rfl, hpieces, htail⟩ := ih after.length hless hlater rfl
      refine ⟨⟨text, name⟩ :: pieces, tail, by simp [Piece.source], ?_, htail⟩
      intro piece hmem
      rcases List.mem_cons.mp hmem with rfl | hmem
      · exact ⟨htext, hname⟩
      · exact hpieces piece hmem

/-! ### Expanding -/

variable [DecidableEq α] (subst : List α → List α)

theorem Marks.Free.expand_eq {s : List α} (h : marks.Free s) : marks.expand subst s = s := by
  induction s with
  | nil => rw [Marks.expand]
  | cons a s ih =>
      obtain ⟨hstart, htail⟩ := Marks.free_cons.mp h
      rw [Marks.expand, if_neg fun hif => hstart hif.1, ih htail]

theorem expand_opening {name : List α} (hname : marks.close ∉ name) (rest : List α) :
    marks.expand subst (marks.first :: marks.second :: (name ++ marks.close :: rest))
      = subst name ++ marks.expand subst rest := by
  have hrun : ∀ b ∈ name, decide (b ≠ marks.close) = true := by
    intro b hb
    exact decide_eq_true fun heq => hname (heq ▸ hb)
  rw [Marks.expand, if_pos ⟨List.prefix_append [marks.first, marks.second] _, by simp⟩, List.tail_cons,
    List.takeWhile_append_of_pos hrun, List.dropWhile_append_of_pos hrun]
  simp

/-- **The first piece** is replaced by itself. -/
theorem Piece.Valid.expand_append {piece : Piece α} (h : piece.Valid marks) (rest : List α) :
    marks.expand subst (piece.source marks ++ rest) = piece.expanded subst ++ marks.expand subst rest := by
  obtain ⟨text, name⟩ := piece
  obtain ⟨htext, hname⟩ := h
  simp only [Piece.source, Piece.expanded, List.append_assoc, List.cons_append, List.nil_append] at htext hname ⊢
  induction text with
  | nil => exact expand_opening subst hname rest
  | cons a text ih =>
      rw [List.cons_append, List.cons_append, Marks.expand,
        if_neg fun hif => htext.not_prefix_append _ hif.1, ih (Marks.free_cons.mp htext).2]

theorem expand_pieces {pieces : List (Piece α)} {tail : List α} (hpieces : ∀ piece ∈ pieces, piece.Valid marks)
    (htail : marks.Free tail) :
    marks.expand subst (pieces.flatMap (Piece.source marks) ++ tail)
      = pieces.flatMap (Piece.expanded subst) ++ tail := by
  induction pieces with
  | nil => exact htail.expand_eq subst
  | cons piece pieces ih =>
      obtain ⟨hpiece, hpieces⟩ := List.forall_mem_cons.mp hpieces
      rw [List.flatMap_cons, List.append_assoc, hpiece.expand_append, ih hpieces, List.flatMap_cons,
        List.append_assoc]

end Templates
