import Mathlib.Data.List.Sort
import Mathlib.Data.Multiset.ZeroCons

/-!
# Multimaps

A `std::multimap`: its elements in the order of their keys, and with equal keys in the order in which they
were inserted.
-/

universe u v

@[ext] structure Multimap (κ : Type u) (ν : Type v) [Ord κ] where
  elements : List (κ × ν)
  ordered : elements.Pairwise fun a b => (compare a.1 b.1).isLE = true

namespace Multimap

variable {κ : Type u} {ν : Type v} [Ord κ] {m : Multimap κ ν}

def empty : Multimap κ ν := ⟨[], .nil⟩

instance : EmptyCollection (Multimap κ ν) := ⟨empty⟩

@[simp] theorem elements_empty : (∅ : Multimap κ ν).elements = [] := rfl

/-- Behind everything with a key that is not greater. -/
def place (element : κ × ν) (elements : List (κ × ν)) : List (κ × ν) :=
  elements.orderedInsert (fun a b => compare a.1 b.1 = .lt) element

variable [Std.TransOrd κ]

theorem ordered_place {elements : List (κ × ν)} (h : elements.Pairwise fun a b => (compare a.1 b.1).isLE = true)
    (element : κ × ν) : (place element elements).Pairwise fun a b => (compare a.1 b.1).isLE = true := by
  induction elements with
  | nil => exact List.pairwise_singleton _ _
  | cons first elements ih =>
      obtain ⟨hfirst, helements⟩ := List.pairwise_cons.mp h
      rw [place, List.orderedInsert_cons]
      split
      · rename_i hlt
        have hle : (compare element.1 first.1).isLE = true := by rw [hlt]; rfl
        apply List.pairwise_cons.mpr ⟨?_, h⟩
        intro other hother
        rcases List.mem_cons.mp hother with rfl | hother
        · exact hle
        · exact Std.TransCmp.isLE_trans hle (hfirst other hother)
      · rename_i hge
        have hle : (compare first.1 element.1).isLE = true := by
          rw [Std.OrientedOrd.eq_swap]
          cases hcompare : compare element.1 first.1 <;> simp_all
        apply List.pairwise_cons.mpr ⟨?_, ih helements⟩
        intro other hother
        rcases List.mem_orderedInsert _ |>.mp hother with rfl | hother
        · exact hle
        · exact hfirst other hother

/-- `insert` -/
def insert (m : Multimap κ ν) (key : κ) (value : ν) : Multimap κ ν where
  elements := place (key, value) m.elements
  ordered := ordered_place m.ordered (key, value)

def insertAll (m : Multimap κ ν) (pairs : List (κ × ν)) : Multimap κ ν :=
  pairs.foldl (fun m pair => m.insert pair.1 pair.2) m

@[simp] theorem insertAll_nil (m : Multimap κ ν) : m.insertAll [] = m := rfl

@[simp] theorem insertAll_cons (m : Multimap κ ν) (pair : κ × ν) (pairs : List (κ × ν)) :
    m.insertAll (pair :: pairs) = (m.insert pair.1 pair.2).insertAll pairs := rfl

theorem insert_perm (m : Multimap κ ν) (key : κ) (value : ν) :
    (m.insert key value).elements.Perm ((key, value) :: m.elements) :=
  List.perm_orderedInsert _ _ _

theorem insert_injective {key other : κ} {value old : ν} (h : m.insert key value = m.insert other old) :
    (key, value) = (other, old) := by
  have hperm : ((key, value) :: m.elements).Perm ((other, old) :: m.elements) :=
    (m.insert_perm key value).symm.trans (h ▸ m.insert_perm other old)
  exact (Multiset.cons_inj_left (m.elements : Multiset (κ × ν))).mp (Multiset.coe_eq_coe.mpr hperm)

theorem insertAll_perm (m : Multimap κ ν) (pairs : List (κ × ν)) :
    (m.insertAll pairs).elements.Perm (pairs ++ m.elements) := by
  induction pairs generalizing m with
  | nil => exact .refl _
  | cons pair pairs ih =>
      have hinsert := (m.insert_perm pair.1 pair.2).append_left pairs
      exact (ih _).trans (hinsert.trans List.perm_middle)

end Multimap
