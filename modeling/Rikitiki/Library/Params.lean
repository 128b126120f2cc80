import Mathlib.Data.List.DropRight
import Mathlib.Data.Option.Basic

/-!
# Parameters that are stored one after the other

A parameter is a flag, which stores the empty value under its name, or a binding, which appends its value
to what is stored there. `stored` follows one key through a list of parameters, and `stored_eq` says what
it comes to: everything bound to the key behind its last flag.
-/

universe u v

inductive Param (κ : Type u) (β : Type v) where
  | flag (name : κ)
  | binding (name : κ) (value : List β)
  deriving DecidableEq, Repr

namespace Param

variable {κ : Type u} {β : Type v}

def name : Param κ β → κ
  | flag name => name
  | binding name _ => name

/-- The value part, which is empty for a flag. -/
def value : Param κ β → List β
  | flag _ => []
  | binding _ value => value

def isBinding : Param κ β → Bool
  | flag _ => false
  | binding _ _ => true

/-- What a parameter makes of the value under its name. -/
def update : Param κ β → Option (List β) → List β
  | flag _, _ => []
  | binding _ value, old => old.getD [] ++ value

def Named (key : κ) (params : List (Param κ β)) : Prop := ∃ param ∈ params, param.name = key

theorem named_concat {key : κ} {params : List (Param κ β)} (param : Param κ β) :
    Named key (params ++ [param]) ↔ Named key params ∨ param.name = key := by
  simp [Named, or_and_right, exists_or]

def map {β' : Type v} (f : β → β') : Param κ β → Param κ β'
  | flag name => flag name
  | binding name value => binding name (value.map f)

section Map

variable {β' : Type v} (f : β → β') (param : Param κ β)

@[simp] theorem name_map : (param.map f).name = param.name := by cases param <;> rfl

@[simp] theorem value_map : (param.map f).value = param.value.map f := by cases param <;> rfl

@[simp] theorem isBinding_map : (param.map f).isBinding = param.isBinding := by cases param <;> rfl

theorem named_map {key : κ} {params : List (Param κ β)} :
    Named key (params.map (Param.map f)) ↔ Named key params := by
  simp [Named]

end Map

variable [DecidableEq κ] {key : κ} {old : Option (List β)} {params : List (Param κ β)}

def flags (key : κ) : Param κ β → Bool
  | flag name => decide (name = key)
  | binding _ _ => false

/-- What is stored under a key, after some parameters. -/
def stored (key : κ) (old : Option (List β)) (params : List (Param κ β)) : Option (List β) :=
  params.foldl (fun old param => if param.name = key then some (param.update old) else old) old

def Flagged (key : κ) (params : List (Param κ β)) : Prop := ∃ param ∈ params, param.flags key = true

instance (key : κ) (params : List (Param κ β)) : Decidable (Named key params) :=
  inferInstanceAs (Decidable (∃ param ∈ params, param.name = key))

instance (key : κ) (params : List (Param κ β)) : Decidable (Flagged key params) :=
  inferInstanceAs (Decidable (∃ param ∈ params, param.flags key = true))

/-- The values bound to a key behind its last flag. -/
def bound (key : κ) (params : List (Param κ β)) : List (List β) :=
  ((params.rtakeWhile fun param => !param.flags key).filter fun param => param.name = key).map value

/-- What the values of a key are appended to. -/
def base (key : κ) (old : Option (List β)) (params : List (Param κ β)) : List β :=
  if Flagged key params then [] else old.getD []

theorem name_of_flags {param : Param κ β} (h : param.flags key = true) : param.name = key := by
  cases param with
  | flag name => exact of_decide_eq_true h
  | binding name value => cases h

theorem Flagged.named (h : Flagged key params) : Named key params := by
  obtain ⟨param, hmem, hflags⟩ := h
  exact ⟨param, hmem, name_of_flags hflags⟩

/-! ### One more parameter -/

theorem stored_concat (param : Param κ β) : stored key old (params ++ [param]) =
    if param.name = key then some (param.update (stored key old params)) else stored key old params := by
  simp [stored]

theorem flagged_concat (param : Param κ β) :
    Flagged key (params ++ [param]) ↔ Flagged key params ∨ param.flags key = true := by
  simp [Flagged, or_and_right, exists_or]

theorem bound_concat_of_flags {param : Param κ β} (h : param.flags key = true) :
    bound key (params ++ [param]) = [] := by
  rw [bound, List.rtakeWhile_concat_neg _ _ _ (by simp [h])]
  rfl

theorem bound_concat {param : Param κ β} (h : param.flags key = false) :
    bound key (params ++ [param])
      = bound key params ++ if param.name = key then [param.value] else [] := by
  rw [bound, List.rtakeWhile_concat_pos _ _ _ (by simp [h]), List.filter_append, List.map_append, bound,
    List.filter_singleton]
  by_cases hname : param.name = key
  · simp [hname]
  · simp [hname]

theorem bound_of_not_named (h : ¬ Named key params) : bound key params = [] := by
  rw [bound, List.map_eq_nil_iff, List.filter_eq_nil_iff]
  intro param hparam hname
  exact h ⟨param, (List.rtakeWhile_suffix _ _).subset hparam, of_decide_eq_true hname⟩

/-- **What is stored under a key**: nothing new if it is not named, and otherwise all that is bound to it
behind its last flag, or behind what was there if it has no flag. -/
theorem stored_eq (key : κ) (old : Option (List β)) (params : List (Param κ β)) :
    stored key old params =
      if Named key params then some (base key old params ++ (bound key params).flatten) else old := by
  induction params using List.reverseRecOn with
  | nil => simp [stored, Named]
  | append_singleton params param ih =>
      rw [stored_concat, ih]
      cases hflags : param.flags key with
      | true =>
          have hname := name_of_flags hflags
          have hvalue : ∀ old, param.update old = [] := by
            intro old
            cases param with
            | flag name => rfl
            | binding name value => cases hflags
          rw [if_pos hname, if_pos (named_concat param |>.mpr (.inr hname)), hvalue, base,
            if_pos (flagged_concat param |>.mpr (.inr hflags)), bound_concat_of_flags hflags]
          rfl
      | false =>
          have hbase : base key old (params ++ [param]) = base key old params := by
            simp [base, flagged_concat, hflags]
          rw [bound_concat hflags, hbase]
          by_cases hname : param.name = key
          · have hupdate : ∀ old, param.update old = old.getD [] ++ param.value := by
              intro old
              cases param with
              | flag name => exact absurd hname (of_decide_eq_false hflags)
              | binding name value => rfl
            rw [if_pos hname, if_pos hname, if_pos (named_concat param |>.mpr (.inr hname)), hupdate,
              List.flatten_append, List.flatten_singleton, ← List.append_assoc]
            by_cases hnamed : Named key params
            · rw [if_pos hnamed]
              rfl
            · have hnoFlag : ¬ Flagged key params := fun h => hnamed h.named
              rw [if_neg hnamed, bound_of_not_named hnamed, base, if_neg hnoFlag, List.flatten_nil,
                List.append_nil]
          · simp [hname, named_concat]

def Blank (key : κ) (old : Option (List β)) (params : List (Param κ β)) : Prop :=
  base key old params = [] ∧ ∀ value ∈ bound key params, value = []

theorem stored_of_not_named (h : ¬ Named key params) : stored key old params = old := by
  rw [stored_eq, if_neg h]

theorem getD_stored (key : κ) (old : Option (List β)) (params : List (Param κ β)) :
    (stored key old params).getD [] = base key old params ++ (bound key params).flatten := by
  rw [stored_eq]
  split
  · rfl
  · rename_i hnamed
    have hnoFlag : ¬ Flagged key params := fun h => hnamed h.named
    rw [base, if_neg hnoFlag, bound_of_not_named hnamed, List.flatten_nil, List.append_nil]

theorem getD_stored_eq_nil : (stored key old params).getD [] = [] ↔ Blank key old params := by
  rw [getD_stored, List.append_eq_nil_iff, List.flatten_eq_nil_iff, Blank]

theorem isSome_stored : (stored key old params).isSome = true ↔ old.isSome = true ∨ Named key params := by
  rw [stored_eq]
  by_cases hnamed : Named key params
  · simp [hnamed]
  · simp [hnamed]

/-- An empty entry makes no difference to what follows exactly when a flag resets it, or what it replaces
was blank and there is an entry in the end. -/
theorem stored_empty_iff :
    stored key (some []) params = stored key old params ↔
      Flagged key params ∨ old.getD [] = [] ∧ (old.isSome = true ∨ Named key params) := by
  rw [stored_eq, stored_eq]
  by_cases hnamed : Named key params
  · by_cases hflagged : Flagged key params
    · simp [hnamed, hflagged, base]
    · simp [hnamed, hflagged, base]
  · have hnoFlag : ¬ Flagged key params := fun h => hnamed h.named
    cases old with
    | none => simp [hnamed, hnoFlag]
    | some value => simp [hnamed, hnoFlag, eq_comm]

/-! ### Where a value comes from -/

theorem bound_map {β' : Type v} (f : β → β') (key : κ) (params : List (Param κ β)) :
    bound key (params.map (Param.map f)) = (bound key params).map (List.map f) := by
  have hflags : ∀ param : Param κ β, (param.map f).flags key = param.flags key := by
    intro param
    cases param <;> rfl
  simp only [bound, List.rtakeWhile, ← List.map_reverse, List.takeWhile_map, List.filter_map, List.map_map,
    Function.comp_def, hflags, name_map, value_map]

theorem bound_sublist (key : κ) (params : List (Param κ β)) :
    (bound key params).Sublist (params.map value) :=
  (List.filter_sublist.trans (List.rtakeWhile_suffix _ _).sublist).map value

theorem flatten_of_pairwise {values : List (List β)} (h : values.Pairwise fun v w => v = [] ∨ w = []) :
    values.flatten = [] ∨ values.flatten ∈ values := by
  induction values with
  | nil => exact .inl rfl
  | cons value values ih =>
      obtain ⟨hvalue, hvalues⟩ := List.pairwise_cons.mp h
      rcases eq_or_ne value [] with rfl | hne
      · rw [List.flatten_cons, List.nil_append]
        exact (ih hvalues).imp_right (List.mem_cons_of_mem _)
      · have hrest : values.flatten = [] :=
          List.flatten_eq_nil_iff.mpr fun w hw => (hvalue w hw).resolve_left hne
        right
        rw [List.flatten_cons, hrest, List.append_nil]
        exact List.mem_cons_self

theorem exists_empty (hnamed : Named key params) (hempty : (bound key params).flatten = []) :
    ∃ param ∈ params, param.name = key ∧ param.value = [] := by
  by_cases hflagged : Flagged key params
  · obtain ⟨param, hparam, hflags⟩ := hflagged
    refine ⟨param, hparam, name_of_flags hflags, ?_⟩
    cases param with
    | flag name => rfl
    | binding name value => cases hflags
  · obtain ⟨param, hparam, hname⟩ := hnamed
    have hall : (params.rtakeWhile fun param => !param.flags key) = params := by
      rw [List.rtakeWhile_eq_self_iff]
      intro other hother
      have hno : ¬ other.flags key = true := fun h => hflagged ⟨other, hother, h⟩
      simp [hno]
    have hbound : param.value ∈ bound key params := by
      rw [bound, hall]
      exact List.mem_map_of_mem (List.mem_filter.mpr ⟨hparam, decide_eq_true hname⟩)
    exact ⟨param, hparam, hname, List.flatten_eq_nil_iff.mp hempty _ hbound⟩

theorem exists_of_mem_bound {value : List β} (h : value ∈ bound key params) :
    ∃ param ∈ params, param.name = key ∧ param.value = value := by
  obtain ⟨param, hparam, rfl⟩ := List.mem_map.mp h
  obtain ⟨hmem, hname⟩ := List.mem_filter.mp hparam
  exact ⟨param, (List.rtakeWhile_suffix _ _).subset hmem, of_decide_eq_true hname, rfl⟩

end Param
