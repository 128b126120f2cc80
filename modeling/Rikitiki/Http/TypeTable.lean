import Rikitiki.Base.StringMap
import Rikitiki.Http.ContentTypes
import Rikitiki.Library.Machine

/-!
# The table of content types

`FromString` looks names up in a static map that the first call fills, and a name that is not in the map
is entered by the look-up itself. Whatever was looked up before, an entry of the map says what
`ContentType.fromString` says without any table, so look-ups do not disturb each other. What they return for a
string that names no type is the first type of the enumeration.
-/

namespace Rikitiki

/-- The types with a value from zero up to `MAX`. -/
def ContentType.IsConcrete (t : ContentType) : Prop := t ≠ .default ∧ t ≠ .all ∧ t ≠ .max

instance (t : ContentType) : Decidable t.IsConcrete := inferInstanceAs (Decidable (_ ∧ _))

/-- The static map `types`. -/
abbrev TypeTable := Std.ExtTreeMap Str ContentType compare

namespace TypeTable

/-- `ContentType::FromString` with the table it finds and the table it leaves. -/
def fromString (types : TypeTable) (type : Str) : ContentType × TypeTable :=
  if type = [] then (.default, types)
  else
    let types := if types.isEmpty then types.insertMany (ContentType.types.map fun t => (t.toString, t)) else types
    match types[type]? with
    | some t => (t, types)
    | none => (.applicationAtomXml, types.insert type .applicationAtomXml)

/-- The table behind a history of calls. -/
def afterCalls (history : List Str) : TypeTable := (Machine.run fromString ∅ history).2

/-- A string is given a concrete type just where it is the name of the type. -/
def LookupExact (types : TypeTable) (type : Str) : Prop :=
  ∀ t : ContentType, t.IsConcrete → ((fromString types type).1 = t ↔ type = t.toString)

structure Filled (types : TypeTable) : Prop where
  names : ∀ t ∈ ContentType.types, types[t.toString]? = some t
  entries : ∀ name t, types[name]? = some t → t = ContentType.fromString name

/-- The tables that calls can leave. -/
def Valid (types : TypeTable) : Prop := types = ∅ ∨ Filled types

/-! ### The names of the types -/

theorem nodup_names : ([] :: ContentType.types.map ContentType.toString).Nodup := by decide +kernel

theorem toString_ne_nil {t : ContentType} (ht : t ∈ ContentType.types) : t.toString ≠ [] := by
  intro hnil
  exact (List.nodup_cons.mp nodup_names).1 (hnil ▸ List.mem_map_of_mem ht)

theorem toString_injOn {t u : ContentType} (ht : t ∈ ContentType.types) (hu : u ∈ ContentType.types)
    (hname : t.toString = u.toString) : t = u :=
  List.inj_on_of_nodup_map (List.nodup_cons.mp nodup_names).2 ht hu hname

theorem mem_types {t : ContentType} (ht : t.IsConcrete) : t ∈ ContentType.types := by
  revert ht
  cases t
  all_goals decide

theorem fromString_toString {t : ContentType} (ht : t ∈ ContentType.types) :
    ContentType.fromString t.toString = t := by
  rw [ContentType.fromString, if_neg (toString_ne_nil ht)]
  cases hfind : ContentType.types.reverse.find? fun u => u.toString = t.toString with
  | none =>
      have hnone := List.find?_eq_none.mp hfind t (List.mem_reverse.mpr ht)
      exact absurd (decide_eq_true rfl) hnone
  | some u =>
      have hu : u ∈ ContentType.types := List.mem_reverse.mp (List.mem_of_find?_eq_some hfind)
      have hname : u.toString = t.toString := by simpa using List.find?_some hfind
      exact toString_injOn hu ht hname

theorem fromString_of_not_name {name : Str} (hne : name ≠ [])
    (hnone : ∀ t ∈ ContentType.types, t.toString ≠ name) :
    ContentType.fromString name = .applicationAtomXml := by
  have hfind : (ContentType.types.reverse.find? fun t => t.toString = name) = none := by
    rw [List.find?_eq_none]
    intro t ht
    simpa using hnone t (List.mem_reverse.mp ht)
  rw [ContentType.fromString, if_neg hne, hfind]
  rfl

/-! ### One look-up -/

theorem filled_insertMany :
    Filled ((∅ : TypeTable).insertMany (ContentType.types.map fun t => (t.toString, t))) := by
  have hdistinct : (ContentType.types.map fun t => (t.toString, t)).Pairwise
      fun a b => ¬ compare a.1 b.1 = .eq := by
    apply distinct_of_nodup
    rw [List.map_map]
    exact (List.nodup_cons.mp nodup_names).2
  have hnames : ∀ t ∈ ContentType.types, ((∅ : TypeTable).insertMany
      (ContentType.types.map fun t => (t.toString, t)))[t.toString]? = some t := by
    intro t ht
    apply Std.ExtTreeMap.getElem?_insertMany_list_of_mem Std.ReflCmp.compare_self hdistinct
    exact List.mem_map.mpr ⟨t, ht, rfl⟩
  refine ⟨hnames, ?_⟩
  intro name t hentry
  by_cases hname : ∃ u ∈ ContentType.types, u.toString = name
  · obtain ⟨u, hu, rfl⟩ := hname
    rw [hnames u hu] at hentry
    rw [fromString_toString hu]
    exact (Option.some.inj hentry).symm
  · have habsent : ((ContentType.types.map fun t => (t.toString, t)).map Prod.fst).contains name = false := by
      simpa using hname
    rw [Std.ExtTreeMap.getElem?_insertMany_list_of_contains_eq_false habsent] at hentry
    simp at hentry

theorem Filled.ne_empty {types : TypeTable} (h : Filled types) : types ≠ ∅ := by
  intro hempty
  have hall := h.names .all (by decide)
  rw [hempty] at hall
  simp at hall

theorem Filled.insert {types : TypeTable} (h : Filled types) {name : Str} (hne : name ≠ [])
    (hnone : types[name]? = none) :
    ContentType.fromString name = .applicationAtomXml ∧ Filled (types.insert name .applicationAtomXml) := by
  have hother : ∀ t ∈ ContentType.types, t.toString ≠ name := by
    rintro t ht rfl
    rw [h.names t ht] at hnone
    exact nomatch hnone
  have hfirst := fromString_of_not_name hne hother
  refine ⟨hfirst, ⟨?_, ?_⟩⟩
  · intro t ht
    rw [Std.ExtTreeMap.getElem?_insert, if_neg]
    · exact h.names t ht
    · exact fun heq => hother t ht (Std.LawfulEqCmp.compare_eq_iff_eq.mp heq).symm
  · intro other t hentry
    rw [Std.ExtTreeMap.getElem?_insert] at hentry
    split at hentry
    · rename_i heq
      obtain rfl := Std.LawfulEqCmp.compare_eq_iff_eq.mp heq
      exact (Option.some.inj hentry).symm.trans hfirst.symm
    · exact h.entries other t hentry

/-- **A look-up in a valid table** returns what a look-up without a table does, and leaves a valid table. -/
theorem fromString_spec {types : TypeTable} (hvalid : Valid types) (type : Str) :
    (fromString types type).1 = ContentType.fromString type ∧ Valid (fromString types type).2 := by
  by_cases hempty : type = []
  · rw [fromString, if_pos hempty, ContentType.fromString, if_pos hempty]
    exact ⟨rfl, hvalid⟩
  have hfilled : Filled (if types.isEmpty then
      types.insertMany (ContentType.types.map fun t => (t.toString, t)) else types) := by
    rcases hvalid with rfl | hfilled
    · simpa using filled_insertMany
    · have hne : types.isEmpty = false := Std.ExtTreeMap.isEmpty_eq_false_iff.mpr hfilled.ne_empty
      rw [hne]
      exact hfilled
  simp only [fromString, if_neg hempty]
  generalize (if types.isEmpty then
      types.insertMany (ContentType.types.map fun t => (t.toString, t)) else types) = filled at hfilled ⊢
  cases hentry : filled[type]? with
  | some t => exact ⟨hfilled.entries type t hentry, .inr hfilled⟩
  | none =>
      obtain ⟨hfirst, hinsert⟩ := hfilled.insert hempty hentry
      exact ⟨hfirst.symm, .inr hinsert⟩

/-! ### Histories -/

/-- **Every history of calls** is answered call by call as without a table, and leaves a valid table. -/
theorem run_spec (history : List Str) :
    (Machine.run fromString ∅ history).1 = history.map ContentType.fromString ∧
      Valid (afterCalls history) := by
  have hstep : ∀ (types : TypeTable) (type : Str), Valid types →
      (fromString types type).1 = ContentType.fromString type ∧ Valid (fromString types type).2 :=
    fun _ type hvalid => fromString_spec hvalid type
  have hempty : Valid ∅ := .inl rfl
  exact Machine.run_of_invariant hstep hempty history

theorem fromString_afterCalls (history : List Str) (type : Str) :
    (fromString (afterCalls history) type).1 = ContentType.fromString type :=
  (fromString_spec (run_spec history).2 type).1

/-- **A string is looked up exactly where it names a type**, whatever was looked up before, and further calls
do not change what is returned for it. -/
theorem lookupExact_iff (history more : List Str) {type : Str} (hne : type ≠ []) :
    (LookupExact (afterCalls history) type ↔ ∃ t ∈ ContentType.types, t.toString = type) ∧
      (fromString (afterCalls (history ++ more)) type).1 = (fromString (afterCalls history) type).1 := by
  refine ⟨?_, by rw [fromString_afterCalls, fromString_afterCalls]⟩
  simp only [LookupExact, fromString_afterCalls]
  constructor
  · intro h
    by_contra hname
    have hother : ∀ t ∈ ContentType.types, t.toString ≠ type := fun t ht heq => hname ⟨t, ht, heq⟩
    have hconcrete : ContentType.applicationAtomXml.IsConcrete := by decide
    have hfirst := (h .applicationAtomXml hconcrete).mp (fromString_of_not_name hne hother)
    exact hother .applicationAtomXml (mem_types hconcrete) hfirst.symm
  · rintro ⟨u, hu, rfl⟩ t ht
    rw [fromString_toString hu]
    constructor
    · intro heq
      rw [heq]
    · intro heq
      exact toString_injOn hu (mem_types ht) heq

theorem lookupExact_json :
    LookupExact (afterCalls [lit "foo/bar"]) (lit "application/json") := by
  have hne : lit "application/json" ≠ [] := by decide
  exact (lookupExact_iff [lit "foo/bar"] [] hne).1.mpr ⟨.applicationJson, by decide, rfl⟩

/-- `foo/bar` is taken for the first type. -/
theorem not_forall_lookupExact :
    ¬ ∀ (history : List Str) (type : Str), type ≠ [] → LookupExact (afterCalls history) type := by
  intro h
  have hconcrete : ContentType.applicationAtomXml.IsConcrete := by decide
  have hexact := h [] (lit "foo/bar") (by decide) .applicationAtomXml hconcrete
  rw [fromString_afterCalls] at hexact
  exact absurd (hexact.mp (by decide +kernel)) (by decide)

end TypeTable

end Rikitiki
