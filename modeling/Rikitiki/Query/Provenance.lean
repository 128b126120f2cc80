import Rikitiki.Query.Laws

/-!
# Where a value comes from

A repeated key is appended to. To say what is glued together, the scanner is run on a text whose characters
carry the number of their segment: forgetting the numbers gives what `FromQueryString` stores
(`erase_traced`), and the numbers tell which segments a value is made of.
-/

namespace Rikitiki

open Param (Named Flagged bound stored)
open QueryStringCollection (fromQueryString)

/-- A byte and the number of the segment it is in. -/
abbrev Traced := Byte × Nat

def number (n : Nat) : Str → List Traced
  | [] => []
  | b :: text => (b, n) :: number (if b = ampersandSign then n + 1 else n) text

def tracedChar (c : Traced) : WChar := c.1.toUInt32

/-- What a text stores in an empty collection, with the segments the characters come from. -/
def traced (text : Str) : Collection Traced := scanQuery tracedChar id ∅ (number 0 text)

def segments (text : Str) : List Str := text.splitOn ampersandSign

abbrev parameterOf (segment : Str) : Param Str Byte := parameter UInt8.toUInt32 id segment

/-- Each value that is stored under a key is the value part of one segment with that key, character by
character. -/
def Unglued (utf : Utf) (text : Str) : Prop :=
  ∀ key value, (fromQueryString utf ∅ text)[key]? = some value →
    ∃ n segment, (segments text)[n]? = some segment ∧ (parameterOf segment).name = key ∧
      (parameterOf segment).value = value ∧ (traced text)[key]? = some (value.map fun b => (b, n))

/-! ### The numbered text -/

theorem map_fst_number (n : Nat) (text : Str) : (number n text).map Prod.fst = text := by
  induction text generalizing n with
  | nil => rfl
  | cons b text ih => rw [number, List.map_cons, ih]

theorem tracedChar_eq_ampersand (b : Byte) (n : Nat) :
    decide (tracedChar (b, n) = ampersand) = (b == ampersandSign) := by
  have h : tracedChar (b, n) = ampersand ↔ b = ampersandSign :=
    UInt8.toUInt32_inj (b := ampersandSign)
  rw [Bool.eq_iff_iff]
  simp [h]

theorem splitOnP_number (n : Nat) (text : Str) :
    (number n text).splitOnP (fun c => tracedChar c = ampersand)
      = ((segments text).zipIdx n).map fun (segment, i) => segment.map fun b => (b, i) := by
  induction text generalizing n with
  | nil => rfl
  | cons b text ih =>
      obtain ⟨segment, rest, hsegments⟩ := List.exists_cons_of_ne_nil (List.splitOn_ne_nil ampersandSign text)
      rw [number, List.splitOnP_cons_eq_if_modifyHead, tracedChar_eq_ampersand, segments,
        List.splitOn_cons_eq_if_modifyHead, ih, segments, hsegments]
      by_cases hb : b = ampersandSign
      · simp [hb, List.zipIdx_cons]
      · simp [hb, List.zipIdx_cons]

theorem parameter_map {γ δ β : Type} (char : γ → WChar) (keep : γ → β) (f : δ → γ) (segment : List δ) :
    parameter char keep (segment.map f) = parameter (char ∘ f) (keep ∘ f) segment := by
  rcases free_or_first (char ∘ f) equals segment with hfree | ⟨name, c, value, rfl, hfree, hc⟩
  · rw [parameter_flag (by simpa using hfree), parameter_flag hfree, List.map_map]
    rfl
  · have hc' : char (f c) = equals := hc
    rw [List.map_append, List.map_cons, parameter_binding (by simpa using hfree) hc',
      parameter_binding hfree hc, List.map_map, List.map_map]
    rfl

theorem parameter_keep {γ β β' : Type} (char : γ → WChar) (keep : γ → β) (f : β → β') (segment : List γ) :
    parameter char (f ∘ keep) segment = (parameter char keep segment).map f := by
  rcases free_or_first char equals segment with hfree | ⟨name, c, value, rfl, hfree, hc⟩
  · rw [parameter_flag hfree, parameter_flag hfree, Param.map]
  · rw [parameter_binding hfree hc, parameter_binding hfree hc, Param.map, List.map_map]

def tracedParams (text : Str) : List (Param Str Traced) := parameters tracedChar id (number 0 text)

theorem tracedParams_eq (text : Str) : tracedParams text
    = (segments text).zipIdx.map fun (segment, n) => (parameterOf segment).map fun b => (b, n) := by
  rw [tracedParams, parameters, splitOnP_number, List.map_map]
  apply List.map_congr_left
  rintro ⟨segment, n⟩ -
  simp only [Function.comp_apply]
  rw [parameter_map]
  exact parameter_keep UInt8.toUInt32 id (fun b => (b, n)) segment

theorem settled_map {β β' : Type} (f : β → β') (params : List (Param Str β)) :
    settled (params.map (Param.map f)) = (settled params).map (Param.map f) := by
  rcases List.eq_nil_or_concat' params with rfl | ⟨init, last, rfl⟩
  · rfl
  · rw [List.map_append, List.map_singleton, settled_concat, settled_concat, List.map_append]
    cases last <;> rfl

theorem map_tracedParams (text : Str) : (tracedParams text).map (Param.map Prod.fst) = parametersOf text := by
  have hforget : ∀ (segment : Str) (n : Nat),
      ((parameterOf segment).map fun b => (b, n)).map Prod.fst = parameterOf segment := by
    intro segment n
    cases hsegment : parameterOf segment with
    | flag name => rfl
    | binding name value => simp [Param.map, Function.comp_def]
  have hsplit : (fun b : Byte => decide (b.toUInt32 = ampersand)) = (· == ampersandSign) := by
    funext b
    exact tracedChar_eq_ampersand b 0
  rw [tracedParams_eq, List.map_map, parametersOf, parameters, hsplit, ← List.splitOn_eq_splitOnP, ← segments]
  conv_rhs => rw [← List.zipIdx_map_fst 0 (segments text), List.map_map]
  apply List.map_congr_left
  rintro ⟨segment, n⟩ -
  exact hforget segment n

def tracedStored (text : Str) : List (Param Str Traced) := settled (tracedParams text)

theorem map_tracedStored (text : Str) : (tracedStored text).map (Param.map Prod.fst) = storedBy text := by
  rw [tracedStored, ← settled_map, map_tracedParams]

theorem getElem?_traced {text : Str} (htext : Ascii text) (key : Str) :
    (traced text)[key]? = stored key none (tracedStored text) := by
  have hchars : ∀ c ∈ number 0 text, tracedChar c ≠ 0 := by
    intro c hc
    have hmem : c.1 ∈ text := by
      rw [← map_fst_number 0 text]
      exact List.mem_map_of_mem hc
    intro hzero
    exact (htext c.1 hmem).1 (UInt8.toUInt32_inj.mp hzero)
  rw [traced, scanQuery_eq ∅ hchars, Collection.getElem?_storeAll, Std.ExtTreeMap.getElem?_empty]
  rfl

theorem getElem?_fromQueryString (utf : Utf) {text : Str} (htext : Ascii text) (key : Str) :
    (fromQueryString utf ∅ text)[key]? = stored key none (storedBy text) := by
  rw [QueryStringCollection.fromQueryString_eq utf ∅ htext, Collection.getElem?_storeAll,
    Std.ExtTreeMap.getElem?_empty]

theorem stored_none {β : Type} (key : Str) (params : List (Param Str β)) :
    stored key none params = if Named key params then some (bound key params).flatten else none := by
  rw [Param.stored_eq, show Param.base key none params = [] by simp [Param.base], List.nil_append]

/-- **Forgetting the numbers gives what the code stores.** -/
theorem erase_traced (utf : Utf) {text : Str} (htext : Ascii text) (key : Str) :
    ((traced text)[key]?).map (List.map Prod.fst) = (fromQueryString utf ∅ text)[key]? := by
  rw [getElem?_traced htext, getElem?_fromQueryString utf htext, ← map_tracedStored, stored_none, stored_none,
    Param.bound_map]
  by_cases hnamed : Named key (tracedStored text)
  · rw [if_pos hnamed, if_pos ((Param.named_map Prod.fst).mpr hnamed), Option.map_some, List.map_flatten]
  · rw [if_neg hnamed, if_neg fun h => hnamed ((Param.named_map Prod.fst).mp h), Option.map_none]

/-! ### Glued values -/

theorem exists_segment {text : Str} {param : Param Str Traced} (h : param ∈ tracedStored text) :
    ∃ n segment, (segments text)[n]? = some segment ∧ param = (parameterOf segment).map fun b => (b, n) := by
  have hmem : param ∈ tracedParams text := (settled_sublist _).subset h
  rw [tracedParams_eq] at hmem
  obtain ⟨⟨segment, n⟩, hsegment, rfl⟩ := List.mem_map.mp hmem
  exact ⟨n, segment, List.mem_zipIdx_iff_getElem?.mp hsegment, rfl⟩

theorem bound_pairwise (key : Str) (text : Str) :
    (bound key (tracedStored text)).Pairwise fun v w => ∀ c ∈ v, ∀ d ∈ w, c.2 ≠ d.2 := by
  have hnumbers : (segments text).zipIdx.Pairwise fun a b => a.2 ≠ b.2 := by
    apply List.pairwise_map.mp
    rw [List.zipIdx_map_snd]
    exact List.nodup_range'
  have hparams : ((tracedParams text).map Param.value).Pairwise fun v w => ∀ c ∈ v, ∀ d ∈ w, c.2 ≠ d.2 := by
    rw [tracedParams_eq, List.map_map]
    apply hnumbers.map
    rintro ⟨segment, n⟩ ⟨other, m⟩ hne c hc d hd
    simp only [Function.comp_apply, Param.value_map] at hc hd
    obtain ⟨_, -, rfl⟩ := List.mem_map.mp hc
    obtain ⟨_, -, rfl⟩ := List.mem_map.mp hd
    exact hne
  exact hparams.sublist ((Param.bound_sublist key _).trans ((settled_sublist _).map _))

/-- The values of a key are not glued together: behind its last flag, all but one are empty. -/
def Single (key : Str) (text : Str) : Prop :=
  (bound key (storedBy text)).Pairwise fun v w => v = [] ∨ w = []

theorem single_iff_traced (key : Str) (text : Str) :
    Single key text ↔ (bound key (tracedStored text)).Pairwise fun v w => v = [] ∨ w = [] := by
  rw [Single, ← map_tracedStored, Param.bound_map, List.pairwise_map]
  simp only [List.map_eq_nil_iff]

theorem getElem?_traced_eq {text : Str} (htext : Ascii text) {key : Str}
    (hnamed : Named key (tracedStored text)) :
    (traced text)[key]? = some (bound key (tracedStored text)).flatten := by
  rw [getElem?_traced htext, stored_none, if_pos hnamed]

theorem exists_param_of_single {key text : Str} (hnamed : Named key (tracedStored text))
    (hsingle : Single key text) :
    ∃ param ∈ tracedStored text, param.name = key ∧
      param.value = (bound key (tracedStored text)).flatten := by
  rcases Param.flatten_of_pairwise ((single_iff_traced key text).mp hsingle) with hempty | hmem
  · obtain ⟨param, hparam, hname, hvalue⟩ := Param.exists_empty hnamed hempty
    exact ⟨param, hparam, hname, hvalue.trans hempty.symm⟩
  · exact Param.exists_of_mem_bound hmem

theorem single_of_flatten {key text : Str} {value : Str} {n : Nat}
    (h : (bound key (tracedStored text)).flatten = value.map fun b => (b, n)) : Single key text := by
  rw [single_iff_traced]
  have hnumber : ∀ v ∈ bound key (tracedStored text), ∀ c ∈ v, c.2 = n := by
    intro v hv c hc
    have hmem : c ∈ value.map fun b => (b, n) := h ▸ List.mem_flatten.mpr ⟨v, hv, hc⟩
    obtain ⟨_, -, rfl⟩ := List.mem_map.mp hmem
    rfl
  apply (bound_pairwise key text).imp_of_mem
  intro v w hv hw hdifferent
  by_contra hboth
  obtain ⟨hv', hw'⟩ := not_or.mp hboth
  obtain ⟨c, hc⟩ := List.exists_mem_of_ne_nil v hv'
  obtain ⟨d, hd⟩ := List.exists_mem_of_ne_nil w hw'
  exact hdifferent c hc d hd ((hnumber v hv c hc).trans (hnumber w hw d hd).symm)

theorem named_of_getElem? (utf : Utf) {text : Str} (htext : Ascii text) {key value : Str}
    (h : (fromQueryString utf ∅ text)[key]? = some value) :
    Named key (tracedStored text) ∧ (bound key (tracedStored text)).flatten.map Prod.fst = value := by
  rw [← erase_traced utf htext, getElem?_traced htext, stored_none] at h
  by_cases hnamed : Named key (tracedStored text)
  · rw [if_pos hnamed] at h
    exact ⟨hnamed, Option.some.inj h⟩
  · rw [if_neg hnamed] at h
    cases h

/-- **When nothing is glued together**: of two values a text binds to a key behind the last flag of the
key that it stores, one is empty. -/
theorem unglued_iff (utf : Utf) (text : Str) (htext : Ascii text) :
    Unglued utf text ↔ ∀ key, Single key text := by
  constructor
  · intro h key
    by_cases hnamed : Named key (tracedStored text)
    · have htraced := getElem?_traced_eq htext hnamed
      have hstored := erase_traced utf htext key
      rw [htraced, Option.map_some] at hstored
      obtain ⟨n, segment, -, -, -, hone⟩ := h key _ hstored.symm
      exact single_of_flatten (Option.some.inj (htraced.symm.trans hone))
    · rw [single_iff_traced, Param.bound_of_not_named hnamed]
      exact .nil
  · intro h key value hvalue
    obtain ⟨hnamed, rfl⟩ := named_of_getElem? utf htext hvalue
    obtain ⟨param, hparam, hname, hflatten⟩ := exists_param_of_single hnamed (h key)
    obtain ⟨n, segment, hsegment, rfl⟩ := exists_segment hparam
    rw [Param.value_map] at hflatten
    have hvalue : (parameterOf segment).value = (bound key (tracedStored text)).flatten.map Prod.fst := by
      rw [← hflatten, List.map_map]
      exact (List.map_id _).symm
    refine ⟨n, segment, hsegment, (Param.name_map _ _).symm.trans hname, hvalue, ?_⟩
    rw [getElem?_traced_eq htext hnamed, ← hvalue, hflatten]

theorem not_unglued_repeated : ¬ Unglued .widening (lit "a=1&a=2") := by
  intro h
  obtain ⟨n, -, -, -, -, hone⟩ := h (lit "a") (lit "12") (by decide +kernel)
  rw [show (traced (lit "a=1&a=2"))[lit "a"]? = some [(49, 0), (50, 1)] by decide +kernel] at hone
  have hpair : (0 = n ∧ 1 = n) := by simpa [lit] using hone
  omega

theorem unglued_empty_value : Unglued .widening (lit "a=1&a=") := by
  refine (unglued_iff .widening (lit "a=1&a=") (by decide)).2 ?_
  intro key
  have hvalues : ((storedBy (lit "a=1&a=")).map Param.value).Pairwise fun v w => v = [] ∨ w = [] := by
    decide +kernel
  exact hvalues.sublist (Param.bound_sublist key _)

end Rikitiki
