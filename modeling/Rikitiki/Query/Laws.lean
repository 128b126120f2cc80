import Rikitiki.Query.Scan

/-!
# Laws of query strings

Pairs with different keys are read back as they were written. Reading a text in two parts at an `&` is the
same as reading it in one, unless the first part ends in a flag and the entry that flag would have reset is
neither blank nor reset later.
-/

namespace Rikitiki

open Param (Named Flagged Blank stored)
open QueryStringCollection (fromQueryString)

abbrev equalsSign : Byte := 61
abbrev ampersandSign : Byte := 38

theorem toUInt32_ne {b c : Byte} (h : b ≠ c) : b.toUInt32 ≠ c.toUInt32 :=
  fun heq => h (UInt8.toUInt32_inj.mp heq)

theorem parametersOf_append_cons (text more : Str) :
    parametersOf (text ++ ampersandSign :: more) = parametersOf text ++ parametersOf more :=
  parameters_append_cons text more (c := ampersandSign) rfl

/-! ### Pairs -/

def pairText (pair : Str × Str) : Str := pair.1 ++ equalsSign :: pair.2

def queryText : List (Str × Str) → Str
  | [] => []
  | [pair] => pairText pair
  | pair :: pairs => pairText pair ++ ampersandSign :: queryText pairs

/-- The key of a pair ends at the first `=`, and its value at the first `&`. -/
structure Delimited (pair : Str × Str) : Prop where
  key_equals : equalsSign ∉ pair.1
  key_ampersand : ampersandSign ∉ pair.1
  value_ampersand : ampersandSign ∉ pair.2

/-- Pairs a query string can hold. -/
structure Writable (pairs : List (Str × Str)) : Prop where
  nonempty : pairs ≠ []
  distinct : (pairs.map Prod.fst).Nodup
  ascii : ∀ pair ∈ pairs, Ascii pair.1 ∧ Ascii pair.2
  delimited : ∀ pair ∈ pairs, Delimited pair

def bindings (pairs : List (Str × Str)) : List (Param Str Byte) :=
  pairs.map fun pair => .binding pair.1 pair.2

theorem parametersOf_pairText {pair : Str × Str} (h : Delimited pair) :
    parametersOf (pairText pair) = [.binding pair.1 pair.2] := by
  have hname : ∀ b ∈ pair.1, b.toUInt32 ≠ equals := fun b hb =>
    toUInt32_ne (c := equalsSign) fun heq => h.key_equals (heq ▸ hb)
  have hfree : ∀ b ∈ pairText pair, b.toUInt32 ≠ ampersand := by
    intro b hb
    apply toUInt32_ne (c := ampersandSign)
    rintro rfl
    rcases List.mem_append.mp hb with hkey | htail
    · exact h.key_ampersand hkey
    · rcases List.mem_cons.mp htail with hequals | hvalue
      · exact absurd hequals (by decide)
      · exact h.value_ampersand hvalue
  rw [parametersOf, parameters_single hfree, pairText, parameter_binding hname rfl]
  simp

theorem parametersOf_queryText {pairs : List (Str × Str)} (hpairs : pairs ≠ [])
    (h : ∀ pair ∈ pairs, Delimited pair) : parametersOf (queryText pairs) = bindings pairs := by
  induction pairs with
  | nil => exact absurd rfl hpairs
  | cons pair pairs ih =>
      obtain ⟨hpair, hrest⟩ := List.forall_mem_cons.mp h
      cases pairs with
      | nil => exact parametersOf_pairText hpair
      | cons next pairs =>
          have htext : queryText (pair :: next :: pairs)
              = pairText pair ++ ampersandSign :: queryText (next :: pairs) := rfl
          rw [htext, parametersOf_append_cons, parametersOf_pairText hpair, ih (by simp) hrest]
          rfl

theorem settled_bindings (pairs : List (Str × Str)) : settled (bindings pairs) = bindings pairs := by
  rcases List.eq_nil_or_concat' pairs with rfl | ⟨init, last, rfl⟩
  · rfl
  · rw [bindings, List.map_append, List.map_singleton, settled_concat]
    rfl

theorem stored_bindings_of_absent {pairs : List (Str × Str)} {key : Str} {old : Option Str}
    (habsent : ∀ pair ∈ pairs, pair.1 ≠ key) : stored key old (bindings pairs) = old := by
  apply Param.stored_of_not_named
  rintro ⟨param, hparam, hname⟩
  obtain ⟨pair, hpair, rfl⟩ := List.mem_map.mp hparam
  exact habsent pair hpair hname

theorem stored_bindings {pairs : List (Str × Str)} (hdistinct : (pairs.map Prod.fst).Nodup)
    {pair : Str × Str} (hpair : pair ∈ pairs) : stored pair.1 none (bindings pairs) = some pair.2 := by
  induction pairs with
  | nil => cases hpair
  | cons first pairs ih =>
      obtain ⟨hfirst, hdistinct⟩ := List.nodup_cons.mp hdistinct
      have hother : ∀ pair ∈ pairs, pair.1 ≠ first.1 := fun p hp heq =>
        hfirst (heq ▸ List.mem_map_of_mem hp)
      have hcons : ∀ key, stored key none (bindings (first :: pairs))
          = stored key (if first.1 = key then some first.2 else none) (bindings pairs) := fun _ => rfl
      rw [hcons]
      rcases List.mem_cons.mp hpair with rfl | hpair
      · rw [if_pos rfl, stored_bindings_of_absent hother]
      · rw [if_neg (hother pair hpair).symm, ih hdistinct hpair]

theorem ascii_append {s t : Str} : Ascii (s ++ t) ↔ Ascii s ∧ Ascii t := by
  simp only [Ascii, List.mem_append]
  exact ⟨fun h => ⟨fun b hb => h b (.inl hb), fun b hb => h b (.inr hb)⟩,
    fun h b hb => hb.elim (h.1 b) (h.2 b)⟩

theorem ascii_cons {b : Byte} {s : Str} : Ascii (b :: s) ↔ (b ≠ nul ∧ b < 128) ∧ Ascii s :=
  List.forall_mem_cons

theorem ascii_queryText {pairs : List (Str × Str)} (h : ∀ pair ∈ pairs, Ascii pair.1 ∧ Ascii pair.2) :
    Ascii (queryText pairs) := by
  induction pairs with
  | nil => simp [queryText, Ascii]
  | cons pair pairs ih =>
      obtain ⟨⟨hkey, hvalue⟩, hrest⟩ := List.forall_mem_cons.mp h
      have hpair : Ascii (pairText pair) := ascii_append.mpr ⟨hkey, ascii_cons.mpr ⟨by decide, hvalue⟩⟩
      cases pairs with
      | nil => exact hpair
      | cons next pairs => exact ascii_append.mpr ⟨hpair, ascii_cons.mpr ⟨by decide, ih hrest⟩⟩

theorem fromQueryString_pairs (utf : Utf) (qs : QueryStringCollection) {pairs : List (Str × Str)}
    (hpairs : pairs ≠ []) (hascii : ∀ pair ∈ pairs, Ascii pair.1 ∧ Ascii pair.2)
    (hdelimited : ∀ pair ∈ pairs, Delimited pair) (trailing : Bool) :
    fromQueryString utf qs (queryText pairs ++ if trailing then [ampersandSign] else [])
      = qs.storeAll (bindings pairs) := by
  have hparams := parametersOf_queryText hpairs hdelimited
  have hascii := ascii_queryText hascii
  cases trailing with
  | false =>
      simp only [Bool.false_eq_true, if_false, List.append_nil]
      rw [QueryStringCollection.fromQueryString_eq utf qs hascii, hparams, settled_bindings]
  | true =>
      have hflag : parametersOf [] = [.flag []] := rfl
      simp only [if_true]
      rw [QueryStringCollection.fromQueryString_eq utf qs (ascii_append.mpr ⟨hascii, by decide⟩),
        parametersOf_append_cons, hparams, hflag, settled_concat]
      exact congrArg qs.storeAll (List.append_nil _)

/-- **Pairs are read back.** The text of writable pairs, with or without a trailing `&`, adds exactly
these bindings to a collection that has none of the keys. -/
theorem fromQueryString_queryText (utf : Utf) (qs : QueryStringCollection) (pairs : List (Str × Str))
    (hpairs : Writable pairs) (hnew : ∀ pair ∈ pairs, qs[pair.1]? = none) (trailing : Bool) :
    let after := fromQueryString utf qs (queryText pairs ++ if trailing then [ampersandSign] else [])
    (∀ pair ∈ pairs, after[pair.1]? = some pair.2) ∧
      ∀ key, (∀ pair ∈ pairs, pair.1 ≠ key) → after[key]? = qs[key]? := by
  simp only [fromQueryString_pairs utf qs hpairs.nonempty hpairs.ascii hpairs.delimited,
    Collection.getElem?_storeAll]
  constructor
  · intro pair hpair
    rw [hnew pair hpair, stored_bindings hpairs.distinct hpair]
  · intro key habsent
    exact stored_bindings_of_absent habsent

def twoPairs : List (Str × Str) := [(lit "a", lit "1=2"), ([], [])]

theorem writable_twoPairs : Writable twoPairs where
  nonempty := by simp [twoPairs]
  distinct := by decide
  ascii := by decide
  delimited := List.forall_mem_cons.mpr ⟨⟨by decide, by decide, by decide⟩,
    List.forall_mem_cons.mpr ⟨⟨by decide, by decide, by decide⟩, by simp⟩⟩

theorem fromQueryString_twoPairs :
    let after := fromQueryString .widening ∅ (queryText twoPairs ++ if true then [ampersandSign] else [])
    (∀ pair ∈ twoPairs, after[pair.1]? = some pair.2) ∧
      ∀ key, (∀ pair ∈ twoPairs, pair.1 ≠ key) → after[key]? = (∅ : QueryStringCollection)[key]? :=
  fromQueryString_queryText .widening ∅ twoPairs writable_twoPairs (by simp) true

/-! ### Two parts -/

/-- Reading a text in two parts at an `&` leaves what reading it in one does. -/
def ReadsInParts (utf : Utf) (qs : QueryStringCollection) (a b : Str) : Prop :=
  fromQueryString utf qs (a ++ ampersandSign :: b) = fromQueryString utf (fromQueryString utf qs a) b

/-- What a text stores: its parameters but for a flag at its end. -/
abbrev storedBy (text : Str) : List (Param Str Byte) := settled (parametersOf text)

/-- A key that nothing but the empty value is stored under, or nothing at all if the text behind names it. -/
structure Unaffected (qs : QueryStringCollection) (earlier later : List (Param Str Byte)) (key : Str) :
    Prop where
  blank : Blank key qs[key]? earlier
  present : key ∈ qs ∨ Named key earlier ∨ Named key later

theorem storeAll_flag_iff (qs : QueryStringCollection) (earlier later : List (Param Str Byte)) (key : Str) :
    ((qs.storeAll earlier).store (.flag key)).storeAll later = (qs.storeAll earlier).storeAll later ↔
      Flagged key later ∨ Unaffected qs earlier later key := by
  have hkey : stored key (some []) later = stored key (stored key qs[key]? earlier) later ↔
      Flagged key later ∨ Unaffected qs earlier later key := by
    rw [Param.stored_empty_iff, Param.getD_stored_eq_nil, Param.isSome_stored,
      Std.ExtTreeMap.isSome_getElem?_iff_mem, or_assoc]
    exact or_congr_right ⟨fun h => ⟨h.1, h.2⟩, fun h => ⟨h.blank, h.present⟩⟩
  rw [← hkey]
  have hflag : ∀ other, (((qs.storeAll earlier).store (.flag key)).storeAll later)[other]?
      = stored other (if key = other then some [] else stored other qs[other]? earlier) later := by
    intro other
    rw [Collection.getElem?_storeAll, Collection.getElem?_store, Collection.getElem?_storeAll]
    rfl
  have hplain : ∀ other, ((qs.storeAll earlier).storeAll later)[other]?
      = stored other (stored other qs[other]? earlier) later := by
    intro other
    rw [Collection.getElem?_storeAll, Collection.getElem?_storeAll]
  constructor
  · intro h
    have hentry := congrArg (fun qs : QueryStringCollection => qs[key]?) h
    simpa only [hflag, hplain, if_true] using hentry
  · intro h
    apply Std.ExtTreeMap.ext_getElem?
    intro other
    rw [hflag, hplain]
    by_cases hother : key = other
    · subst hother
      rw [if_pos rfl, h]
    · rw [if_neg hother]

theorem fromQueryString_append (utf : Utf) (qs : QueryStringCollection) {a b : Str} (ha : Ascii a)
    (hb : Ascii b) : fromQueryString utf qs (a ++ ampersandSign :: b)
      = (qs.storeAll (parametersOf a)).storeAll (storedBy b) := by
  rw [QueryStringCollection.fromQueryString_eq utf qs (ascii_append.mpr ⟨ha, ascii_cons.mpr ⟨by decide, hb⟩⟩),
    parametersOf_append_cons, settled_append _ (parameters_ne_nil b), Collection.storeAll_append]

/-- A text may be read in two parts when the first ends in a binding, or in a flag that the second part
stores as well, or when nothing but the empty value is stored under that flag. -/
theorem readsInParts_iff (utf : Utf) (qs : QueryStringCollection) (a b : Str) (ha : Ascii a) (hb : Ascii b) :
    ReadsInParts utf qs a b ↔ ∀ key, (parametersOf a).getLast? = some (.flag key) →
      Flagged key (storedBy b) ∨ Unaffected qs (parametersOf a).dropLast (storedBy b) key := by
  rw [ReadsInParts, fromQueryString_append utf qs ha hb, QueryStringCollection.fromQueryString_eq utf qs ha,
    QueryStringCollection.fromQueryString_eq utf _ hb]
  obtain ⟨earlier, last, hparams⟩ := (List.eq_nil_or_concat' (parametersOf a)).resolve_left
    (parameters_ne_nil a)
  rw [hparams, settled_concat, List.getLast?_concat, List.dropLast_concat]
  cases last with
  | flag key =>
      have hlast : [Param.flag key].filter Param.isBinding = ([] : List (Param Str Byte)) := rfl
      rw [hlast, List.append_nil, Collection.storeAll_append]
      exact (storeAll_flag_iff qs earlier (storedBy b) key).trans (by simp)
  | binding key value =>
      have hlast : [Param.binding key value].filter Param.isBinding = [.binding key value] := rfl
      rw [hlast]
      simp

/-- A flag at the end of a text is not stored, so its value is what was stored before. -/
theorem recordsFlag_iff (utf : Utf) (qs : QueryStringCollection) {a : Str} (ha : Ascii a) {key : Str}
    (hlast : (parametersOf a).getLast? = some (.flag key)) :
    (fromQueryString utf qs a)[key]? = some [] ↔ Unaffected qs (parametersOf a).dropLast [] key := by
  obtain ⟨earlier, last, hparams⟩ := (List.eq_nil_or_concat' (parametersOf a)).resolve_left
    (parameters_ne_nil a)
  rw [hparams, List.getLast?_concat, Option.some.injEq] at hlast
  subst hlast
  have hsettled : settled (earlier ++ [Param.flag key]) = earlier := by
    rw [settled_concat]
    exact List.append_nil earlier
  have hempty : ∀ value : Option Str, value = some [] ↔ value.getD [] = [] ∧ value.isSome = true := by
    intro value
    cases value <;> simp
  rw [QueryStringCollection.fromQueryString_eq utf qs ha, hparams, hsettled, List.dropLast_concat,
    Collection.getElem?_storeAll, hempty, Param.getD_stored_eq_nil, Param.isSome_stored,
    Std.ExtTreeMap.isSome_getElem?_iff_mem]
  constructor
  · rintro ⟨hblank, hpresent⟩
    exact ⟨hblank, hpresent.imp_right .inl⟩
  · rintro ⟨hblank, hpresent⟩
    exact ⟨hblank, hpresent.imp_right fun h => h.resolve_right (by simp [Named])⟩

/-- **When `&` divides a text**, and when a flag at the end of one is recorded: what decides both is what
has been stored under that flag before. -/
theorem dividesAtAmpersand_iff (utf : Utf) (qs : QueryStringCollection) (a b : Str) (ha : Ascii a)
    (hb : Ascii b) :
    (ReadsInParts utf qs a b ↔ ∀ key, (parametersOf a).getLast? = some (.flag key) →
      Flagged key (storedBy b) ∨ Unaffected qs (parametersOf a).dropLast (storedBy b) key) ∧
    ∀ key, (parametersOf a).getLast? = some (.flag key) →
      ((fromQueryString utf qs a)[key]? = some [] ↔ Unaffected qs (parametersOf a).dropLast [] key) :=
  ⟨readsInParts_iff utf qs a b ha hb, fun _ hlast => recordsFlag_iff utf qs ha hlast⟩

theorem dividesAtAmpersand_flag :
    ReadsInParts .widening ∅ (lit "x=&x") (lit "y=2") ∧
      (fromQueryString .widening ∅ (lit "x=&x"))[lit "x"]? = some [] := by
  have hparams : parametersOf (lit "x=&x") = [.binding (lit "x") [], .flag (lit "x")] := by decide +kernel
  have hunaffected : ∀ later, Unaffected ∅ (parametersOf (lit "x=&x")).dropLast later (lit "x") := by
    intro later
    rw [hparams]
    refine ⟨⟨?_, ?_⟩, .inr (.inl ⟨.binding (lit "x") [], by simp, rfl⟩)⟩
    · decide +kernel
    · decide +kernel
  obtain ⟨hdivides, hflag⟩ := dividesAtAmpersand_iff .widening ∅ (lit "x=&x") (lit "y=2") (by decide)
    (by decide)
  refine ⟨hdivides.mpr fun key hlast => .inr ?_, (hflag _ (by rw [hparams]; rfl)).mpr (hunaffected [])⟩
  obtain rfl : lit "x" = key := by simpa [hparams] using hlast
  exact hunaffected _

theorem not_readsInParts_flag : ¬ ReadsInParts .widening ∅ (lit "x") [] := by
  intro h
  have hentry := congrArg (fun qs : QueryStringCollection => qs[lit "x"]?) h
  exact absurd hentry (by decide +kernel)

end Rikitiki
