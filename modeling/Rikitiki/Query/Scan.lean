import Rikitiki.Http.Header
import Rikitiki.Library.Params

/-!
# Query strings

`FromQueryString` reads a text character by character, in one of two modes, and writes through a pointer
into the map it fills. What it does to the map is what the parameters of the text do, one after the other,
except that a flag at the end of the text is dropped: a flag is stored when an `&` ends it.
-/

namespace Rikitiki

/-- `wchar_t`. -/
abbrev WChar := UInt32

/-- A map from names to values with characters in `β`. -/
abbrev Collection (β : Type) := Std.ExtTreeMap Str (List β) compare

abbrev QueryStringCollection := Collection Byte

/-- ASCII text without NUL. -/
def Ascii (s : Str) : Prop := ∀ b ∈ s, b ≠ nul ∧ b < 128

instance decidableAsciiText (s : Str) : Decidable (Ascii s) := List.decidableBAll (fun b => b ≠ nul ∧ b < 128) s

/-- `mxcomp::utf::convert`, of which nothing is known but that it keeps ASCII. -/
structure Utf where
  convert : Str → List WChar
  convert_ascii : ∀ s, Ascii s → convert s = s.map UInt8.toUInt32

def Utf.widening : Utf where
  convert s := s.map UInt8.toUInt32
  convert_ascii _ _ := rfl

namespace Collection

variable {β : Type}

/-- `(*this)[name]`, which makes an empty entry where there is none. -/
def entry (qs : Collection β) (name : Str) : Collection β := qs.insert name (qs[name]?.getD [])

/-- `*val += c`, for a pointer to the entry of a name. -/
def append (qs : Collection β) (val : Option Str) (c : β) : Collection β :=
  match val with
  | none => qs
  | some name => qs.insert name (qs[name]?.getD [] ++ [c])

theorem append_some (qs : Collection β) (name : Str) (c : β) :
    qs.append (some name) c = qs.insert name (qs[name]?.getD [] ++ [c]) := rfl

def store (qs : Collection β) (param : Param Str β) : Collection β :=
  qs.insert param.name (param.update qs[param.name]?)

def storeAll (qs : Collection β) (params : List (Param Str β)) : Collection β := params.foldl store qs

theorem getElem?_store (qs : Collection β) (param : Param Str β) (key : Str) :
    (qs.store param)[key]? = if param.name = key then some (param.update qs[key]?) else qs[key]? := by
  rw [store, Std.ExtTreeMap.getElem?_insert]
  by_cases hname : param.name = key
  · subst hname
    simp
  · simp [hname]

theorem getElem?_storeAll (qs : Collection β) (params : List (Param Str β)) (key : Str) :
    (qs.storeAll params)[key]? = Param.stored key qs[key]? params := by
  induction params generalizing qs with
  | nil => rfl
  | cons param params ih =>
      rw [storeAll, List.foldl_cons, ← storeAll, ih, getElem?_store]
      rfl

theorem storeAll_append (qs : Collection β) (params more : List (Param Str β)) :
    qs.storeAll (params ++ more) = (qs.storeAll params).storeAll more := by
  simp [storeAll]

theorem insert_insert (qs : Collection β) (name : Str) (value other : List β) :
    (qs.insert name value).insert name other = qs.insert name other := by
  apply Std.ExtTreeMap.ext_getElem?
  intro key
  rw [Std.ExtTreeMap.getElem?_insert, Std.ExtTreeMap.getElem?_insert, Std.ExtTreeMap.getElem?_insert]
  split <;> rfl

end Collection

/-! ### The scanner -/

def equals : WChar := 61
def ampersand : WChar := 38

/-- The variables of `FromQueryString`; `val` points to the entry of a name. -/
structure QueryScan (β : Type) where
  qs : Collection β
  name : Str := []
  val : Option Str := none
  nameMode : Bool := true

section Scanner

variable {γ β : Type} (char : γ → WChar) (keep : γ → β)

namespace QueryScan

/-- The body of the loop. The source reads a `wchar_t` and keeps its `char`; the parameters leave room
for characters that carry more, which is kept in the values. -/
def step (s : QueryScan β) (c : γ) : QueryScan β :=
  if s.nameMode then
    if char c = equals then
      { s with nameMode := false, qs := s.qs.entry s.name, val := some s.name }
    else if char c = ampersand then { s with qs := s.qs.insert s.name [], name := [] }
    else { s with name := s.name ++ [(char c).toUInt8] }
  else if char c = ampersand then { s with nameMode := true, name := [] }
  else { s with qs := s.qs.append s.val (keep c) }

end QueryScan

/-- The loop, which ends at a NUL. -/
def scanQuery (qs : Collection β) (text : List γ) : Collection β :=
  ((text.takeWhile fun c => char c ≠ 0).foldl (QueryScan.step char keep) { qs }).qs

end Scanner

namespace QueryStringCollection

/-- `QueryStringCollection::FromQueryString` of a wide string -/
def fromWideQueryString (qs : QueryStringCollection) (text : List WChar) : QueryStringCollection :=
  scanQuery id UInt32.toUInt8 qs text

/-- `QueryStringCollection::FromQueryString` of a narrow string -/
def fromQueryString (utf : Utf) (qs : QueryStringCollection) (text : Str) : QueryStringCollection :=
  fromWideQueryString qs (utf.convert (cstr text))

end QueryStringCollection

/-! ### The parameters of a text -/

section Parameters

variable {γ β : Type} (char : γ → WChar) (keep : γ → β)

def parameter (segment : List γ) : Param Str β :=
  let name := segment.takeWhile fun c => char c ≠ equals
  match segment.drop name.length with
  | [] => .flag (name.map fun c => (char c).toUInt8)
  | _ :: value => .binding (name.map fun c => (char c).toUInt8) (value.map keep)

def parameters (text : List γ) : List (Param Str β) :=
  (text.splitOnP fun c => char c = ampersand).map (parameter char keep)

def settled (params : List (Param Str β)) : List (Param Str β) :=
  params.dropLast ++ params.getLast?.toList.filter Param.isBinding

end Parameters

/-! ### Refinement -/

section Refinement

variable {γ β : Type} {char : γ → WChar} {keep : γ → β}

theorem equals_ne_ampersand : equals ≠ ampersand := by decide

namespace QueryScan

/-- Between two segments, whatever `val` still points to. -/
structure Fresh (qs : Collection β) (s : QueryScan β) : Prop where
  qs : s.qs = qs
  name : s.name = []
  nameMode : s.nameMode = true

theorem fresh_new (qs : Collection β) : Fresh qs { qs } := ⟨rfl, rfl, rfl⟩

theorem foldl_name {s : QueryScan β} (hmode : s.nameMode = true) {text : List γ}
    (hfree : ∀ c ∈ text, char c ≠ equals ∧ char c ≠ ampersand) :
    text.foldl (step char keep) s = { s with name := s.name ++ text.map fun c => (char c).toUInt8 } := by
  induction text generalizing s with
  | nil => simp
  | cons c text ih =>
      obtain ⟨hc, htext⟩ := List.forall_mem_cons.mp hfree
      have hstep : step char keep s c = { s with name := s.name ++ [(char c).toUInt8] } := by
        rw [step, if_pos hmode, if_neg hc.1, if_neg hc.2]
      rw [List.foldl_cons, hstep, ih (s := { s with name := s.name ++ [(char c).toUInt8] }) hmode htext]
      simp

theorem foldl_value {s : QueryScan β} {key : Str} {qs : Collection β} {old : List β}
    (hmode : s.nameMode = false) (hval : s.val = some key) (hqs : s.qs = qs.insert key old)
    {text : List γ} (hfree : ∀ c ∈ text, char c ≠ ampersand) :
    text.foldl (step char keep) s = { s with qs := qs.insert key (old ++ text.map keep) } := by
  induction text generalizing s old with
  | nil => simp [← hqs]
  | cons c text ih =>
      obtain ⟨hc, htext⟩ := List.forall_mem_cons.mp hfree
      have hstep : step char keep s c = { s with qs := qs.insert key (old ++ [keep c]) } := by
        rw [step, if_neg (by simp [hmode]), if_neg hc, hval, Collection.append_some, hqs,
          Std.ExtTreeMap.getElem?_insert_self, Option.getD_some, Collection.insert_insert]
      rw [List.foldl_cons, hstep,
        ih (s := { s with qs := qs.insert key (old ++ [keep c]) }) hmode hval rfl htext]
      simp

end QueryScan

theorem free_or_first (char : γ → WChar) (d : WChar) (text : List γ) :
    (∀ c ∈ text, char c ≠ d) ∨
      ∃ front c rest, text = front ++ c :: rest ∧ (∀ b ∈ front, char b ≠ d) ∧ char c = d := by
  cases hfind : text.find? fun c => decide (char c = d) with
  | none => exact .inl (by simpa using hfind)
  | some c =>
      obtain ⟨hc, front, rest, htext, hfront⟩ := List.find?_eq_some_iff_append.mp hfind
      exact .inr ⟨front, c, rest, htext, by simpa using hfront, of_decide_eq_true hc⟩

theorem parameter_flag {segment : List γ} (hfree : ∀ c ∈ segment, char c ≠ equals) :
    parameter char keep segment = .flag (segment.map fun c => (char c).toUInt8) := by
  have hname : (segment.takeWhile fun c => char c ≠ equals) = segment := by
    rw [List.takeWhile_eq_self_iff]
    simpa using hfree
  simp only [parameter, hname, List.drop_length]

theorem parameter_binding {name value : List γ} {c : γ} (hfree : ∀ b ∈ name, char b ≠ equals)
    (hc : char c = equals) : parameter char keep (name ++ c :: value)
      = .binding (name.map fun b => (char b).toUInt8) (value.map keep) := by
  have hname : ((name ++ c :: value).takeWhile fun b => char b ≠ equals) = name := by
    rw [List.takeWhile_append_of_pos (by simpa using hfree), List.takeWhile_cons_of_neg (by simp [hc]),
      List.append_nil]
  simp only [parameter, hname, List.drop_left]

namespace QueryScan

/-- **One segment**: what it leaves behind at the end of the text, and behind an `&`. -/
theorem foldl_segment {s : QueryScan β} {qs : Collection β} (hs : Fresh qs s) {segment : List γ}
    (hfree : ∀ c ∈ segment, char c ≠ ampersand) :
    (segment.foldl (step char keep) s).qs
        = qs.storeAll ([parameter char keep segment].filter Param.isBinding) ∧
      ∀ c, char c = ampersand → Fresh (qs.store (parameter char keep segment))
        (step char keep (segment.foldl (step char keep) s) c) := by
  rcases free_or_first char equals segment with hname | ⟨name, e, value, rfl, hname, he⟩
  · rw [foldl_name hs.nameMode (fun c hc => ⟨hname c hc, hfree c hc⟩), parameter_flag hname, hs.name, hs.qs]
    refine ⟨rfl, ?_⟩
    intro c hc
    rw [step, if_pos hs.nameMode, if_neg (hc ▸ equals_ne_ampersand.symm), if_pos hc]
    exact ⟨rfl, rfl, hs.nameMode⟩
  · have hfront : ∀ c ∈ name, char c ≠ equals ∧ char c ≠ ampersand :=
      fun c hc => ⟨hname c hc, hfree c (by simp [hc])⟩
    have hvalue : ∀ c ∈ value, char c ≠ ampersand := fun c hc => hfree c (by simp [hc])
    have hopen : step char keep { s with name := s.name ++ name.map fun c => (char c).toUInt8 } e
        = { s with
            qs := qs.entry (name.map fun c => (char c).toUInt8)
            name := name.map fun c => (char c).toUInt8
            val := some (name.map fun c => (char c).toUInt8)
            nameMode := false } := by
      rw [step, if_pos hs.nameMode, if_pos he, hs.name, hs.qs, List.nil_append]
    rw [List.foldl_append, foldl_name hs.nameMode hfront, List.foldl_cons, hopen,
      foldl_value rfl rfl rfl hvalue, parameter_binding hname he]
    refine ⟨rfl, ?_⟩
    intro c hc
    rw [step, if_neg (by simp), if_pos hc]
    exact ⟨rfl, rfl, rfl⟩

/-! ### A whole text -/

end QueryScan

theorem parameters_single {segment : List γ} (hfree : ∀ c ∈ segment, char c ≠ ampersand) :
    parameters char keep segment = [parameter char keep segment] := by
  rw [parameters, List.splitOnP_eq_singleton (by simpa using hfree), List.map_singleton]

theorem parameters_append_cons (text more : List γ) {c : γ} (hc : char c = ampersand) :
    parameters char keep (text ++ c :: more) = parameters char keep text ++ parameters char keep more := by
  rw [parameters, List.splitOnP_append_cons _ _ (by simpa using hc), List.map_append]
  rfl

theorem parameters_ne_nil (text : List γ) : parameters char keep text ≠ [] := by
  simp [parameters, List.splitOnP_ne_nil]

theorem settled_concat (params : List (Param Str β)) (last : Param Str β) :
    settled (params ++ [last]) = params ++ [last].filter Param.isBinding := by
  simp [settled]

theorem settled_sublist (params : List (Param Str β)) : (settled params).Sublist params := by
  rcases List.eq_nil_or_concat' params with rfl | ⟨init, last, rfl⟩
  · exact .refl _
  · rw [settled_concat]
    exact List.filter_sublist.append_left init

theorem settled_append (params : List (Param Str β)) {more : List (Param Str β)} (hmore : more ≠ []) :
    settled (params ++ more) = params ++ settled more := by
  rw [settled, settled, List.dropLast_append_of_ne_nil hmore, List.getLast?_append_of_ne_nil _ hmore,
    List.append_assoc]

theorem foldl_text {s : QueryScan β} {qs : Collection β} (hs : QueryScan.Fresh qs s) (text : List γ) :
    (text.foldl (QueryScan.step char keep) s).qs
      = qs.storeAll (settled (parameters char keep text)) := by
  induction hn : text.length using Nat.strongRecOn generalizing s qs text with
  | ind n ih =>
    rcases free_or_first char ampersand text with hfree | ⟨segment, c, rest, rfl, hfree, hc⟩
    · rw [(QueryScan.foldl_segment hs hfree).1, parameters_single hfree]
      rfl
    · have hfresh : QueryScan.Fresh (qs.store (parameter char keep segment))
          (QueryScan.step char keep (segment.foldl (QueryScan.step char keep) s) c) :=
        (QueryScan.foldl_segment hs hfree).2 c hc
      have hshorter : rest.length < n := by
        rw [← hn]
        simp
        omega
      rw [List.foldl_append, List.foldl_cons, ih _ hshorter hfresh rest rfl, parameters_append_cons _ _ hc,
        parameters_single hfree, settled_append _ (parameters_ne_nil rest)]
      rfl

/-- **`FromQueryString` stores the parameters of a text**, but for a flag at its end. -/
theorem scanQuery_eq (qs : Collection β) {text : List γ} (htext : ∀ c ∈ text, char c ≠ 0) :
    scanQuery char keep qs text = qs.storeAll (settled (parameters char keep text)) := by
  have hall : (text.takeWhile fun c => char c ≠ 0) = text := by
    rw [List.takeWhile_eq_self_iff]
    simpa using htext
  rw [scanQuery, hall, foldl_text (QueryScan.fresh_new qs)]

end Refinement

/-! ### ASCII text -/

theorem scanQuery_map {γ δ β : Type} (char : γ → WChar) (keep : γ → β) (f : δ → γ) (qs : Collection β)
    (text : List δ) : scanQuery char keep qs (text.map f) = scanQuery (char ∘ f) (keep ∘ f) qs text := by
  rw [scanQuery, List.takeWhile_map, List.foldl_map]
  rfl

abbrev parametersOf (text : Str) : List (Param Str Byte) := parameters UInt8.toUInt32 id text

/-- **What a narrow string leaves behind.** -/
theorem QueryStringCollection.fromQueryString_eq (utf : Utf) (qs : QueryStringCollection) {text : Str}
    (htext : Ascii text) : fromQueryString utf qs text = qs.storeAll (settled (parametersOf text)) := by
  have hbytes : UInt32.toUInt8 ∘ UInt8.toUInt32 = id := by
    funext b
    simp
  have hnul : nul ∉ text := fun h => (htext nul h).1 rfl
  have hchars : ∀ b ∈ text, UInt8.toUInt32 b ≠ 0 := by
    intro b hb hzero
    exact (htext b hb).1 (UInt8.toUInt32_inj.mp hzero)
  rw [fromQueryString, cstr_eq_self hnul, utf.convert_ascii text htext, fromWideQueryString, scanQuery_map,
    hbytes, Function.id_comp, scanQuery_eq qs hchars]

end Rikitiki
