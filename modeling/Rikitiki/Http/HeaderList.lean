import Rikitiki.Http.Header
import Rikitiki.Library.Separated

/-!
# Header values read as lists

`HeaderCollection::Add` joins the values of a repeated header with `", "` and `GetList` divides them at the
commas. Its loop looks behind a comma for the end of the segment and stops at nothing but a character that
is no space: with spaces only it runs out of the string, or back behind the start of the segment.
-/

namespace Rikitiki

open Separated (trim)

abbrev comma : Byte := 44

def isPad (b : Byte) : Bool := b == space

/-- Where `GetList` leaves its string: `*(end - 1)` is in front of it, or `end` is in front of `buffer` and
`rikitiki::string(buffer, end)` throws. -/
inductive ListFault where
  | underrun
  | reversedRange
  deriving DecidableEq, Repr

namespace HeaderCollection

/-- The loop of `GetList`, with `before` in front of `buffer`. -/
def getListFrom (before buffer : Str) : Except ListFault (List Str) :=
  let value := buffer.takeWhile fun b => b ≠ comma
  match _hrest : buffer.dropWhile fun b => b ≠ comma with
  | [] => .ok [buffer]
  | _ :: rest =>
    let upToEnd := (before ++ value).rdropWhile isPad
    if upToEnd = [] then .error .underrun
    else if upToEnd.length < before.length then .error .reversedRange
    else
      (getListFrom (before ++ value ++ [comma] ++ rest.takeWhile isPad) (rest.dropWhile isPad)).map
        (upToEnd.drop before.length :: ·)
termination_by buffer.length
decreasing_by
  have hbuffer : (buffer.dropWhile fun b => b ≠ comma).length ≤ buffer.length :=
    (List.dropWhile_suffix _).length_le
  have hrest : (rest.dropWhile isPad).length ≤ rest.length := (List.dropWhile_suffix _).length_le
  rw [_hrest, List.length_cons] at hbuffer
  omega

/-- `HeaderCollection::GetList` -/
def getList (headers : HeaderCollection) (name : Str) : Except ListFault (List Str) :=
  match headers.get name with
  | none => .ok []
  | some csv => getListFrom [] (cstr csv)

theorem getListFrom_last (before : Str) {buffer : Str} (h : comma ∉ buffer) :
    getListFrom before buffer = .ok [buffer] := by
  have hdrop : buffer.dropWhile (fun b => b ≠ comma) = [] := by
    rw [List.dropWhile_eq_nil_iff]
    exact List.forall_decide_ne h
  rw [getListFrom]
  split
  · rfl
  · rename_i hcons
    rw [hdrop] at hcons
    cases hcons

theorem getListFrom_comma (before : Str) {value : Str} (h : comma ∉ value) (rest : Str) :
    getListFrom before (value ++ comma :: rest) =
      if (before ++ value).rdropWhile isPad = [] then .error .underrun
      else if ((before ++ value).rdropWhile isPad).length < before.length then .error .reversedRange
      else
        (getListFrom (before ++ value ++ [comma] ++ rest.takeWhile isPad) (rest.dropWhile isPad)).map
          (((before ++ value).rdropWhile isPad).drop before.length :: ·) := by
  have hall : ∀ b ∈ value, decide (b ≠ comma) = true := List.forall_decide_ne h
  have htake : (value ++ comma :: rest).takeWhile (fun b => b ≠ comma) = value := by
    rw [List.takeWhile_append_of_pos hall]
    simp
  have hdrop : (value ++ comma :: rest).dropWhile (fun b => b ≠ comma) = comma :: rest := by
    rw [List.dropWhile_append_of_forall _ hall]
    simp
  rw [getListFrom]
  split
  · rename_i hnil
    rw [hdrop] at hnil
    cases hnil
  · rename_i b tail hcons
    rw [hdrop] at hcons
    obtain ⟨rfl, rfl⟩ := List.cons.inj hcons
    rw [htake]

/-! ### What is read of each segment -/

/-- What `GetList` makes of the segments behind a comma. The spaces in front of the last one are skipped as
those of the others are, and the spaces behind it stay. -/
def laterEntries : List Str → Except ListFault (List Str)
  | [] => .ok []
  | [last] => .ok [last.dropWhile isPad]
  | s :: rest =>
    if s ≠ [] ∧ s.all isPad then .error .reversedRange else (laterEntries rest).map (trim isPad s :: ·)

/-- What `GetList` makes of the segments of a value: nothing is skipped in front of the first one. -/
def entries : List Str → Except ListFault (List Str)
  | [] => .ok []
  | [only] => .ok [only]
  | s :: rest =>
    if s.all isPad then .error .underrun else (laterEntries rest).map (s.rdropWhile isPad :: ·)

theorem laterEntries_cons_cons (s t : Str) (rest : List Str) :
    laterEntries (s :: t :: rest) = if s ≠ [] ∧ s.all isPad then .error .reversedRange
      else (laterEntries (t :: rest)).map (trim isPad s :: ·) := rfl

theorem entries_cons_cons (s t : Str) (rest : List Str) :
    entries (s :: t :: rest) = if s.all isPad then .error .underrun
      else (laterEntries (t :: rest)).map (s.rdropWhile isPad :: ·) := rfl

theorem not_isPad_comma : isPad comma = false := by decide

theorem getListFrom_later (front s : Str) {rest : List Str} (hs : ∀ t ∈ s :: rest, comma ∉ t) :
    getListFrom (front ++ [comma] ++ s.takeWhile isPad) ([comma].intercalate (s.dropWhile isPad :: rest))
      = laterEntries (s :: rest) := by
  have hdrop : comma ∉ s.dropWhile isPad := fun h =>
    hs s (by simp) ((List.dropWhile_suffix _).subset h)
  induction rest generalizing front s with
  | nil =>
      rw [List.intercalate_singleton, getListFrom_last _ hdrop]
      rfl
  | cons t rest ih =>
      obtain ⟨m, hm, hhead⟩ := Separated.exists_intercalate comma rest
      have hpad : ∀ b ∈ m.head?, isPad b = false := fun b hb => hhead b hb ▸ not_isPad_comma
      have htail := ih (front ++ [comma] ++ s.takeWhile isPad ++ s.dropWhile isPad) t
        (fun u hu => hs u (by simp [hu]))
        (fun h => hs t (by simp) ((List.dropWhile_suffix _).subset h))
      rw [Separated.intercalate_cons_cons_eq, getListFrom_comma _ hdrop, hm t,
        List.takeWhile_append_of_head t hpad, List.dropWhile_append_of_head t hpad, ← hm, htail]
      rcases List.forall_or_exists_false isPad s with hall | hexists
      · -- only spaces behind the comma: the search for the end stops at the comma
        have htake : s.takeWhile isPad = s := List.takeWhile_eq_self_iff.mpr hall
        have hnil : s.dropWhile isPad = [] := List.dropWhile_eq_nil_iff.mpr hall
        have hend : (front ++ [comma] ++ s).rdropWhile isPad = front ++ [comma] := by
          rw [List.rdropWhile_append_of_forall _ hall, List.rdropWhile_concat_neg _ _ _ (by decide)]
        rw [htake, hnil, List.append_nil, hend, laterEntries_cons_cons, if_neg (by simp)]
        by_cases hne : s = []
        · subst hne
          rw [if_neg (by simp), if_neg (by simp), List.append_nil, List.drop_length]
          rfl
        · have hpos := List.length_pos_of_ne_nil hne
          rw [if_pos (by simpa using hpos), if_pos ⟨hne, List.all_eq_true.mpr hall⟩]
      · have hend : (front ++ [comma] ++ s.takeWhile isPad ++ s.dropWhile isPad).rdropWhile isPad
            = front ++ [comma] ++ s.takeWhile isPad ++ trim isPad s :=
          List.rdropWhile_append_of_exists _ (List.exists_mem_dropWhile hexists)
        have hblank : ¬ (s ≠ [] ∧ s.all isPad = true) := by
          rintro ⟨-, hall⟩
          obtain ⟨b, hb, hpad⟩ := hexists
          rw [List.all_eq_true.mp hall b hb] at hpad
          cases hpad
        rw [hend, if_neg (by simp), if_neg (by simp), List.drop_left, laterEntries_cons_cons,
          if_neg hblank]

/-- **What `GetList` makes of a value**, segment by segment. -/
theorem getListFrom_eq {value : Str} :
    getListFrom [] value = entries (value.splitOn comma) := by
  obtain ⟨s, rest, hsplit⟩ := List.exists_cons_of_ne_nil (List.splitOn_ne_nil comma value)
  have hs : ∀ t ∈ s :: rest, comma ∉ t := fun t ht =>
    Separated.notMem_of_mem_splitOn (hsplit ▸ ht)
  have hvalue : value = [comma].intercalate (s :: rest) := by
    rw [← hsplit, List.intercalate_splitOn]
  rw [hsplit, hvalue]
  cases rest with
  | nil =>
      rw [List.intercalate_singleton, getListFrom_last _ (hs s (by simp))]
      rfl
  | cons t rest =>
      obtain ⟨m, hm, hhead⟩ := Separated.exists_intercalate comma rest
      have hpad : ∀ b ∈ m.head?, isPad b = false := fun b hb => hhead b hb ▸ not_isPad_comma
      have ht : ∀ u ∈ t :: rest, comma ∉ u := fun u hu => hs u (List.mem_cons_of_mem _ hu)
      have hlater := getListFrom_later s t ht
      rw [Separated.intercalate_cons_cons_eq, getListFrom_comma _ (hs s (by simp)), hm t,
        List.takeWhile_append_of_head t hpad, List.dropWhile_append_of_head t hpad, ← hm,
        List.nil_append, hlater, entries_cons_cons, if_neg (show ¬ _ < ([] : Str).length by simp)]
      simp [List.rdropWhile_eq_nil_iff]

theorem getList_cstr {headers : HeaderCollection} {name value : Str}
    (hstored : headers.get name = some value) :
    headers.getList name = entries ((cstr value).splitOn comma) := by
  rw [getList, hstored]
  exact getListFrom_eq

theorem getList_eq {headers : HeaderCollection} {name value : Str} (hstored : headers.get name = some value)
    (hnul : nul ∉ value) : headers.getList name = entries (value.splitOn comma) := by
  rw [getList_cstr hstored, cstr_eq_self hnul]

/-! ### Repeated headers -/

/-- Values added one after the other under one name, the first of them to a value that is not empty. -/
theorem get_addAll_behind {headers : HeaderCollection} {name current : Str} (values : List Str)
    (hget : headers.get name = some current) (hcurrent : current ≠ []) :
    (headers.addAll (values.map (Header.mk name))).get name
      = some ((lit ", ").intercalate (current :: values)) := by
  induction values generalizing headers current with
  | nil => simpa using hget
  | cons value values ih =>
      have hpos := List.length_pos_of_ne_nil hcurrent
      have hadd : (headers.add name value).get name = some (current ++ lit ", " ++ value) := by
        rw [get_add_self, hget, Option.getD_some, if_pos hpos]
      rw [List.map_cons, addAll_cons, ih hadd (by simp [hcurrent]), List.intercalate_cons_cons]
      cases values with
      | nil => simp
      | cons next values => simp [List.intercalate_cons_cons]

theorem get_addAll_values {headers : HeaderCollection} {name value : Str} (values : List Str)
    (habsent : headers.get name = none) (hvalue : value ≠ []) :
    (headers.addAll ((value :: values).map (Header.mk name))).get name
      = some ((lit ", ").intercalate (value :: values)) := by
  have hadd : (headers.add name value).get name = some value := by
    rw [get_add_self, habsent]
    rfl
  rw [List.map_cons, addAll_cons, get_addAll_behind values hadd hvalue]

/-- A value that stands in a list for itself. -/
structure ListValue (value : Str) : Prop where
  ne_nil : value ≠ []
  comma : comma ∉ value
  nul : nul ∉ value
  head : ∀ b ∈ value.head?, b ≠ space
  last : ∀ b ∈ value.getLast?, b ≠ space

theorem ListValue.isPad_head {value : Str} (h : ListValue value) : ∀ b ∈ value.head?, isPad b = false :=
  fun b hb => by simpa [isPad] using h.head b hb

theorem ListValue.isPad_last {value : Str} (h : ListValue value) : ∀ b ∈ value.getLast?, isPad b = false :=
  fun b hb => by simpa [isPad] using h.last b hb

theorem ListValue.exists_not_isPad {value : Str} (h : ListValue value) : ∃ b ∈ value, isPad b = false := by
  obtain ⟨b, tail, rfl⟩ := List.exists_cons_of_ne_nil h.ne_nil
  exact ⟨b, by simp, h.isPad_head b rfl⟩

theorem laterEntries_values {values : List Str} (h : ∀ value ∈ values, ListValue value) :
    laterEntries (values.map ([space] ++ ·)) = .ok values := by
  have hspace : ∀ b ∈ [space], isPad b = true := by simp [isPad]
  induction values with
  | nil => rfl
  | cons value values ih =>
      obtain ⟨hvalue, hvalues⟩ := List.forall_mem_cons.mp h
      cases values with
      | nil =>
          rw [List.map_singleton, laterEntries, List.dropWhile_append_of_forall _ hspace,
            List.dropWhile_of_head hvalue.isPad_head]
      | cons next values =>
          have hblank : ([space] ++ value).all isPad = false := by
            obtain ⟨b, hb, hpad⟩ := hvalue.exists_not_isPad
            exact List.all_eq_false.mpr ⟨b, by simp [hb], by simp [hpad]⟩
          rw [List.map_cons, List.map_cons, laterEntries_cons_cons, ← List.map_cons (l := values), ih hvalues,
            hblank, if_neg (by simp), Separated.trim_append_of_forall hspace,
            Separated.trim_of_ends hvalue.isPad_head hvalue.isPad_last]
          rfl

/-- **Repeated headers come back as a list**, and the other headers are as they were. -/
theorem getList_addAll {headers : HeaderCollection} {name : Str} {values : List Str} (hne : values ≠ [])
    (hvalues : ∀ value ∈ values, ListValue value) (habsent : headers.get name = none) :
    (headers.addAll (values.map (Header.mk name))).getList name = .ok values ∧
      ∀ other, other ≠ name →
        (headers.addAll (values.map (Header.mk name))).get other = headers.get other := by
  obtain ⟨value, values, rfl⟩ := List.exists_cons_of_ne_nil hne
  obtain ⟨hvalue, hlater⟩ := List.forall_mem_cons.mp hvalues
  have hstored := get_addAll_values values habsent hvalue.ne_nil
  have hnul : nul ∉ (lit ", ").intercalate (value :: values) := by
    intro h
    rcases Separated.of_mem_intercalate h with h | ⟨v, hv, h⟩
    · exact absurd h (by decide)
    · exact (hvalues v hv).nul h
  have hsplit : ((lit ", ").intercalate (value :: values)).splitOn comma = value :: values.map ([space] ++ ·) :=
    Separated.splitOn_intercalate_padded (by decide) fun v hv => (hvalues v hv).comma
  refine ⟨?_, fun other hother => get_addAll_of_ne ?_⟩
  · rw [getList_eq hstored hnul, hsplit]
    cases values with
    | nil => rfl
    | cons next values =>
        have hblank : value.all isPad = false := by
          obtain ⟨b, hb, hpad⟩ := hvalue.exists_not_isPad
          exact List.all_eq_false.mpr ⟨b, hb, by simp [hpad]⟩
        have hend : value.rdropWhile isPad = value := List.rdropWhile_of_last hvalue.isPad_last
        rw [List.map_cons, entries_cons_cons, ← List.map_cons (l := values), laterEntries_values hlater,
          hblank, if_neg (by simp), hend]
        rfl
  · intro field hfield
    obtain ⟨v, -, rfl⟩ := List.mem_map.mp hfield
    exact hother.symm

theorem getList_addAll_letters :
    (addAll ∅ ([lit "a", lit "b", lit "c"].map (Header.mk (lit "A")))).getList (lit "A")
        = .ok [lit "a", lit "b", lit "c"] ∧
      ∀ other, other ≠ lit "A" →
        (addAll ∅ ([lit "a", lit "b", lit "c"].map (Header.mk (lit "A")))).get other
          = HeaderCollection.get ∅ other := by
  refine getList_addAll (by simp) ?_ (by simp [get])
  simp only [List.forall_mem_cons, List.not_mem_nil, false_imp_iff, implies_true, and_true]
  exact ⟨⟨by decide, by decide, by decide, by decide, by decide⟩,
    ⟨by decide, by decide, by decide, by decide, by decide⟩,
    ⟨by decide, by decide, by decide, by decide, by decide⟩⟩

/-! ### Which values are read exactly -/

/-- The segments of a value that `GetList` trims exactly: the first has no spaces in front and is not empty
before a comma, no segment between two commas is spaces only, and behind the last comma there are spaces only
or none at the end. -/
structure Tidy (segments : List Str) : Prop where
  first : ∀ s ∈ segments.head?, (∀ b ∈ s.head?, b ≠ space) ∧ (1 < segments.length → s ≠ [])
  middle : ∀ s ∈ segments.tail.dropLast, s = [] ∨ ∃ b ∈ s, b ≠ space
  last : ∀ s ∈ segments.getLast?,
    (1 < segments.length ∧ ∀ b ∈ s, b = space) ∨ ∀ b ∈ s.getLast?, b ≠ space

theorem isPad_iff {b : Byte} : isPad b = true ↔ b = space := by simp [isPad]

theorem isPad_eq_false {b : Byte} : isPad b = false ↔ b ≠ space := by simp [isPad]

theorem map_eq_ok_cons {ε α : Type*} {result : Except ε (List α)} {a b : α} {l : List α} :
    result.map (a :: ·) = .ok (b :: l) ↔ a = b ∧ result = .ok l := by
  cases result <;> simp [Except.map]

theorem laterEntries_eq_trimmed {segments : List Str} :
    laterEntries segments = .ok (segments.map (trim isPad)) ↔
      (∀ s ∈ segments.dropLast, s = [] ∨ ∃ b ∈ s, b ≠ space) ∧
        ∀ s ∈ segments.getLast?, s.dropWhile isPad = trim isPad s := by
  induction segments with
  | nil => simp [laterEntries]
  | cons s rest ih =>
      cases rest with
      | nil => simp [laterEntries]
      | cons t rest =>
          have hblank : (s ≠ [] ∧ s.all isPad = true) ↔ ¬ (s = [] ∨ ∃ b ∈ s, b ≠ space) := by
            simp [isPad_iff]
          rw [laterEntries_cons_cons, List.map_cons, List.dropLast_cons_cons, List.forall_mem_cons,
            List.getLast?_cons_cons]
          by_cases hs : s = [] ∨ ∃ b ∈ s, b ≠ space
          · rw [if_neg fun h => hblank.mp h hs, map_eq_ok_cons, ih]
            simp [hs]
          · rw [if_pos (hblank.mpr hs)]
            simp [hs]

theorem entries_eq_trimmed {segments : List Str} (hne : segments ≠ []) :
    entries segments = .ok (segments.map (trim isPad)) ↔ Tidy segments := by
  obtain ⟨s, rest, rfl⟩ := List.exists_cons_of_ne_nil hne
  cases rest with
  | nil =>
      rw [List.map_singleton, entries, Except.ok.injEq, List.singleton_inj, Separated.trim_eq_self_iff]
      simp only [isPad_eq_false]
      exact ⟨fun h => ⟨by simpa using h.1, by simp, by simpa using h.2⟩,
        fun h => ⟨(h.first s rfl).1, by simpa using h.last s rfl⟩⟩
  | cons t rest =>
      rw [entries_cons_cons, List.map_cons]
      by_cases hall : s.all isPad = true
      · rw [if_pos hall]
        refine ⟨fun h => (by cases h), fun h => ?_⟩
        obtain ⟨hhead, hnonempty⟩ := h.first s rfl
        obtain ⟨b, s, rfl⟩ := List.exists_cons_of_ne_nil (hnonempty (by simp))
        exact absurd (isPad_iff.mp (List.all_eq_true.mp hall b (by simp))) (hhead b rfl)
      · have hexists : ∃ b ∈ s, isPad b = false := by simpa using hall
        have hs : s ≠ [] := by
          obtain ⟨b, hb, -⟩ := hexists
          exact List.ne_nil_of_mem hb
        rw [if_neg hall, map_eq_ok_cons, laterEntries_eq_trimmed, Separated.trim_eq_rdropWhile_iff hexists]
        simp only [Separated.trim_eq_dropWhile_iff, isPad_iff, isPad_eq_false]
        constructor
        · rintro ⟨hhead, hmiddle, hlast⟩
          exact ⟨by simpa [hs] using hhead, by simpa using hmiddle, fun u hu => (hlast u (by simpa using hu)).imp
            (fun hspaces => ⟨by simp, hspaces⟩) id⟩
        · intro h
          exact ⟨(h.first s rfl).1, by simpa using h.middle, fun u hu => (h.last u (by simpa using hu)).imp
            (fun hspaces => hspaces.2) id⟩

/-- **`GetList` is exact for the tidy values** and for no others: for these it neither leaves the string nor
throws, and returns every segment without the spaces around it. -/
theorem getList_exact_iff {headers : HeaderCollection} {name value : Str}
    (hstored : headers.get name = some value) (hnul : nul ∉ value) :
    headers.getList name = .ok ((value.splitOn comma).map (trim isPad)) ↔ Tidy (value.splitOn comma) := by
  rw [getList_eq hstored hnul, entries_eq_trimmed (List.splitOn_ne_nil comma value)]

theorem get_add_empty (name value : Str) : (add ∅ name value).get name = some value := by
  rw [get_add_self, get, Std.ExtTreeMap.getElem?_empty]
  rfl

theorem getList_exact_spaces :
    (add ∅ (lit "A") (lit "a ,, b")).getList (lit "A") = .ok [lit "a", [], lit "b"] := by
  have hsplit : (lit "a ,, b").splitOn comma = [lit "a ", [], lit " b"] := by decide
  have hexact := getList_exact_iff (get_add_empty (lit "A") (lit "a ,, b")) (by decide)
  rw [hsplit] at hexact
  exact hexact.mpr ⟨by decide, by decide, by decide⟩

theorem not_forall_getList_exact :
    ¬ ∀ (headers : HeaderCollection) (name value : Str), headers.get name = some value → nul ∉ value →
      headers.getList name = .ok ((value.splitOn comma).map (trim isPad)) := by
  intro h
  have hget : (add ∅ (lit "A") [comma]).get (lit "A") = some [comma] := get_add_empty _ _
  have hexact := h _ _ _ hget (by decide)
  rw [getList_eq hget (by decide)] at hexact
  revert hexact
  decide

end HeaderCollection

end Rikitiki
