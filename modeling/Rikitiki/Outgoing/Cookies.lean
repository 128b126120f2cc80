import Rikitiki.Http.HeaderList
import Rikitiki.Outgoing.Backends

/-!
# Cookies in a list

Every cookie is sent in a `Set-Cookie` header of its own, `Add` joins them, and `GetList` is to divide them
again. It divides them at the commas of their attributes as well, and a NUL in an attribute ends the list.
-/

namespace Rikitiki

open HeaderCollection (entries laterEntries getList getList_eq)
open Separated (trim)

/-- The arguments of `Cookie::Cookie`. -/
structure CookieParts where
  name : Str
  value : Str
  domain : Str := []
  path : Str := lit "/"
  expires : Str := []
  secure : Bool := false
  httpOnly : Bool := false

namespace CookieParts

def cookie (c : CookieParts) : Cookie where
  name := c.name
  value := c.value ++ lit "; "
    ++ (lit "Domain=" ++ c.domain ++ lit "; ")
    ++ (if 0 < c.path.length then lit "Path=" ++ c.path ++ lit "; " else [])
    ++ (if 0 < c.expires.length then lit "Expires=" ++ c.expires ++ lit "; " else [])
    ++ (if c.secure then lit "Secure; " else [])
    ++ (if c.httpOnly then lit "HttpOnly" else [])

def pair (c : CookieParts) : Str := c.name ++ lit "=" ++ c.value

def attributes (c : CookieParts) : Str :=
  lit "; Domain=" ++ c.domain ++ lit "; "
    ++ (if 0 < c.path.length then lit "Path=" ++ c.path ++ lit "; " else [])
    ++ (if 0 < c.expires.length then lit "Expires=" ++ c.expires ++ lit "; " else [])
    ++ (if c.secure then lit "Secure; " else [])
    ++ (if c.httpOnly then lit "HttpOnly" else [])

def text (c : CookieParts) : Str := c.pair ++ c.attributes

theorem cookie_header (c : CookieParts) : c.cookie.header = ⟨lit "Set-Cookie", c.text⟩ := by
  simp [Cookie.header, cookie, text, pair, attributes, lit]

/-- The name and the value are on one line and have no comma. -/
structure Clean (c : CookieParts) : Prop where
  name : Plain c.name
  value : Plain c.value
  name_comma : comma ∉ c.name
  value_comma : comma ∉ c.value

theorem Clean.comma_notMem {c : CookieParts} (h : c.Clean) : comma ∉ c.pair := by
  simp [pair, h.name_comma, h.value_comma, lit, comma]

theorem Clean.nul_notMem {c : CookieParts} (h : c.Clean) : nul ∉ c.pair := by
  simp [pair, h.name.nul_notMem, h.value.nul_notMem, lit, nul]

theorem pair_ne_nil (c : CookieParts) : c.pair ≠ [] := by simp [pair, lit]

/-- A semicolon follows the value, whatever is cut off behind it. -/
theorem cstr_attributes (c : CookieParts) : ∃ rest, cstr c.attributes = 59 :: rest :=
  ⟨_, rfl⟩

theorem cstr_text {c : CookieParts} (h : c.Clean) : cstr c.text = c.pair ++ cstr c.attributes :=
  cstr_append h.nul_notMem c.attributes

theorem text_ne_nil (c : CookieParts) : c.text ≠ [] := by simp [text, pair, lit]

theorem cstr_intercalate {cookies : List CookieParts} (hclean : ∀ c ∈ cookies, c.Clean)
    (hnul : ∀ c ∈ cookies.dropLast, nul ∉ c.attributes) :
    cstr ((lit ", ").intercalate (cookies.map text))
      = (lit ", ").intercalate (cookies.map fun c => cstr c.text) := by
  induction cookies with
  | nil => rfl
  | cons c cookies ih =>
      cases cookies with
      | nil => simp
      | cons d cookies =>
          obtain ⟨hc, hcs⟩ := List.forall_mem_cons.mp hclean
          rw [List.dropLast_cons_cons, List.forall_mem_cons] at hnul
          have htext : nul ∉ c.text := by
            rw [text, List.mem_append, not_or]
            exact ⟨hc.nul_notMem, hnul.1⟩
          have hfront : nul ∉ c.text ++ lit ", " := by
            rw [List.mem_append, not_or]
            exact ⟨htext, by decide⟩
          have hjoin : ∀ f : CookieParts → Str, (lit ", ").intercalate ((c :: d :: cookies).map f)
              = f c ++ lit ", " ++ (lit ", ").intercalate ((d :: cookies).map f) :=
            fun f => List.intercalate_cons_cons
          rw [hjoin, hjoin, ← ih hcs hnul.2, cstr_eq_self htext, cstr_append hfront]

end CookieParts

open CookieParts (pair text attributes)

/-- Written to any collection that has no cookies, the cookies are read back as entries of their own. -/
def OneEntryEach (cookies : List CookieParts) : Prop :=
  ∀ headers : HeaderCollection, headers.get (lit "Set-Cookie") = none →
    ∃ list, (headers.addAll (cookies.map fun c => c.cookie.header)).getList (lit "Set-Cookie") = .ok list ∧
      List.Forall₂ (fun c entry => c.pair <+: entry) cookies list

theorem OResponseMemory.headers_cookies {m : OResponseMemory} (h : m.Writable) (cookies : List CookieParts) :
    (Machine.run OResponseMemory.step m (cookies.map fun c => .field (.cookie c.cookie))).2.headers
      = m.headers.addAll (cookies.map fun c => c.cookie.header) := by
  rw [(OResponseMemory.run_eq h _).2.2.1, List.foldl_map, HeaderCollection.addAll, List.foldl_map]
  rfl

def pieces (cookies : List CookieParts) : List Str :=
  (cstr ((lit ", ").intercalate (cookies.map text))).splitOn comma

/-- Pieces behind a comma begin with the cookies' names and values. -/
def LineUp : List CookieParts → List Str → Prop
  | [], [] => True
  | [c], [piece] => c.pair <+: piece.dropWhile isPad
  | c :: cookies, piece :: pieces => c.pair <+: trim isPad piece ∧ LineUp cookies pieces
  | _, _ => False

theorem laterEntries_lineUp {cookies : List CookieParts} {segments : List Str} :
    (∃ list, laterEntries segments = .ok list ∧ List.Forall₂ (fun c entry => c.pair <+: entry) cookies list) ↔
      LineUp cookies segments := by
  induction segments generalizing cookies with
  | nil => cases cookies <;> simp [laterEntries, LineUp]
  | cons piece segments ih =>
      cases segments with
      | nil =>
          cases cookies with
          | nil => simp [laterEntries, LineUp]
          | cons c cookies => cases cookies <;> simp [laterEntries, LineUp]
      | cons next segments =>
          rw [HeaderCollection.laterEntries_cons_cons]
          by_cases hblank : piece ≠ [] ∧ piece.all isPad = true
          · rw [if_pos hblank]
            have htrim : trim isPad piece = [] :=
              Separated.trim_of_forall fun b hb => List.all_eq_true.mp hblank.2 b hb
            cases cookies with
            | nil => simp [LineUp]
            | cons c cookies =>
                have hpair : ¬ c.pair <+: trim isPad piece := by
                  rw [htrim, List.prefix_nil]
                  exact c.pair_ne_nil
                simp [LineUp, hpair]
          · rw [if_neg hblank]
            cases cookies with
            | nil => cases laterEntries (next :: segments) <;> simp [Except.map, LineUp]
            | cons c cookies =>
                have hline : LineUp (c :: cookies) (piece :: next :: segments)
                    ↔ c.pair <+: trim isPad piece ∧ LineUp cookies (next :: segments) := by
                  cases cookies <;> rfl
                rw [hline, ← ih]
                cases laterEntries (next :: segments) <;> simp [Except.map]

theorem map_header (cookies : List CookieParts) :
    cookies.map (fun c => c.cookie.header) = (cookies.map text).map (Header.mk (lit "Set-Cookie")) := by
  rw [List.map_map]
  exact List.map_congr_left fun c _ => c.cookie_header

theorem exists_pieces {c : CookieParts} (hc : c.Clean) (cookies : List CookieParts) :
    ∃ rest later, pieces (c :: cookies) = (c.pair ++ 59 :: rest) :: later := by
  obtain ⟨m, hm⟩ : ∃ m, (lit ", ").intercalate ((c :: cookies).map text) = c.pair ++ 59 :: m := by
    cases cookies with
    | nil => exact ⟨c.attributes.tail, List.intercalate_singleton⟩
    | cons d cookies =>
        refine ⟨c.attributes.tail ++ (lit ", ") ++ (lit ", ").intercalate ((d :: cookies).map text), ?_⟩
        rw [List.map_cons, List.map_cons, List.intercalate_cons_cons, text, List.append_assoc,
          List.append_assoc]
        exact congrArg (c.pair ++ ·) (by simp [attributes, lit])
  have hcstr : cstr (c.pair ++ 59 :: m) = c.pair ++ 59 :: cstr m := cstr_append hc.nul_notMem (59 :: m)
  obtain ⟨s, later, hsplit⟩ := List.exists_cons_of_ne_nil (List.splitOn_ne_nil comma (cstr m))
  refine ⟨s, later, ?_⟩
  rw [pieces, hm, hcstr, Separated.splitOn_append_of_notMem hc.comma_notMem,
    List.splitOn_cons_eq_if_modifyHead, if_neg (by decide), hsplit]
  rfl

theorem oneEntryEach_iff_lineUp {c : CookieParts} (hc : c.Clean) (cookies : List CookieParts) :
    OneEntryEach (c :: cookies) ↔ LineUp cookies (pieces (c :: cookies)).tail := by
  obtain ⟨rest, later, hpieces⟩ := exists_pieces hc cookies
  have hsemicolon : ∃ b ∈ (59 :: rest : Str), isPad b = false := ⟨59, by simp, by decide⟩
  have hlist : (∃ list, entries (pieces (c :: cookies)) = .ok list ∧
      List.Forall₂ (fun c entry => c.pair <+: entry) (c :: cookies) list) ↔ LineUp cookies later := by
    rw [hpieces, ← laterEntries_lineUp]
    cases later with
    | nil => cases cookies <;> simp [entries, laterEntries]
    | cons next later =>
        have hblank : ¬ (c.pair ++ 59 :: rest).all isPad = true := by
          intro hall
          exact absurd (List.all_eq_true.mp hall 59 (by simp)) (by decide)
        rw [HeaderCollection.entries_cons_cons, if_neg hblank,
          List.rdropWhile_append_of_exists _ hsemicolon]
        cases laterEntries (next :: later) <;> simp [Except.map]
  have hget : ∀ headers : HeaderCollection, headers.get (lit "Set-Cookie") = none →
      (headers.addAll ((c :: cookies).map fun c => c.cookie.header)).getList (lit "Set-Cookie")
        = entries (pieces (c :: cookies)) := by
    intro headers habsent
    have hstored := HeaderCollection.get_addAll_values (cookies.map text) habsent c.text_ne_nil
    rw [map_header]
    exact HeaderCollection.getList_cstr hstored
  rw [hpieces, List.tail_cons, ← hlist]
  constructor
  · intro h
    have hempty : HeaderCollection.get ∅ (lit "Set-Cookie") = none := by simp [HeaderCollection.get]
    rw [← hget ∅ hempty]
    exact h ∅ hempty
  · intro h headers habsent
    rw [hget headers habsent]
    exact h

/-! ### When the cookies stay apart -/

theorem LineUp.length_eq {cookies : List CookieParts} {segments : List Str} (h : LineUp cookies segments) :
    segments.length = cookies.length := by
  fun_induction LineUp cookies segments with
  | case1 => rfl
  | case2 => rfl
  | case3 c cookies piece segments _ ih => rw [List.length_cons, List.length_cons, ih h.2]
  | case4 => exact h.elim

theorem later_iff {c : CookieParts} (hc : c.Clean) :
    (c.pair <+: trim isPad ([space] ++ cstr c.text) ↔ c.name.head? ≠ some space) ∧
      (c.pair <+: ([space] ++ cstr c.text).dropWhile isPad ↔ c.name.head? ≠ some space) := by
  have hspace : ∀ b ∈ [space], isPad b = true := by simp [isPad]
  obtain ⟨rest, hrest⟩ := c.cstr_attributes
  have htext : cstr c.text = c.pair ++ 59 :: rest := by rw [CookieParts.cstr_text hc, hrest]
  have hhead : (∀ b ∈ c.pair.head?, isPad b = false) ↔ c.name.head? ≠ some space := by
    rw [pair]
    cases c.name <;> simp [isPad, lit, space]
  have htrims : c.pair <+: trim isPad ([space] ++ cstr c.text) →
      c.pair <+: ([space] ++ cstr c.text).dropWhile isPad := fun h =>
    h.trans (List.rdropWhile_prefix isPad _)
  have hneeded : c.pair <+: ([space] ++ cstr c.text).dropWhile isPad → c.name.head? ≠ some space := by
    rintro ⟨more, hmore⟩
    rw [← hhead]
    intro b hb
    have hdrop : (([space] ++ cstr c.text).dropWhile isPad).head? = some b := by
      rw [← hmore, List.head?_append, Option.mem_def.mp hb, Option.some_or]
    have hfirst := List.head?_dropWhile_not isPad ([space] ++ cstr c.text)
    rw [hdrop] at hfirst
    simpa using hfirst
  have henough : c.name.head? ≠ some space → c.pair <+: trim isPad ([space] ++ cstr c.text) := by
    intro h
    obtain ⟨b, tail, hb⟩ := List.exists_cons_of_ne_nil c.pair_ne_nil
    have hkeep : (c.pair ++ 59 :: rest).dropWhile isPad = c.pair ++ 59 :: rest := by
      apply List.dropWhile_of_head
      rw [hb]
      simpa [hb] using hhead.mpr h
    rw [Separated.trim_append_of_forall hspace, htext, trim, hkeep,
      List.rdropWhile_append_of_exists _ ⟨59, by simp, by decide⟩]
    exact List.prefix_append _ _
  exact ⟨⟨fun h => hneeded (htrims h), henough⟩, ⟨hneeded, fun h => htrims (henough h)⟩⟩

theorem lineUp_texts {cookies : List CookieParts} (hclean : ∀ c ∈ cookies, c.Clean) :
    LineUp cookies ((cookies.map fun c => cstr c.text).map ([space] ++ ·)) ↔
      ∀ c ∈ cookies, c.name.head? ≠ some space := by
  induction cookies with
  | nil => simp [LineUp]
  | cons c cookies ih =>
      obtain ⟨hc, hcs⟩ := List.forall_mem_cons.mp hclean
      cases cookies with
      | nil => simpa [LineUp] using (later_iff hc).2
      | cons d cookies =>
          rw [List.forall_mem_cons, ← ih hcs, ← (later_iff hc).1]
          rfl

/-- No attribute is divided at a comma or ends the list with a NUL, and no name but the first begins with a
space. -/
structure Separate (cookies : List CookieParts) : Prop where
  nul : ∀ c ∈ cookies.dropLast, nul ∉ c.attributes
  comma : ∀ c ∈ cookies, comma ∉ cstr c.attributes
  space : ∀ c ∈ cookies.tail, c.name.head? ≠ some space

/-- A NUL in an attribute hides later cookies, and attributes in front of it have text that stands for them:
divided at their commas, as many pieces come out as there are cookies, each with the name and the value of its
cookie. -/
def Supplied (cookies : List CookieParts) : Prop :=
  (∃ c ∈ cookies.dropLast, nul ∈ c.attributes) ∧ LineUp cookies.tail (pieces cookies).tail

theorem pieces_eq {c : CookieParts} {cookies : List CookieParts} (hclean : ∀ d ∈ c :: cookies, d.Clean)
    (hnul : ∀ d ∈ (c :: cookies).dropLast, nul ∉ d.attributes)
    (hcomma : ∀ d ∈ c :: cookies, comma ∉ cstr d.attributes) :
    pieces (c :: cookies) = cstr c.text :: (cookies.map fun d => cstr d.text).map ([space] ++ ·) := by
  rw [pieces, CookieParts.cstr_intercalate hclean hnul, List.map_cons]
  refine Separated.splitOn_intercalate_padded (by decide) fun t ht => ?_
  obtain ⟨d, hd, rfl⟩ := List.mem_map.mp (show t ∈ (c :: cookies).map fun d => cstr d.text from ht)
  rw [CookieParts.cstr_text (hclean d hd), List.mem_append, not_or]
  exact ⟨(hclean d hd).comma_notMem, hcomma d hd⟩

theorem comma_notMem_of_length {c : CookieParts} {cookies : List CookieParts}
    (hclean : ∀ d ∈ c :: cookies, d.Clean) (hnul : ∀ d ∈ (c :: cookies).dropLast, nul ∉ d.attributes)
    (hlength : (pieces (c :: cookies)).length = cookies.length + 1) :
    ∀ d ∈ c :: cookies, comma ∉ cstr d.attributes := by
  have hpadded : pieces (c :: cookies) = ([comma].intercalate
      (cstr c.text :: (cookies.map fun d => cstr d.text).map ([space] ++ ·))).splitOn comma := by
    rw [pieces, CookieParts.cstr_intercalate hclean hnul, List.map_cons, ← Separated.intercalate_padded]
    rfl
  have hnone : ∀ u ∈ cstr c.text :: (cookies.map fun d => cstr d.text).map ([space] ++ ·), comma ∉ u := by
    apply Separated.notMem_of_length_intercalate (by simp)
    rw [← hpadded, hlength]
    simp
  intro d hd hmem
  have htext : comma ∈ cstr d.text := by
    rw [CookieParts.cstr_text (hclean d hd)]
    exact List.mem_append_right _ hmem
  rcases List.mem_cons.mp hd with rfl | hd
  · exact hnone _ (by simp) htext
  · refine hnone ([space] ++ cstr d.text) ?_ (List.mem_append_right _ htext)
    rw [List.map_map]
    exact List.mem_cons_of_mem _ (List.mem_map.mpr ⟨d, hd, rfl⟩)

/-- **One entry for each cookie** exactly when the cookies stay apart, or when hidden ones are made up for. -/
theorem oneEntryEach_iff {cookies : List CookieParts} (hclean : ∀ c ∈ cookies, c.Clean) :
    OneEntryEach cookies ↔ Separate cookies ∨ Supplied cookies := by
  cases cookies with
  | nil =>
      have hnone : OneEntryEach [] := fun headers habsent => ⟨[], by simp [getList, habsent], .nil⟩
      exact ⟨fun _ => .inl ⟨by simp, by simp, by simp⟩, fun _ => hnone⟩
  | cons c cookies =>
      obtain ⟨hc, hcs⟩ := List.forall_mem_cons.mp hclean
      rw [oneEntryEach_iff_lineUp hc]
      by_cases hnul : ∀ d ∈ (c :: cookies).dropLast, nul ∉ d.attributes
      · have hnot : ¬ Supplied (c :: cookies) := by
          rintro ⟨⟨d, hd, hmem⟩, -⟩
          exact hnul d hd hmem
        rw [or_iff_left hnot]
        constructor
        · intro h
          have hlength : (pieces (c :: cookies)).length = cookies.length + 1 := by
            obtain ⟨rest, later, hpieces⟩ := exists_pieces hc cookies
            rw [hpieces] at h ⊢
            rw [List.length_cons, ← h.length_eq, List.tail_cons]
          have hcomma := comma_notMem_of_length hclean hnul hlength
          rw [pieces_eq hclean hnul hcomma, List.tail_cons, lineUp_texts hcs] at h
          exact ⟨hnul, hcomma, h⟩
        · intro h
          rw [pieces_eq hclean hnul h.comma, List.tail_cons, lineUp_texts hcs]
          exact h.space
      · have hnot : ¬ Separate (c :: cookies) := fun h => hnul h.nul
        have hhidden : ∃ d ∈ (c :: cookies).dropLast, nul ∈ d.attributes := by simpa using hnul
        rw [or_iff_right hnot, Supplied, and_iff_right hhidden, List.tail_cons]

theorem oneEntryEach_session :
    OneEntryEach [⟨lit "a", lit "1", [], lit "/", [], false, false⟩,
      ⟨lit "b", lit "2", lit "x.org", lit "/", [], true, true⟩] := by
  refine (oneEntryEach_iff ?_).mpr (.inl ⟨?_, ?_, ?_⟩)
  · simp only [List.forall_mem_cons, List.not_mem_nil, false_imp_iff, implies_true, and_true]
    exact ⟨⟨by decide, by decide, by decide, by decide⟩, ⟨by decide, by decide, by decide, by decide⟩⟩
  · decide
  · decide
  · decide

/-- The date of a standard `Expires` has a comma. -/
theorem not_forall_oneEntryEach :
    ¬ ∀ cookies : List CookieParts, (∀ c ∈ cookies, c.Clean) → OneEntryEach cookies := by
  intro h
  have hc : CookieParts.Clean ⟨lit "a", lit "1", [], lit "/", lit "Wed, 21 Oct 2015", false, false⟩ :=
    ⟨by decide, by decide, by decide, by decide⟩
  have hone := (oneEntryEach_iff_lineUp hc []).mp (h _ (by simpa using hc))
  have hlength := hone.length_eq
  revert hlength
  decide

end Rikitiki
