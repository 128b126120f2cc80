import Rikitiki.Library.Search
import Rikitiki.Query.Laws
import Rikitiki.Server.Dispatch

/-!
# The address of a request from an embedded browser

`CefInternalServer::ProcessRequest` asks for the host name with a URI behind it, and `cef::Request` takes this
address apart again. The path is what stands in front of the last `?`, and the query string what stands behind
it, so a query that has a `?` of its own is cut there.
-/

namespace Rikitiki.Cef

open QueryStringCollection (fromWideQueryString)
open Search (find findFrom findLast)

def wide (s : Str) : List WChar := s.map UInt8.toUInt32

/-- The wide C string in front of the first NUL. -/
def cwide (s : List WChar) : List WChar := s.takeWhile fun c => c ≠ 0

abbrev slash : WChar := 47
abbrev questionMark : WChar := 63

/-- `cef::Request::URI`, a C string, of a request for an address, or `none` when it goes behind the end of the
address or makes a string of a range that ends before it begins. -/
def uri (url : List WChar) : Option (List WChar) :=
  -- `npos + 3` is 2
  let protocol := ((find (wide (lit "://")) url).map (· + 3)).getD 2
  (findFrom [slash] url protocol).bind fun startFrom =>
    match findLast questionMark url with
    | none => some (cwide (url.drop startFrom))
    | some qmark => if qmark < startFrom then none else some (cwide ((url.drop startFrom).take (qmark - startFrom)))

/-- `cef::Request::FillQueryString` -/
def fillQueryString (url : List WChar) (qs : QueryStringCollection) : QueryStringCollection :=
  match findLast questionMark url with
  | none => qs
  | some qmark => fromWideQueryString qs (url.drop (qmark + 1))

/-- The address that `CefInternalServer::ProcessRequest` asks for. -/
def address (hostname uri : List WChar) : List WChar := hostname ++ uri

/-- `cef::Request`, as far as it is read off the address. -/
structure Request where
  uri : Option (List WChar)
  queryString : QueryStringCollection

def Request.ofUrl (url : List WChar) : Request := ⟨Cef.uri url, fillQueryString url ∅⟩

/-- `wcsncmp(url, hostname, hostname.size()) == 0`, of strings without NUL. -/
def isHandled (hostname url : List WChar) : Bool := url.take hostname.length = hostname

/-- The handler whose `ResourceHandler` `CefInternalServer::GetResourceHandler` makes. -/
def getResourceHandler {ι : Type} (objects : ι → HandlerObject Request) (hostname : List WChar) (handlers : List ι)
    (url : List WChar) : Except Thrown (Option ι) :=
  if isHandled hostname url then Server.getHandler objects (.ofUrl url) handlers else .ok none

/-! ### What an address is taken apart into -/

abbrev colon : WChar := 58

def separator : List WChar := [colon, slash, slash]

theorem cwide_eq_self {s : List WChar} (hs : 0 ∉ s) : cwide s = s := by
  refine List.takeWhile_eq_self_iff.mpr fun c hc => decide_eq_true ?_
  rintro rfl
  exact hs hc

theorem wide_separator : wide (lit "://") = separator := by decide

structure Hostname where
  scheme : List WChar
  host : List WChar
  colon_notMem : colon ∉ scheme
  slash_notMem : slash ∉ host
  questionMark_notMem : questionMark ∉ scheme ++ (separator ++ host)

namespace Hostname

variable (h : Hostname)

def text : List WChar := h.scheme ++ (separator ++ h.host)

theorem text_append (path : List WChar) : h.text ++ path = h.scheme ++ (separator ++ (h.host ++ path)) := by
  rw [text, List.append_assoc, List.append_assoc]

theorem startFrom (path : List WChar) :
    findFrom [slash] (h.text ++ slash :: path)
        (((find (wide (lit "://")) (h.text ++ slash :: path)).map (· + 3)).getD 2)
      = some h.text.length := by
  have hprotocol : find separator (h.scheme ++ (separator ++ (h.host ++ slash :: path))) = some h.scheme.length :=
    Search.find_append_of_notMem h.colon_notMem _
  have hstart := Search.findFrom_append (h.scheme ++ separator) h.slash_notMem path
  rw [List.append_assoc, List.length_append] at hstart
  rw [wide_separator, text_append, hprotocol, Option.map_some, Option.getD_some]
  refine hstart.trans ?_
  rw [text, List.length_append, List.length_append, Nat.add_assoc]

/-- **An address is divided at its last `?`.** -/
theorem uri_append {path query : List WChar} (hpath : 0 ∉ path) (hquery : questionMark ∉ query) :
    uri (h.text ++ slash :: (path ++ questionMark :: query)) = some (slash :: path) ∧
      ∀ qs, fillQueryString (h.text ++ slash :: (path ++ questionMark :: query)) qs
        = fromWideQueryString qs query := by
  have hassoc : h.text ++ slash :: (path ++ questionMark :: query)
      = (h.text ++ slash :: path) ++ questionMark :: query := by simp
  have hlast : findLast questionMark (h.text ++ slash :: (path ++ questionMark :: query))
      = some (h.text ++ slash :: path).length := by
    rw [hassoc]
    exact Search.findLast_append hquery _
  constructor
  · have hlength : (h.text ++ slash :: path).length - h.text.length = (slash :: path).length := by
      rw [List.length_append, Nat.add_sub_cancel_left]
    rw [uri, startFrom, Option.bind_some, hlast]
    simp only [List.drop_left, hlength]
    have hwhole : cwide (slash :: path) = slash :: path :=
      cwide_eq_self (List.not_mem_cons_of_ne_of_not_mem (by decide) hpath)
    rw [if_neg (by rw [List.length_append]; omega), ← List.cons_append, List.take_left, hwhole]
  · intro qs
    rw [fillQueryString, hlast]
    simp only
    rw [hassoc, ← List.drop_drop, List.drop_left]
    rfl

end Hostname

/-! ### Requests that are seen as they were made -/

def questionSign : Byte := 63

theorem questionMark_mem_queryText {pairs : List (Str × Str)} :
    questionSign ∈ queryText pairs ↔ ∃ pair ∈ pairs, questionSign ∈ pair.1 ∨ questionSign ∈ pair.2 := by
  have hpair : ∀ pair : Str × Str, questionSign ∈ pairText pair ↔ questionSign ∈ pair.1 ∨ questionSign ∈ pair.2 := by
    intro pair
    rw [pairText, List.mem_append, List.mem_cons]
    exact or_congr_right (or_iff_right (by decide))
  induction pairs with
  | nil => simp [queryText]
  | cons pair pairs ih =>
      cases pairs with
      | nil => simpa [queryText] using hpair pair
      | cons next pairs =>
          have hcons : queryText (pair :: next :: pairs)
              = pairText pair ++ ampersandSign :: queryText (next :: pairs) := rfl
          have hne : ¬ questionSign = ampersandSign := by decide
          rw [hcons, List.mem_append, List.mem_cons, hpair, or_iff_right hne, List.exists_mem_cons_iff]
          exact or_congr_right ih

theorem questionMark_mem_wide {s : Str} : questionMark ∈ wide s ↔ questionSign ∈ s := by
  rw [wide, List.mem_map]
  constructor
  · intro h
    obtain ⟨b, hb, hmark⟩ := h
    obtain rfl : b = questionSign := by_contra fun hne => toUInt32_ne hne hmark
    exact hb
  · intro h
    exact ⟨questionSign, h, rfl⟩

theorem nul_notMem_queryText {pairs : List (Str × Str)} (hpairs : Writable pairs) : nul ∉ queryText pairs :=
  fun h => (ascii_queryText hpairs.ascii nul h).1 rfl

theorem zero_notMem_wide {s : Str} (hs : nul ∉ s) : 0 ∉ wide s := by
  intro h
  obtain ⟨b, hb, hzero⟩ := List.mem_map.mp h
  obtain rfl : b = nul := by_contra fun hne => toUInt32_ne hne hzero
  exact hs hb

theorem fromWideQueryString_queryText {pairs : List (Str × Str)} (hpairs : Writable pairs) :
    fromWideQueryString ∅ (wide (queryText pairs)) = Collection.storeAll ∅ (bindings pairs) := by
  have hread := fromQueryString_pairs .widening ∅ hpairs.nonempty hpairs.ascii hpairs.delimited false
  have hnul := nul_notMem_queryText hpairs
  simp only [Bool.false_eq_true, if_false, List.append_nil] at hread
  rw [QueryStringCollection.fromQueryString, cstr_eq_self hnul] at hread
  exact hread

/-- **A request that a page makes of its own server** goes to the handler that `GetHandler` finds for it, and the
request it finds one for has the path and the pairs it was made with exactly if no `?` is in a key or a value. -/
theorem seen_iff {ι : Type} (objects : ι → HandlerObject Request) (handlers : List ι) (h : Hostname)
    {path : List WChar} (hpath : 0 ∉ path) {pairs : List (Str × Str)} (hpairs : Writable pairs) :
    let url := address h.text (slash :: (path ++ questionMark :: wide (queryText pairs)))
    getResourceHandler objects h.text handlers url = Server.getHandler objects (.ofUrl url) handlers ∧
      (((Request.ofUrl url).uri = some (slash :: path) ∧
          ∀ pair ∈ pairs, (Request.ofUrl url).queryString[pair.1]? = some pair.2) ↔
        ∀ pair ∈ pairs, questionSign ∉ pair.1 ∧ questionSign ∉ pair.2) := by
  intro url
  have hhandled : isHandled h.text url = true := decide_eq_true List.take_left
  refine ⟨if_pos hhandled, ?_⟩
  constructor
  · intro hseen pair hpair
    obtain ⟨huri, -⟩ := hseen
    by_contra hmark
    have hquery : questionMark ∈ wide (queryText pairs) :=
      questionMark_mem_wide.mpr (questionMark_mem_queryText.mpr ⟨pair, hpair, by tauto⟩)
    obtain ⟨front, back, hsplit, hback⟩ := Search.exists_last hquery
    have hfront : 0 ∉ path ++ questionMark :: front := by
      have hzero := zero_notMem_wide (nul_notMem_queryText hpairs)
      rw [hsplit, List.mem_append, not_or] at hzero
      rw [List.mem_append, List.mem_cons, not_or, not_or]
      exact ⟨hpath, by decide, hzero.1⟩
    have hurl : url = h.text ++ slash :: ((path ++ questionMark :: front) ++ questionMark :: back) := by
      rw [List.append_assoc, List.cons_append, ← hsplit]
      rfl
    rw [Request.ofUrl, hurl, (h.uri_append hfront hback).1] at huri
    have hlength := congrArg List.length (List.cons.inj (Option.some.inj huri)).2
    rw [List.length_append, List.length_cons] at hlength
    omega
  · intro hfree
    have hquery : questionMark ∉ wide (queryText pairs) := by
      rw [questionMark_mem_wide, questionMark_mem_queryText]
      rintro ⟨pair, hpair, hmark | hmark⟩
      · exact (hfree pair hpair).1 hmark
      · exact (hfree pair hpair).2 hmark
    obtain ⟨huri, hfill⟩ := h.uri_append hpath hquery
    refine ⟨huri, fun pair hpair => ?_⟩
    have hstored := stored_bindings hpairs.distinct hpair
    have hread : fillQueryString url ∅ = Collection.storeAll ∅ (bindings pairs) :=
      (hfill ∅).trans (fromWideQueryString_queryText hpairs)
    rw [Request.ofUrl, hread, Collection.getElem?_storeAll]
    simpa using hstored

def searchHost : Hostname where
  scheme := wide (lit "http")
  host := wide (lit "app")
  colon_notMem := by decide
  slash_notMem := by decide
  questionMark_notMem := by decide

def searchPairs : List (Str × Str) := [(lit "q", lit "a"), (lit "r", lit "?b")]

def searchUrl : List WChar := wide (lit "http://app/s?q=a&r=?b")

def searchHandler : HandlerObject Request where
  canHandle request := .ok (request.uri = some (wide (lit "/s")))
  handle _ _ := ([.handle], .returns true)

theorem seen_iff_search :
    getResourceHandler (fun _ : Unit => searchHandler) searchHost.text [()] searchUrl = .ok none ∧
    ¬ ((Request.ofUrl searchUrl).uri = some (wide (lit "/s")) ∧
      ∀ pair ∈ searchPairs, (Request.ofUrl searchUrl).queryString[pair.1]? = some pair.2) := by
  have hpairs : Writable searchPairs := by
    refine ⟨by decide, by decide, by decide, ?_⟩
    exact List.forall_mem_cons.mpr ⟨⟨by decide, by decide, by decide⟩,
      List.forall_mem_singleton.mpr ⟨by decide, by decide, by decide⟩⟩
  have hurl : address searchHost.text (slash :: (wide (lit "s") ++ questionMark :: wide (queryText searchPairs)))
      = searchUrl := by decide
  have hpath : 0 ∉ wide (lit "s") := by decide
  have hseen := seen_iff (fun _ : Unit => searchHandler) [()] searchHost hpath hpairs
  rw [hurl] at hseen
  obtain ⟨hfound, hiff⟩ := hseen
  have huri : (Request.ofUrl searchUrl).uri ≠ some (wide (lit "/s")) := by decide
  refine ⟨hfound.trans ?_, fun h => ?_⟩
  · simp [Server.getHandler, searchHandler, huri]
  · exact absurd (hiff.mp h) (by decide)

end Rikitiki.Cef
