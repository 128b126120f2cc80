import Rikitiki.Http.Enums

/-!
# The start line of a request, written and set

`Request::Startline` writes the method, the URI and the version with wide literals between them, and
`Request::SetStartline` cuts a line at its first and its last space. Of the two parts only the method gets
into the request.

No operator for wide text is in sight of `Request.cc`, so a narrow stream prints the address of a wide literal,
as it does for any pointer, and the space that is meant to end the method is never written.
-/

namespace Rikitiki

namespace RequestMethod

def named : List RequestMethod := [.get, .post, .head, .put, .delete, .trace, .options, .connect, .patch]

def toString : RequestMethod → Str
  | .get => lit "GET"
  | .post => lit "POST"
  | .head => lit "HEAD"
  | .put => lit "PUT"
  | .delete => lit "DELETE"
  | .trace => lit "TRACE"
  | .options => lit "OPTIONS"
  | .connect => lit "CONNECT"
  | .patch => lit "PATCH"
  | .any | .other => lit "ANY"

/-- `RequestMethod::FromString` on a C string. -/
def fromString (method : Str) : RequestMethod :=
  if method = lit "GET" then .get
  else if method = lit "POST" then .post
  else if method = lit "HEAD" then .head
  else if method = lit "PUT" then .put
  else if method = lit "DELETE" then .delete
  else if method = lit "TRACE" then .trace
  else if method = lit "OPTIONS" then .options
  else if method = lit "CONNECT" then .connect
  else if method = lit "PATCH" then .patch
  else .any

theorem fromString_toString {m : RequestMethod} (hm : m ∈ named) : fromString m.toString = m := by
  have hall : ∀ m ∈ named, fromString m.toString = m := by decide
  exact hall m hm

theorem fromString_cases (s : Str) : fromString s = any ∨ s = (fromString s).toString := by
  rw [fromString]
  iterate 9
    refine iteInduction (motive := fun m => m = any ∨ s = m.toString) (fun hname => .inr hname) fun _ => ?_
  exact .inl rfl

theorem fromString_eq_iff {m : RequestMethod} (hm : m ∈ named) (s : Str) :
    fromString s = m ↔ s = m.toString := by
  constructor
  · intro h
    rcases fromString_cases s with hany | hname
    · rw [← h, hany] at hm
      exact absurd hm (by decide)
    · exact h ▸ hname
  · intro h
    rw [h, fromString_toString hm]

theorem toString_plain (m : RequestMethod) : ∀ b ∈ m.toString, b ≠ space ∧ b ≠ nul := by
  cases m
  all_goals decide

end RequestMethod

/-- What a stream prints of a pointer that is not null: hexadecimal digits of either case, and with most libraries
`0x` in front of them. -/
structure PointerText where
  text : Str
  ne_nil : text ≠ []
  digits : ∀ b ∈ text, b ∈ lit "0123456789abcdefABCDEFxX"

theorem PointerText.plain (pointer : PointerText) : ∀ b ∈ pointer.text, b ≠ space ∧ b ≠ nul := by
  have hall : ∀ b ∈ lit "0123456789abcdefABCDEFxX", b ≠ space ∧ b ≠ nul := by decide
  intro b hb
  exact hall b (pointer.digits b hb)

/-- The part of an `ORequestMemory` that its start line is about. -/
structure ORequestMemory where
  method : RequestMethod := .get
  uri : Str := []
  deriving DecidableEq, Repr

namespace ORequestMemory

/-- `URI()`, the member as a C string. -/
def URI (request : ORequestMemory) : Str := cstr request.uri

/-- `Request::Startline`, with the address of `L" "` and that of `L" HTTP/1.1"`. -/
def startline (blank version : PointerText) (request : ORequestMemory) : Str :=
  request.method.toString ++ (blank.text ++ (request.URI ++ version.text))

/-- `Request::SetStartline`, or `none` when it indexes the line with `npos`. -/
def setStartline (request : ORequestMemory) (startLine : Str) : Option ORequestMemory :=
  match startLine.findIdx? (· = space) with
  | none => none
  | some firstSpace =>
      let lastSpace := startLine.length - 1 - startLine.reverse.findIdx (· = space)
      let method := startLine.take firstSpace
      -- This is where the URI stays: no member is set to it.
      let _uri := (startLine.take lastSpace).drop firstSpace
      some { request with method := .fromString (cstr method) }

/-- Setting a request's start line from the one written for another makes the two agree. -/
def Restores (blank version : PointerText) (source target : ORequestMemory) : Prop :=
  ∃ set, target.setStartline (source.startline blank version) = some set ∧
    set.method = source.method ∧ set.URI = source.URI

/-! ### What is set -/

theorem setStartline_eq_none_iff (request : ORequestMemory) (line : Str) :
    request.setStartline line = none ↔ space ∉ line := by
  rw [setStartline]
  cases hfind : line.findIdx? (· = space) with
  | none =>
      have hnone : ∀ b ∈ line, b ≠ space := by simpa using List.findIdx?_eq_none_iff.mp hfind
      exact iff_of_true rfl fun h => hnone space h rfl
  | some firstSpace =>
      obtain ⟨hlt, hspace, -⟩ := List.findIdx?_eq_some_iff_getElem.mp hfind
      have hmem : space ∈ line := (of_decide_eq_true hspace) ▸ List.getElem_mem hlt
      exact iff_of_false (by simp) fun h => h hmem

theorem setStartline_of_mem (request : ORequestMemory) {line : Str} (hline : space ∈ line) :
    request.setStartline line =
      some { request with method := .fromString (cstr (line.takeWhile fun b => b ≠ space)) } := by
  cases hfind : line.findIdx? (· = space) with
  | none =>
      have hnone : request.setStartline line = none := by rw [setStartline, hfind]
      exact absurd hline ((setStartline_eq_none_iff request line).mp hnone)
  | some firstSpace =>
      have hidx : line.findIdx (· = space) = firstSpace :=
        (List.findIdx?_eq_some_iff_findIdx_eq.mp hfind).2
      have htake : line.take firstSpace = line.takeWhile fun b => b ≠ space := by
        rw [List.takeWhile_eq_take_findIdx_not, ← hidx]
        simp
      simp only [setStartline, hfind, htake]

/-- **The URI is never set.** -/
theorem setStartline_uri {request set : ORequestMemory} {line : Str}
    (hset : request.setStartline line = some set) : set.uri = request.uri := by
  rw [setStartline] at hset
  cases hfind : line.findIdx? (· = space) with
  | none =>
      rw [hfind] at hset
      exact nomatch hset
  | some firstSpace =>
      rw [hfind] at hset
      obtain rfl := Option.some.inj hset
      rfl

theorem fromString_front_iff {m : RequestMethod} (hm : m ∈ RequestMethod.named) {rest : Str} :
    RequestMethod.fromString (cstr ((m.toString ++ rest).takeWhile fun b => b ≠ space)) = m ↔
      ∀ b ∈ rest.head?, b = space ∨ b = nul := by
  have htake : (m.toString ++ rest).takeWhile (fun b => b ≠ space) =
      m.toString ++ rest.takeWhile fun b => b ≠ space :=
    List.takeWhile_append_of_pos fun b hb => decide_eq_true (m.toString_plain b hb).1
  have hnul : nul ∉ m.toString := fun h => (m.toString_plain nul h).2 rfl
  rw [htake, cstr_append hnul, RequestMethod.fromString_eq_iff hm, List.append_right_eq_self]
  cases rest with
  | nil => simp [cstr]
  | cons b rest =>
      by_cases hspace : b = space
      · simp [hspace, cstr]
      · by_cases hzero : b = nul
        · rw [List.takeWhile_cons_of_pos (by simp [hspace])]
          simp [hzero, cstr]
        · simp [hspace, hzero, cstr]

/-- **A start line never restores the request**: one that can be set leaves the URI as it is, and it can be set where
it has a space. -/
theorem not_restores_and_index (blank version : PointerText) {source : ORequestMemory}
    (hnamed : source.method ∈ RequestMethod.named) (target : ORequestMemory) (line : Str) :
    ¬ Restores blank version source target ∧
      (∀ set, target.setStartline line = some set → set.uri = target.uri) ∧
      (target.setStartline line ≠ none ↔ space ∈ line) := by
  refine ⟨?_, fun set => setStartline_uri, by rw [ne_eq, setStartline_eq_none_iff, not_not]⟩
  rintro ⟨set, hset, hmethod, -⟩
  have hspace : space ∈ source.startline blank version := by
    by_contra hnot
    rw [(setStartline_eq_none_iff target _).mpr hnot] at hset
    exact nomatch hset
  rw [setStartline_of_mem target hspace] at hset
  obtain rfl := Option.some.inj hset
  -- what follows the name of the method is the address of the blank
  have hends := (fromString_front_iff hnamed).mp hmethod
  obtain ⟨b, rest, hblank⟩ := List.exists_cons_of_ne_nil blank.ne_nil
  have hplain := blank.plain b (by rw [hblank]; exact List.mem_cons_self)
  rw [hblank] at hends
  exact (hends b rfl).elim hplain.1 hplain.2

def blankAt : PointerText := ⟨lit "0x4a20f8", by decide, by decide⟩

def versionAt : PointerText := ⟨lit "0x4a2100", by decide, by decide⟩

theorem not_restores_index : ¬ Restores blankAt versionAt ⟨.put, lit "/index"⟩ ⟨.get, lit "/index"⟩ ∧
    setStartline ⟨.get, lit "/index"⟩ (lit "GET /") ≠ none := by
  have hput : (ORequestMemory.mk .put (lit "/index")).method ∈ RequestMethod.named := by decide
  obtain ⟨hnot, -, hindex⟩ := not_restores_and_index blankAt versionAt hput ⟨.get, lit "/index"⟩ (lit "GET /")
  exact ⟨hnot, hindex.mpr (by decide)⟩

/-- The start line of `GET /index`, with the literals at whatever addresses, sets no new request, and a line without
a space takes the parser outside it. -/
theorem not_restores : (∀ blank version, ¬ ∀ source target : ORequestMemory, source.method ∈ RequestMethod.named →
      (∀ b ∈ source.uri, b ≠ space ∧ b ≠ nul ∧ isNewline b = false) → Restores blank version source target) ∧
    ¬ ∀ (target : ORequestMemory) (line : Str), target.setStartline line ≠ none := by
  constructor
  · intro blank version h
    have hget : RequestMethod.get ∈ RequestMethod.named := by decide
    obtain ⟨set, hset, -⟩ := h ⟨.get, lit "/index"⟩ {} hget (by decide)
    have hspace : space ∉ (ORequestMemory.mk .get (lit "/index")).startline blank version := by
      have hname : space ∉ RequestMethod.get.toString := by decide
      have huri : space ∉ (ORequestMemory.mk .get (lit "/index")).URI := by decide
      have hblank : space ∉ blank.text := fun hmem => (blank.plain space hmem).1 rfl
      have hversion : space ∉ version.text := fun hmem => (version.plain space hmem).1 rfl
      simp [startline, hname, huri, hblank, hversion]
    rw [(setStartline_eq_none_iff {} _).mpr hspace] at hset
    cases hset
  · intro h
    exact h {} (lit "GET") (by decide)

end ORequestMemory

end Rikitiki
