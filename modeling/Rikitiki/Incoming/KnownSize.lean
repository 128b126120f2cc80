import Rikitiki.Incoming.Head

/-!
# Bodies with a length

A response with a length is finished by the fragment that brings the last byte of its body, and its body
is then all that has come behind the head, surplus bytes of that fragment included. So it is cut at the
length exactly when a fragment ends there.
-/

namespace Rikitiki.IResponseMemory

theorem missing_afterHead {status : HttpStatus} {headers : HeaderCollection}
    (hpos : contentLength headers ≠ 0) (hnpos : contentLength headers ≠ npos)
    (hencoding : transferEncoding headers ≠ .chunked) : Missing (afterHead status headers) where
  mode := by simp [afterHead, inHeaders, hencoding]
  state := by simp [afterHead, inHeaders, hpos]
  type := by simp [afterHead, inHeaders, BodyType.from_eq_knownSize, hnpos]
  buffer := rfl
  missing := by simp [afterHead, inHeaders]; omega

theorem transferEncoding_of_none {headers : HeaderCollection}
    (h : headers.get (lit "Transfer-Encoding") = none) : transferEncoding headers ≠ .chunked := by
  simp [transferEncoding, h]

theorem not_cutsLineEnd_of_append {fragments : List Str} (later : List Str) {size : Nat}
    (h : ¬ CutsLineEnd (fragments ++ later) size) : ¬ CutsLineEnd fragments size := by
  rintro ⟨before, middle, rfl, hlt, hcr, hlf⟩
  refine h ⟨before, middle ++ later, by simp, hlt, hcr, ?_⟩
  rw [List.flatten_append, List.head?_append, hlf]
  rfl

theorem eq_zero_of_mem_boundaries {before : List Str} {fragment : Str} {l : Nat}
    (hmem : l ∈ Cuts.boundaries (before ++ [fragment])) (hlt : l < fragment.length) : l = 0 :=
  Cuts.eq_of_mem_boundaries hmem (Nat.zero_le l) (by simpa using hlt)

theorem ends_of_missing {m : IResponseMemory} {boundaries : List Nat} {fragments : List Str}
    (hm : Framed m) (hmissing : Missing m) (hle : m.expectedSize ≤ fragments.flatten.length)
    (hend : ∀ l ∈ boundaries, l ≤ fragments.flatten.length - m.expectedSize → l = 0)
    (hmarks : Cuts.Marks boundaries fragments) :
    Ends fragments
      (.finishes (m.lastPart fragments.flatten) (fragments.flatten.drop m.expectedSize))
      (feed m fragments) := by
  obtain ⟨before, fragment, later, others, m₁, hfragments, hbefore, hfragment, hfeed, hothers, hderived⟩ :=
    feed_lastPart hmissing hm hle
  have hpos := hmissing.missing
  have htotal : fragments.flatten = (before.flatten ++ fragment) ++ later.flatten := by
    rw [hfragments]
    simp
  have hlength : fragments.flatten.length = (before.flatten ++ fragment).length + later.flatten.length := by
    rw [htotal, List.length_append]
  have hlater : later.flatten = [] := by
    have hmem : later.flatten.length ∈ Cuts.boundaries fragments :=
      Cuts.mem_boundaries_iff.mpr ⟨before ++ [fragment], later, by simp [hfragments], rfl⟩
    rw [← hmarks _ (by omega)] at hmem
    exact List.eq_nil_of_length_eq_zero (hend _ hmem (by omega))
  rw [hlater, List.append_nil] at htotal
  rw [hfeed, htotal]
  refine .finishes hfragments (by simp [hlater]) ?_ hothers hderived
  rw [List.length_drop, hlater, List.append_nil]
  rw [List.length_append] at hfragment ⊢
  omega

/-- The call that delivers byte `n` of the body is the first to answer `true`, and the body is then the
first `n` bytes. -/
def CutAtLength (head : ResponseHead) (n : Nat) (body : Str) (fragments : List Str) : Prop :=
  ∃ before fragment later m, fragments = before ++ fragment :: later ∧
    before.flatten.length < head.bytes.length + n ∧
    head.bytes.length + n ≤ (before.flatten ++ fragment).length ∧
    feed fresh (before ++ [fragment])
      = some (List.replicate before.length (.returned false) ++ [.returned true], m) ∧
    m.derived.body = body.take n

/-- **What a response with a length is read as**, up to the fragment that brings the last byte of its
body: the call on this fragment answers `true`, and the body has all of it. -/
theorem feed_knownSize {head : ResponseHead} {status : HttpStatus} {before : List Str}
    {fragment body : Str} (hstatus : setStartline (head.startLine ++ crlf) = some status)
    (hpos : contentLength head.headers ≠ 0) (hnpos : contentLength head.headers ≠ npos)
    (hencoding : transferEncoding head.headers ≠ .chunked)
    (hstream : before.flatten ++ fragment = head.bytes ++ body)
    (hbefore : before.flatten.length < head.bytes.length + contentLength head.headers)
    (hbody : contentLength head.headers ≤ body.length)
    (hcuts : ¬ CutsLineEnd (before ++ [fragment]) head.bytes.length) :
    ∃ m, feed fresh (before ++ [fragment])
        = some (List.replicate before.length (.returned false) ++ [.returned true], m) ∧
      m.derived.body = body := by
  have hmissing : Missing (afterHead status head.headers) := missing_afterHead hpos hnpos hencoding
  have hexpected : (afterHead status head.headers).expectedSize = contentLength head.headers := rfl
  have hflatten : (before ++ [fragment]).flatten = head.bytes ++ body := by simpa using hstream
  have hlength : before.flatten.length + fragment.length = head.bytes.length + body.length := by
    rw [← List.length_append, hstream, List.length_append]
  have hends : Ends (before ++ [fragment]) (.finishes ((afterHead status head.headers).lastPart body)
      (body.drop (contentLength head.headers))) (feed fresh (before ++ [fragment])) := by
    apply ends_of_head hstatus hpos hflatten hcuts
    intro fragments' hm _ hstream' hmarks
    have h := ends_of_missing hm hmissing (by rw [hstream', hexpected]; exact hbody)
      (fun l hl hle => eq_zero_of_mem_boundaries hl (by rw [hstream', hexpected] at hle; omega)) hmarks
    rwa [hstream', hexpected] at h
  generalize hrun : feed fresh (before ++ [fragment]) = outcome at hends
  cases hends with
  | @finishes before' later' fragment' _ others _ m hfragments hlater hfragment hothers hderived =>
      have htotal : before.flatten.length + fragment.length
          = before'.flatten.length + fragment'.length + later'.flatten.length := by
        have h := congrArg (fun F => F.flatten.length) hfragments
        simp only [List.flatten_append, List.flatten_cons, List.flatten_nil, List.append_nil,
          List.length_append] at h
        omega
      rw [List.length_drop] at hlater hfragment
      rw [List.length_append] at hfragment
      obtain ⟨rfl, rfl, rfl⟩ := Cuts.split_unique hfragments hbefore
        (by rw [List.length_append]; omega) (by omega) (by rw [List.length_append]; omega)
      rw [List.eq_nil_of_length_eq_zero hothers]
      exact ⟨m, rfl, congrArg IResponse.body hderived⟩

theorem feed_of_npos {head : ResponseHead} {status : HttpStatus} {fragments : List Str} {body : Str}
    (hstatus : setStartline (head.startLine ++ crlf) = some status)
    (hnpos : contentLength head.headers = npos) (hencoding : transferEncoding head.headers ≠ .chunked)
    (hstream : fragments.flatten = head.bytes ++ body)
    (hcuts : ¬ CutsLineEnd fragments head.bytes.length) :
    ∃ m, feed fresh fragments = some (List.replicate fragments.length (.returned false), m) := by
  have hends : Ends fragments (.waits ((afterHead status head.headers).swallow body))
      (feed fresh fragments) := by
    apply ends_of_head hstatus (by rw [hnpos]; decide) hstream hcuts
    intro fragments' _ _ hstream' _
    have hbody : (afterHead status head.headers).derived.bodyType = .none := by
      simp [afterHead, inHeaders, BodyType.from, hnpos, hencoding]
    have hstate : (afterHead status head.headers).derived.streamState = .body := by
      simp [afterHead, inHeaders, hnpos, npos]
    rw [feed_swallow (by simp [afterHead, inHeaders, hencoding]) hstate (by simp [hbody])
      (by simp [hbody]), hstream']
    exact .waits rfl
  generalize feed fresh fragments = outcome at hends ⊢
  cases hends with
  | waits hderived => exact ⟨_, rfl⟩

theorem front_eq {front back : Str} {head : ResponseHead} {body : Str}
    (hsplit : front ++ back = head.bytes ++ body) (hle : head.bytes.length ≤ front.length) :
    front = head.bytes ++ body.take (front.length - head.bytes.length) ∧
      front.length - head.bytes.length ≤ body.length := by
  have hfront := congrArg (List.take front.length) hsplit
  rw [List.take_left, List.take_append, List.take_of_length_le hle] at hfront
  have hlength := congrArg List.length hsplit
  rw [List.length_append, List.length_append] at hlength
  exact ⟨hfront, by omega⟩

section CutAtLength

variable {head : ResponseHead} {n : Nat} {body : Str} {fragments : List Str}

theorem boundary_of_cutAtLength (hpos : 0 < n) (hlength : contentLength head.headers = n)
    (hencoding : head.headers.get (lit "Transfer-Encoding") = none)
    (hstream : fragments.flatten = head.bytes ++ body)
    (hcuts : ¬ CutsLineEnd fragments head.bytes.length) (h : CutAtLength head n body fragments) :
    setStartline (head.startLine ++ crlf) ≠ none ∧ n ≠ npos ∧
      ∃ before later, fragments = before ++ later ∧ before.flatten = head.bytes ++ body.take n := by
  have hchunked := transferEncoding_of_none hencoding
  obtain ⟨before, fragment, later, m, rfl, hbefore, hfragment, hfeed, hm⟩ := h
  have hsplit : (before.flatten ++ fragment) ++ later.flatten = head.bytes ++ body := by
    rw [← hstream]
    simp
  obtain ⟨hfront, hle⟩ := front_eq hsplit (by omega)
  have hflatten : (before ++ [fragment]).flatten = head.bytes
      ++ body.take ((before.flatten ++ fragment).length - head.bytes.length) := by
    rw [← hfront]
    simp
  have hcuts' : ¬ CutsLineEnd (before ++ [fragment]) head.bytes.length :=
    not_cutsLineEnd_of_append later (by simpa using hcuts)
  cases hstatus : setStartline (head.startLine ++ crlf) with
  | none =>
      have hends := ends_of_bad_start hstatus hflatten hcuts'
      rw [hfeed] at hends
      cases hends
  | some status =>
      have hnpos : n ≠ npos := by
        intro hnpos
        obtain ⟨_, hfeed'⟩ := feed_of_npos hstatus (hlength.trans hnpos) hchunked hflatten hcuts'
        have hreplies := (Prod.mk.inj (Option.some.inj (hfeed.symm.trans hfeed'))).1
        have htrue : Reply.returned true ∈ List.replicate (before ++ [fragment]).length (.returned false) := by
          rw [← hreplies]
          simp
        cases List.eq_of_mem_replicate htrue
      obtain ⟨m', hfeed', hm'⟩ := feed_knownSize hstatus (by omega) (by omega) hchunked hfront
        (by omega) (by rw [List.length_take]; omega) hcuts'
      obtain ⟨-, rfl⟩ := Prod.mk.inj (Option.some.inj (hfeed.symm.trans hfeed'))
      have hsize := congrArg List.length (hm'.symm.trans hm)
      rw [List.length_take, List.length_take] at hsize
      refine ⟨by simp, hnpos, before ++ [fragment], later, by simp, ?_⟩
      rw [hflatten, show (before.flatten ++ fragment).length - head.bytes.length = n by omega]

theorem exists_last_fragment (hpos : 0 < n) (hbody : n ≤ body.length)
    (hstream : fragments.flatten = head.bytes ++ body) {front back : List Str}
    (hfragments : fragments = front ++ back) (hend : front.flatten = head.bytes ++ body.take n) :
    ∃ before fragment later, fragments = before ++ fragment :: later ∧
      before.flatten.length < head.bytes.length + n ∧
      head.bytes.length + n ≤ (before.flatten ++ fragment).length ∧
      before.flatten ++ fragment = head.bytes ++ body.take n := by
  subst hfragments
  have hfront : front.flatten.length = head.bytes.length + n := by
    rw [hend, List.length_append, List.length_take]
    omega
  obtain ⟨before, fragment, later, hfragments, hbefore, hfragment⟩ :=
    Cuts.exists_split (F := front ++ back) (n := head.bytes.length + n) (by omega)
      (by rw [List.flatten_append, List.length_append]; omega)
  have hsplit : (before.flatten ++ fragment) ++ later.flatten = head.bytes ++ body := by
    rw [← hstream, hfragments]
    simp
  have htotal : (before.flatten ++ fragment).length + later.flatten.length
      = front.flatten.length + back.flatten.length := by
    rw [← List.length_append, hsplit, ← hstream, List.flatten_append, List.length_append]
  have hback : back.flatten.length = later.flatten.length := by
    have hmem : back.flatten.length ∈ Cuts.boundaries (before ++ fragment :: later) := by
      rw [← hfragments]
      exact Cuts.mem_boundaries_iff.mpr ⟨front, back, rfl, rfl⟩
    rw [List.length_append] at hfragment htotal
    refine Cuts.eq_of_mem_boundaries hmem (by omega) ?_
    rw [List.length_append]
    omega
  obtain ⟨hfront', -⟩ := front_eq hsplit (by omega)
  rw [show (before.flatten ++ fragment).length - head.bytes.length = n by omega] at hfront'
  exact ⟨before, fragment, later, hfragments, hbefore, hfragment, hfront'⟩

end CutAtLength

/-- **A body of known size is cut at its length** exactly when the start line is one that the reader can
split, the length is not the size that stands for no size, and a fragment ends with the last byte of the
body. -/
theorem cutAtLength_iff {head : ResponseHead} {n : Nat} {body : Str} {fragments : List Str}
    (hpos : 0 < n) (hlength : contentLength head.headers = n)
    (hencoding : head.headers.get (lit "Transfer-Encoding") = none) (hbody : n ≤ body.length)
    (hstream : fragments.flatten = head.bytes ++ body)
    (hcuts : ¬ CutsLineEnd fragments head.bytes.length) :
    CutAtLength head n body fragments ↔
      setStartline (head.startLine ++ crlf) ≠ none ∧ n ≠ npos ∧
        ∃ before later, fragments = before ++ later ∧ before.flatten = head.bytes ++ body.take n := by
  constructor
  · exact boundary_of_cutAtLength hpos hlength hencoding hstream hcuts
  · rintro ⟨hstart, hnpos, front, back, hsplit, hend⟩
    obtain ⟨status, hstatus⟩ := Option.ne_none_iff_exists'.mp hstart
    obtain ⟨before, fragment, later, hfragments, hbefore, hfragment, hfront⟩ :=
      exists_last_fragment hpos hbody hstream hsplit hend
    have hcuts' : ¬ CutsLineEnd (before ++ [fragment]) head.bytes.length := by
      rw [hfragments] at hcuts
      exact not_cutsLineEnd_of_append later (by simpa using hcuts)
    obtain ⟨m, hfeed, hm⟩ := feed_knownSize hstatus (by omega) (by omega)
      (transferEncoding_of_none hencoding) hfront (by omega) (by rw [List.length_take]; omega) hcuts'
    exact ⟨before, fragment, later, m, hfragments, hbefore, hfragment, hfeed, hm⟩

def twoByteHead : ResponseHead where
  startLine := lit "HTTP/1.1 200 OK"
  lines := [lit "Content-Length: 2"]
  startLine_plain := plain_ok
  lines_plain := by decide

theorem cutAtLength_of_boundary :
    CutAtLength twoByteHead 2 (lit "abc") [twoByteHead.bytes ++ lit "a", lit "b", lit "c"] := by
  refine (cutAtLength_iff (by decide) (by decide) (by decide) (by decide) (by decide)
    (not_cutsLineEnd_of_first (by decide))).mpr ⟨by decide, by decide, ?_⟩
  exact ⟨[twoByteHead.bytes ++ lit "a", lit "b"], [lit "c"], rfl, by decide⟩

/-- A surplus byte in the fragment that brings the last byte of the body is added to the body. -/
theorem not_cutAtLength_of_surplus :
    ¬ ∀ (head : ResponseHead) (n : Nat) (body : Str) (fragments : List Str), 0 < n →
      contentLength head.headers = n → head.headers.get (lit "Transfer-Encoding") = none →
      n ≤ body.length → fragments.flatten = head.bytes ++ body →
      ¬ CutsLineEnd fragments head.bytes.length → CutAtLength head n body fragments := by
  intro h
  obtain ⟨before, fragment, later, m, hsplit, -, -, hfeed, hm⟩ :=
    h twoByteHead 2 (lit "abc") [twoByteHead.bytes ++ lit "abc"] (by decide) (by decide) (by decide)
      (by decide) (by decide) (not_cutsLineEnd_of_first (by decide))
  obtain ⟨rfl, rfl⟩ : before = [] ∧ fragment = twoByteHead.bytes ++ lit "abc" := by
    cases before with
    | nil => exact ⟨rfl, (List.cons.inj hsplit).1.symm⟩
    | cons f before => simp at hsplit
  have hbody : (feed fresh [twoByteHead.bytes ++ lit "abc"]).map (fun run => run.2.derived.body)
      = some (lit "abc") := by decide
  rw [List.nil_append, List.length_nil] at hfeed
  rw [hfeed, Option.map_some, hm] at hbody
  exact absurd hbody (by decide)

end Rikitiki.IResponseMemory
