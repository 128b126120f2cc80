import Rikitiki.Outgoing.Done

/-!
# The two back-ends of `OResponse`

`OResponseMemory` takes every operation: it has no start line to commit to, looks at no state for a
header, and replaces a content type where the writer adds to it. `agree_iff` says for which lists of
operations none of this shows.
-/

namespace Rikitiki

/-! ### Stored content types -/

namespace HeaderCollection

def contentTypeText (headers : HeaderCollection) : Str := (headers.get (lit "Content-Type")).getD []

theorem contentTypeText_add (headers : HeaderCollection) (name value : Str) :
    (headers.add name value).contentTypeText =
      if name = lit "Content-Type" then
        if 0 < headers.contentTypeText.length then headers.contentTypeText ++ lit ", " ++ value else value
      else headers.contentTypeText := by
  by_cases hname : name = lit "Content-Type"
  · rw [if_pos hname, contentTypeText, hname, get_add_self, Option.getD_some]
    rfl
  · rw [if_neg hname, contentTypeText, get_add_of_ne _ hname]
    rfl

theorem set_contentType (headers : HeaderCollection) (type : ContentType) :
    headers.set (lit "Content-Type") type.toString
      = headers.insert (lit "Content-Type") type.toString := by
  rw [set, cstr_eq_self (by decide), cstr_eq_self type.nul_notMem_toString]

theorem set_eq_add {headers : HeaderCollection} (hnone : headers.contentTypeText = [])
    (type : ContentType) : headers.set (lit "Content-Type") type.toString
      = headers.add (lit "Content-Type") type.toString := by
  rw [set_contentType, add]
  change _ = headers.insert _ (if 0 < headers.contentTypeText.length then _ else headers.contentTypeText ++ _)
  rw [hnone]
  rfl

theorem contentTypeText_set (headers : HeaderCollection) (type : ContentType) :
    (headers.set (lit "Content-Type") type.toString).contentTypeText = type.toString := by
  rw [set_contentType, contentTypeText, get_insert, if_pos rfl]
  rfl

end HeaderCollection

/-! ### The message in memory -/

namespace OResponseMemory

def Writable (m : OResponseMemory) : Prop := m.streamState = .startLine ∨ m.streamState = .body

theorem writePayloadData_eq {m : OResponseMemory} (h : Writable m) (data : Str) :
    ∃ m', m.writePayloadData data = .returns data.length m' ∧ Writable m' ∧ m'.status = m.status ∧
      m'.headers = m.headers ∧ m'.body = m.body ++ data := by
  rcases h with h | h
  · simp [writePayloadData, OMessage.writePayloadData, h, Writable]
  · simp [writePayloadData, OMessage.writePayloadData, h, Writable]

/-- The headers after an operation. -/
def store (headers : HeaderCollection) : Op → HeaderCollection
  | .field (.contentType type) => headers.set (lit "Content-Type") type.toString
  | op => headers.addAll op.toHeader?.toList

theorem step_eq {m : OResponseMemory} (h : Writable m) (op : Op) :
    (m.step op).1 = none ∧ Writable (m.step op).2 ∧
      (m.step op).2.status = op.status?.getD m.status ∧ (m.step op).2.headers = store m.headers op ∧
      (m.step op).2.body = m.body ++ op.data := by
  cases op with
  | status s => exact ⟨rfl, h, rfl, rfl, (List.append_nil _).symm⟩
  | field f =>
      cases f with
      | header header => exact ⟨rfl, h, rfl, rfl, (List.append_nil _).symm⟩
      | cookie cookie => exact ⟨rfl, h, rfl, rfl, (List.append_nil _).symm⟩
      | contentType type => exact ⟨rfl, h, rfl, rfl, (List.append_nil _).symm⟩
  | payload data =>
      obtain ⟨m', hwrite, hwritable, hstatus, hheaders, hbody⟩ := writePayloadData_eq h data
      have hstep : m.step (.payload data) = (none, m') := by
        rw [step, stream, hwrite]
        rfl
      rw [hstep]
      exact ⟨rfl, hwritable, hstatus, hheaders, hbody⟩

theorem run_eq {m : OResponseMemory} (h : Writable m) (ops : List Op) :
    (Machine.run step m ops).1 = List.replicate ops.length none ∧
      (Machine.run step m ops).2.status = lastStatus m.status ops ∧
      (Machine.run step m ops).2.headers = ops.foldl store m.headers ∧
      (Machine.run step m ops).2.body = m.body ++ payloadOf ops := by
  induction ops generalizing m with
  | nil => exact ⟨rfl, rfl, rfl, (List.append_nil _).symm⟩
  | cons op ops ih =>
      obtain ⟨hnone, hwritable, hstatus, hheaders, hbody⟩ := step_eq h op
      obtain ⟨hnones, hlast, hstored, hpayload⟩ := ih hwritable
      rw [Machine.run_cons]
      refine ⟨?_, ?_, ?_, ?_⟩
      · rw [hnone, hnones, List.length_cons, List.replicate_succ]
      · rw [hlast, hstatus, lastStatus]
      · rw [hstored, hheaders, List.foldl_cons]
      · rw [hpayload, hbody, payloadOf, payloadOf, List.flatMap_cons, List.append_assoc]

end OResponseMemory

/-! ### When a content type replaces nothing -/

def Op.isContentType : Op → Bool
  | .field (.contentType _) => true
  | _ => false

theorem Op.exists_of_isContentType {op : Op} (h : op.isContentType = true) :
    ∃ type, op = .field (.contentType type) := by
  cases op with
  | status s => cases h
  | field f =>
      cases f with
      | header header => cases h
      | cookie cookie => cases h
      | contentType type => exact ⟨type, rfl⟩
  | payload data => cases h

/-- An operation that stores some text as the content type. -/
def Op.WritesContentType (op : Op) : Prop :=
  ∃ header, op.toHeader? = some header ∧ header.name = lit "Content-Type" ∧ header.value ≠ []

/-- No content type is set once there is one. -/
def ContentTypeOnce (ops : List Op) : Prop :=
  ops.Pairwise fun earlier later => earlier.WritesContentType → later.isContentType = false

def collect (headers : HeaderCollection) (op : Op) : HeaderCollection :=
  headers.addAll op.toHeader?.toList

theorem foldl_collect (headers : HeaderCollection) (ops : List Op) :
    ops.foldl collect headers = headers.addAll (fieldsOf ops) := by
  induction ops generalizing headers with
  | nil => rfl
  | cons op ops ih =>
      rw [List.foldl_cons, ih, collect, ← HeaderCollection.addAll_append, fieldsOf, fieldsOf]
      cases op <;> rfl

open OResponseMemory (store)

theorem store_of_not_contentType {op : Op} (h : op.isContentType = false) (headers : HeaderCollection) :
    store headers op = collect headers op := by
  cases op with
  | status s => rfl
  | field f =>
      cases f with
      | header header => rfl
      | cookie cookie => rfl
      | contentType type => cases h
  | payload data => rfl

theorem collect_contentType (headers : HeaderCollection) (type : ContentType) :
    collect headers (.field (.contentType type)) = headers.add (lit "Content-Type") type.toString := rfl

theorem contentTypeText_collect_ne_nil {headers : HeaderCollection} {op : Op} :
    (collect headers op).contentTypeText ≠ [] ↔ headers.contentTypeText ≠ [] ∨ op.WritesContentType := by
  cases hop : op.toHeader? with
  | none => simp [collect, hop, Op.WritesContentType]
  | some header =>
      have hcollect : collect headers op = headers.add header.name header.value := by
        rw [collect, hop]
        rfl
      rw [hcollect, HeaderCollection.contentTypeText_add, Op.WritesContentType, hop]
      by_cases hname : header.name = lit "Content-Type"
      · by_cases hnone : headers.contentTypeText = []
        · simp [hname, hnone]
        · simp [hname, hnone, List.length_pos_iff]
      · simp [hname]

theorem contentTypeText_lt {stored added : HeaderCollection}
    (h : stored.contentTypeText.length < added.contentTypeText.length) (op : Op) :
    (store stored op).contentTypeText.length < (collect added op).contentTypeText.length := by
  cases htype : op.isContentType with
  | true =>
      obtain ⟨type, rfl⟩ := Op.exists_of_isContentType htype
      rw [store, HeaderCollection.contentTypeText_set, collect_contentType,
        HeaderCollection.contentTypeText_add, if_pos rfl, if_pos (by omega)]
      simp only [List.length_append]
      omega
  | false =>
      rw [store_of_not_contentType htype]
      cases hop : op.toHeader? with
      | none => simpa [collect, hop] using h
      | some header =>
          have hcollect : ∀ headers, collect headers op = headers.add header.name header.value := by
            intro headers
            rw [collect, hop]
            rfl
          rw [hcollect, hcollect, HeaderCollection.contentTypeText_add,
            HeaderCollection.contentTypeText_add]
          split
          · split
            · rw [if_pos (by omega)]
              simp only [List.length_append]
              omega
            · rw [if_pos (by omega)]
              simp only [List.length_append, show (lit ", ").length = 2 from rfl]
              omega
          · exact h

theorem foldl_ne_of_lt {stored added : HeaderCollection}
    (h : stored.contentTypeText.length < added.contentTypeText.length) (ops : List Op) :
    ops.foldl store stored ≠ ops.foldl collect added := by
  induction ops generalizing stored added with
  | nil =>
      intro heq
      rw [List.foldl_nil, List.foldl_nil] at heq
      rw [heq] at h
      exact lt_irrefl _ h
  | cons op ops ih => exact ih (contentTypeText_lt h op)

theorem store_eq_collect {headers : HeaderCollection} {op : Op}
    (h : headers.contentTypeText ≠ [] → op.isContentType = false) :
    store headers op = collect headers op := by
  cases htype : op.isContentType with
  | false => exact store_of_not_contentType htype headers
  | true =>
      obtain ⟨type, rfl⟩ := Op.exists_of_isContentType htype
      have hnone : headers.contentTypeText = [] := by
        by_contra hsome
        rw [h hsome] at htype
        cases htype
      rw [store, collect_contentType]
      exact HeaderCollection.set_eq_add hnone type

theorem foldl_store_eq {headers : HeaderCollection} {ops : List Op} :
    ops.foldl store headers = ops.foldl collect headers ↔
      (headers.contentTypeText ≠ [] → ∀ op ∈ ops, op.isContentType = false) ∧ ContentTypeOnce ops := by
  induction ops generalizing headers with
  | nil => simp [ContentTypeOnce]
  | cons op ops ih =>
      rw [List.foldl_cons, List.foldl_cons, ContentTypeOnce, List.pairwise_cons, ← ContentTypeOnce,
        List.forall_mem_cons]
      by_cases hreplaces : headers.contentTypeText ≠ [] → op.isContentType = false
      · rw [store_eq_collect hreplaces, ih, contentTypeText_collect_ne_nil]
        constructor
        · rintro ⟨hnone, honce⟩
          exact ⟨fun h => ⟨hreplaces h, hnone (.inl h)⟩, fun later hlater h => hnone (.inr h) later hlater,
            honce⟩
        · rintro ⟨hnone, hwrites, honce⟩
          refine ⟨?_, honce⟩
          rintro (h | h)
          · exact (hnone h).2
          · exact fun later hlater => hwrites later hlater h
      · obtain ⟨hsome, htype⟩ := Classical.not_imp.mp hreplaces
        obtain ⟨type, rfl⟩ := Op.exists_of_isContentType (Bool.eq_true_of_not_eq_false htype)
        have hlt : (store headers (.field (.contentType type))).contentTypeText.length
            < (collect headers (.field (.contentType type))).contentTypeText.length := by
          rw [store, HeaderCollection.contentTypeText_set, collect_contentType,
            HeaderCollection.contentTypeText_add, if_pos rfl, if_pos (List.length_pos_iff.mpr hsome)]
          simp only [List.length_append, show (lit ", ").length = 2 from rfl]
          omega
        constructor
        · intro heq
          exact absurd heq (foldl_ne_of_lt hlt ops)
        · intro h
          exact absurd (h.1 hsome).1 htype

/-! ### Agreement -/

/-- **The back-ends agree** on a list of operations: they accept the same ones, and what the writer has
sent when it is done is the status, the accepted headers and the body that the message in memory holds,
the length added. -/
structure Agree (ops : List Op) : Prop where
  verdicts : (Machine.run OResponseWriter.step .fresh ops).1 = (Machine.run OResponseMemory.step .fresh ops).1
  wire : (OResponseWriter.closed ops).wire
    = render (Machine.run OResponseMemory.step .fresh ops).2.status (acceptedFields ops)
        (Machine.run OResponseMemory.step .fresh ops).2.body
  headers : (Machine.run OResponseMemory.step .fresh ops).2.headers
    = HeaderCollection.addAll ∅ (acceptedFields ops)

/-- **When the back-ends agree**: no field comes behind a payload, no status is set behind the first field
or payload that differs in the end, and no content type is set where one has been written. -/
theorem agree_iff (ops : List Op) :
    Agree ops ↔ FieldsFirst ops ∧ lastStatus .ok ops = statusInEffect .ok ops ∧ ContentTypeOnce ops := by
  obtain ⟨hnone, hstatus, hheaders, hbody⟩ :=
    OResponseMemory.run_eq (m := .fresh) (.inl rfl) ops
  have hempty : HeaderCollection.contentTypeText ∅ = [] := rfl
  have hstored : ops.foldl store ∅ = HeaderCollection.addAll ∅ (fieldsOf ops) ↔ ContentTypeOnce ops := by
    rw [← foldl_collect, foldl_store_eq]
    simp [hempty]
  constructor
  · rintro ⟨hverdicts, hwire, hsame⟩
    rw [hnone, OResponseWriter.run_verdicts] at hverdicts
    have hfirst := verdicts_false_eq.mp hverdicts
    rw [OResponseWriter.closed_wire, hstatus, hbody] at hwire
    rw [hheaders, acceptedFields_of_fieldsFirst hfirst] at hsame
    exact ⟨hfirst, (render_inj_status.mp hwire).symm, hstored.mp hsame⟩
  · rintro ⟨hfirst, hlast, honce⟩
    refine ⟨?_, ?_, ?_⟩
    · rw [hnone, OResponseWriter.run_verdicts]
      exact verdicts_false_eq.mpr hfirst
    · rw [OResponseWriter.closed_wire, hstatus, hbody]
      exact render_inj_status.mpr hlast.symm
    · rw [hheaders, acceptedFields_of_fieldsFirst hfirst]
      exact hstored.mpr honce

/-- A header behind a payload is kept in memory and refused by the writer. -/
theorem not_agree_of_late_header :
    ¬ Agree [.payload (lit "hi"), .field (.header ⟨lit "A", lit "a"⟩)] := by
  intro h
  have hverdicts := h.verdicts
  exact absurd hverdicts (by decide)

end Rikitiki
