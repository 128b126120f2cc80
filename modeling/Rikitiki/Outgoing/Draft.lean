import Rikitiki.Library.Machine
import Rikitiki.Outgoing.Message

/-!
# Drafts of a response

A draft is what a writer in its default configuration stands for: a response whose status is fixed by
the first field or payload, whose fields are closed by the first payload, and whose length is known when
it is done. The writer refines it (`step_writer`), and `done` sends it as `render` lays it out.
-/

namespace Rikitiki

/-- The header that says how long a body is. -/
def lengthField (n : Nat) : Header := ⟨lit "Content-Length", decimal n⟩

def fieldLines (fields : List Header) : Str := (fields.map headerLine).flatten

@[simp] theorem fieldLines_nil : fieldLines [] = [] := rfl

@[simp] theorem fieldLines_append (fields more : List Header) :
    fieldLines (fields ++ more) = fieldLines fields ++ fieldLines more := by
  simp [fieldLines]

@[simp] theorem fieldLines_singleton (field : Header) : fieldLines [field] = headerLine field := by
  simp [fieldLines]

/-- A response of known size on the wire. -/
def render (status : HttpStatus) (fields : List Header) (body : Str) : Str :=
  statusLine status ++ (fieldLines (fields ++ [lengthField body.length]) ++ (crlf ++ body))

theorem render_inj_status {s t : HttpStatus} {fields : List Header} {body : Str} :
    render s fields body = render t fields body ↔ s = t := by
  constructor
  · exact fun h => statusLine_injective (List.append_cancel_right h)
  · rintro rfl
    rfl

/-! ### The abstract state -/

inductive Phase where
  | opening
  | heading (sent : HttpStatus) (fields : List Header)
  | writing (sent : HttpStatus) (fields : List Header) (body : Str)
  deriving DecidableEq, Repr

structure Draft where
  status : HttpStatus := .ok
  phase : Phase := .opening
  deriving DecidableEq, Repr

namespace Draft

/-- The status the response is sent with, if it is sent now or has been. -/
def sent (d : Draft) : HttpStatus :=
  match d.phase with
  | .opening => d.status
  | .heading sent _ => sent
  | .writing sent _ _ => sent

def fields (d : Draft) : List Header :=
  match d.phase with
  | .opening => []
  | .heading _ fields => fields
  | .writing _ fields _ => fields

def body (d : Draft) : Str :=
  match d.phase with
  | .writing _ _ body => body
  | _ => []

def late : Exception := .invalidStateException "Could not write header"

def step (d : Draft) : Op → Option Exception × Draft
  | .status status => (none, { d with status := status })
  | .field field =>
    match d.phase with
    | .writing _ _ _ => (some late, d)
    | _ => (none, { d with phase := .heading d.sent (d.fields ++ [field.toHeader]) })
  | .payload data => (none, { d with phase := .writing d.sent d.fields (d.body ++ data) })

def writer (d : Draft) : OResponseWriter :=
  match d.phase with
  | .opening => { status := d.status }
  | .heading sent fields =>
    { status := d.status
      streamState := .headers
      wire := statusLine sent ++ fieldLines fields }
  | .writing sent fields body =>
    { status := d.status
      streamState := .body
      bodyType := .buffering
      buffer := body
      wire := statusLine sent ++ fieldLines fields }

/-! ### Refinement -/

theorem writer_status (d : Draft) (status : HttpStatus) :
    { d.writer with status := status } = ({ d with status := status } : Draft).writer := by
  obtain ⟨current, phase⟩ := d
  cases phase with
  | opening => rfl
  | heading sent fields => rfl
  | writing sent fields body => rfl

theorem writeHeader_writer (d : Draft) (field : Field) :
    ((d.writer.writeHeader field.toHeader).error, (d.writer.writeHeader field.toHeader).state)
      = ((d.step (.field field)).1, (d.step (.field field)).2.writer) := by
  obtain ⟨current, phase⟩ := d
  cases phase with
  | opening => simp [writer, step, sent, fields, OResponseWriter.writeHeader,
      OResponseWriter.writeStartLine, OResponseWriter.writeData, OResponseWriter.setState]
  | heading sent fields => simp [writer, step, Draft.sent, Draft.fields, OResponseWriter.writeHeader,
      OResponseWriter.writeData]
  | writing sent fields body => rfl

theorem writePayloadData_writer (d : Draft) (data : Str) :
    d.writer.writePayloadData data = .returns data.length (d.step (.payload data)).2.writer := by
  obtain ⟨current, phase⟩ := d
  cases phase with
  | opening => simp [writer, step, sent, fields, body, OResponseWriter.writePayloadData,
      OMessage.writePayloadData, BodyType.from, OResponseWriter.writeStartLine, OResponseWriter.writeData]
  | heading sent fields => simp [writer, step, Draft.sent, Draft.fields, body,
      OResponseWriter.writePayloadData, OMessage.writePayloadData, BodyType.from]
  | writing sent fields body => simp [writer, step, Draft.sent, Draft.fields, Draft.body,
      OResponseWriter.writePayloadData, OMessage.writePayloadData]

/-- **The writer refines the draft.** -/
theorem step_writer (d : Draft) (op : Op) :
    d.writer.step op = ((d.step op).1, (d.step op).2.writer) := by
  cases op with
  | status status =>
      rw [OResponseWriter.step, OResponseWriter.stream, writer_status]
      rfl
  | field field => exact writeHeader_writer d field
  | payload data =>
      rw [OResponseWriter.step, OResponseWriter.stream, writePayloadData_writer]
      rfl

theorem run_writer (d : Draft) (ops : List Op) :
    Machine.run OResponseWriter.step d.writer ops
      = ((Machine.run Draft.step d ops).1, (Machine.run Draft.step d ops).2.writer) :=
  Machine.run_embed step_writer d ops

def doneWriter (d : Draft) : OResponseWriter :=
  { d.writer with streamState := .headers, wire := render d.sent d.fields d.body }

/-- **`Done` sends the draft.** -/
theorem done_writer (d : Draft) : d.writer.done = .returns () d.doneWriter := by
  obtain ⟨current, phase⟩ := d
  cases phase with
  | opening => simp [writer, doneWriter, sent, fields, body, render, lengthField, OResponseWriter.done,
      OResponseWriter.doneHeaders, OResponseWriter.writeHeader, OResponseWriter.writeStartLine,
      OResponseWriter.writeData, OResponseWriter.setState, decimal_zero]
  | heading sent fields => simp [writer, doneWriter, Draft.sent, Draft.fields, body, render, lengthField,
      OResponseWriter.done, OResponseWriter.doneHeaders, OResponseWriter.writeHeader,
      OResponseWriter.writeData, decimal_zero]
  | writing sent fields body => simp [writer, doneWriter, Draft.sent, Draft.fields, Draft.body, render,
      lengthField, OResponseWriter.done, OResponseWriter.doneBody, OResponseWriter.writeHeader,
      OResponseWriter.writeData, OResponseWriter.setState]

/-! ### What a list of operations describes -/

def ofOps (ops : List Op) : Draft := (Machine.run step {} ops).2

end Draft

def lastStatus (status : HttpStatus) : List Op → HttpStatus
  | [] => status
  | op :: ops => lastStatus (op.status?.getD status) ops

theorem lastStatus_append (status : HttpStatus) (ops more : List Op) :
    lastStatus status (ops ++ more) = lastStatus (lastStatus status ops) more := by
  induction ops generalizing status with
  | nil => rfl
  | cons op ops ih => exact ih (op.status?.getD status)

/-- The status in effect when the first field or payload is written, or at the end. -/
def statusInEffect (status : HttpStatus) : List Op → HttpStatus
  | .status s :: ops => statusInEffect s ops
  | _ => status

/-- The headers written in front of the first payload. -/
def acceptedFields : List Op → List Header
  | [] => []
  | .payload _ :: _ => []
  | op :: ops => op.toHeader?.toList ++ acceptedFields ops

def payloadOf (ops : List Op) : Str := ops.flatMap Op.data

/-- What becomes of each operation: a field is refused once there has been a payload. -/
def verdicts (written : Bool) : List Op → List (Option Exception)
  | [] => []
  | op :: ops =>
    (if written && op.toHeader?.isSome then some Draft.late else none)
      :: verdicts (written || op.isPayload) ops

namespace Draft

theorem step_status (d : Draft) (op : Op) : (d.step op).2.status = op.status?.getD d.status := by
  obtain ⟨status, phase⟩ := d
  cases op <;> cases phase <;> rfl

def written (d : Draft) : Bool :=
  match d.phase with
  | .writing _ _ _ => true
  | _ => false

theorem step_verdict (d : Draft) (op : Op) :
    (d.step op).1 = if d.written && op.toHeader?.isSome then some late else none := by
  obtain ⟨status, phase⟩ := d
  cases op <;> cases phase <;> rfl

theorem step_written (d : Draft) (op : Op) : (d.step op).2.written = (d.written || op.isPayload) := by
  obtain ⟨status, phase⟩ := d
  cases op <;> cases phase <;> rfl

theorem step_body (d : Draft) (op : Op) : (d.step op).2.body = d.body ++ op.data := by
  obtain ⟨status, phase⟩ := d
  cases op <;> cases phase <;> simp [step, body, Op.data]

theorem step_fields (d : Draft) (op : Op) : (d.step op).2.fields =
    if d.written then d.fields else d.fields ++ op.toHeader?.toList := by
  obtain ⟨status, phase⟩ := d
  cases op <;> cases phase <;> simp [step, fields, written, Op.toHeader?]

theorem run_status (d : Draft) (ops : List Op) :
    (Machine.run step d ops).2.status = lastStatus d.status ops := by
  induction ops generalizing d with
  | nil => rfl
  | cons op ops ih => rw [Machine.run_cons, ih, lastStatus, step_status]

theorem run_verdicts (d : Draft) (ops : List Op) :
    (Machine.run step d ops).1 = verdicts d.written ops := by
  induction ops generalizing d with
  | nil => rfl
  | cons op ops ih => rw [Machine.run_cons, ih, verdicts, step_verdict, step_written]

theorem run_body (d : Draft) (ops : List Op) :
    (Machine.run step d ops).2.body = d.body ++ payloadOf ops := by
  induction ops generalizing d with
  | nil => simp [payloadOf]
  | cons op ops ih => rw [Machine.run_cons, ih, step_body, payloadOf, payloadOf, List.flatMap_cons,
      List.append_assoc]

theorem run_fields (d : Draft) (ops : List Op) : (Machine.run step d ops).2.fields =
    if d.written then d.fields else d.fields ++ acceptedFields ops := by
  induction ops generalizing d with
  | nil => simp [acceptedFields]
  | cons op ops ih =>
      rw [Machine.run_cons, ih, step_written, step_fields]
      cases hwritten : d.written with
      | true => simp
      | false =>
          cases op <;> simp [acceptedFields, Op.isPayload, Op.toHeader?]

theorem run_sent_of_opened {d : Draft} (hopened : d.phase ≠ .opening) (ops : List Op) :
    (Machine.run step d ops).2.sent = d.sent := by
  induction ops generalizing d with
  | nil => rfl
  | cons op ops ih =>
      have hstep : (d.step op).2.phase ≠ .opening ∧ (d.step op).2.sent = d.sent := by
        obtain ⟨status, phase⟩ := d
        cases op <;> cases phase <;> simp_all [step, sent]
      rw [Machine.run_cons, ih hstep.1, hstep.2]

theorem run_sent {d : Draft} (hopening : d.phase = .opening) (ops : List Op) :
    (Machine.run step d ops).2.sent = statusInEffect d.status ops := by
  obtain ⟨status, phase⟩ := d
  obtain rfl : phase = .opening := hopening
  induction ops generalizing status with
  | nil => rfl
  | cons op ops ih =>
      cases op with
      | status s => exact ih s
      | field f => exact run_sent_of_opened (by simp) ops
      | payload data => exact run_sent_of_opened (by simp) ops

/-- **What a writer has been told**, read off the list of operations. -/
theorem ofOps_eq (ops : List Op) :
    (Machine.run step {} ops).1 = verdicts false ops ∧ (ofOps ops).status = lastStatus .ok ops ∧
      (ofOps ops).sent = statusInEffect .ok ops ∧ (ofOps ops).fields = acceptedFields ops ∧
      (ofOps ops).body = payloadOf ops := by
  refine ⟨run_verdicts _ ops, run_status _ ops, run_sent rfl ops, ?_, run_body _ ops⟩
  rw [ofOps, run_fields]
  rfl

end Draft

/-! ### When no field comes behind a payload -/

def fieldsOf (ops : List Op) : List Header := ops.filterMap Op.toHeader?

def FieldsFirst (ops : List Op) : Prop :=
  ops.Pairwise fun earlier later => earlier.isPayload = true → later.toHeader? = none

theorem verdicts_true_eq {ops : List Op} :
    verdicts true ops = List.replicate ops.length none ↔ ∀ op ∈ ops, op.toHeader? = none := by
  induction ops with
  | nil => simp [verdicts]
  | cons op ops ih => simp [verdicts, List.replicate_succ, ih]

theorem verdicts_false_eq {ops : List Op} :
    verdicts false ops = List.replicate ops.length none ↔ FieldsFirst ops := by
  induction ops with
  | nil => simp [verdicts, FieldsFirst]
  | cons op ops ih =>
      rw [FieldsFirst, List.pairwise_cons, ← FieldsFirst, ← ih]
      cases hpayload : op.isPayload with
      | true =>
          have htrue : (∀ op ∈ ops, op.toHeader? = none) → verdicts false ops = List.replicate ops.length none := by
            intro h
            rw [ih]
            exact List.pairwise_of_forall_mem_list fun _ _ later hlater _ => h later hlater
          simp only [verdicts, hpayload, Bool.false_and, Bool.false_eq_true, if_false, Bool.or_true,
            List.length_cons, List.replicate_succ, List.cons.injEq, true_and, verdicts_true_eq, forall_const]
          exact ⟨fun h => ⟨h, htrue h⟩, fun h => h.1⟩
      | false => simp [verdicts, hpayload, List.replicate_succ]

theorem acceptedFields_of_fieldsFirst {ops : List Op} (h : FieldsFirst ops) :
    acceptedFields ops = fieldsOf ops := by
  induction ops with
  | nil => rfl
  | cons op ops ih =>
      obtain ⟨hhead, htail⟩ := List.pairwise_cons.mp h
      cases op with
      | status s => exact ih htail
      | field f => exact congrArg (f.toHeader :: ·) (ih htail)
      | payload data =>
          have hnone : ops.filterMap Op.toHeader? = [] :=
            List.filterMap_eq_nil_iff.mpr fun later hlater => hhead later hlater rfl
          exact hnone.symm

/-- **A fresh writer refuses a field behind a payload, and nothing else.** -/
theorem OResponseWriter.run_verdicts (ops : List Op) :
    (Machine.run OResponseWriter.step .fresh ops).1 = verdicts false ops := by
  have hrun := Draft.run_writer {} ops
  rw [show ({} : Draft).writer = .fresh from rfl] at hrun
  rw [hrun]
  exact (Draft.ofOps_eq ops).1

theorem OResponseWriter.run_fresh (ops : List Op) :
    (Machine.run OResponseWriter.step .fresh ops).2 = (Draft.ofOps ops).writer := by
  have hrun := Draft.run_writer {} ops
  rw [show ({} : Draft).writer = .fresh from rfl] at hrun
  rw [hrun]
  rfl

end Rikitiki
