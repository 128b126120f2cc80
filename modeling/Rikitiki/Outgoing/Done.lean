import Rikitiki.Outgoing.Draft

/-!
# What `Done` leaves behind

`Done` never reaches the state `FINISHED`: it returns in `HEADERS`, where it leaves the writer ready for
another head. So a writer that is done takes headers and payload as before, and every further `Done`
sends the end of an empty response once more.
-/

namespace Rikitiki

inductive Call where
  | stream (op : Op)
  | done
  deriving DecidableEq, Repr

namespace OResponseWriter

def call (w : OResponseWriter) : Call → Option Exception × OResponseWriter
  | .stream op => w.step op
  | .done => (w.done.error, w.done.state)

/-- A fresh writer after some operations and `Done`. -/
def closed (ops : List Op) : OResponseWriter := (Machine.run step fresh ops).2.done.state

/-- What it means that a writer is done: no call appends a byte, and what would is refused. -/
structure Terminal (w : OResponseWriter) : Prop where
  silent : ∀ calls : List Call, (Machine.run call w calls).2.wire = w.wire
  refuses_field : ∀ field : Field, (w.stream (.field field)).error ≠ none
  refuses_payload : ∀ data : Str, (w.stream (.payload data)).error ≠ none

/-- The state a writer is in behind `Done`. -/
structure Reopened (w : OResponseWriter) : Prop where
  state : w.streamState = .headers
  contentSize : w.contentSize = npos
  encoding : w.encoding = .unknown

def emptyEnd : Str := headerLine (lengthField 0) ++ crlf

theorem emptyEnd_ne_nil : emptyEnd ≠ [] := by simp [emptyEnd, crlf]

theorem reopened_doneWriter (d : Draft) : Reopened d.doneWriter := by
  obtain ⟨status, phase⟩ := d
  cases phase with
  | opening => exact ⟨rfl, rfl, rfl⟩
  | heading sent fields => exact ⟨rfl, rfl, rfl⟩
  | writing sent fields body => exact ⟨rfl, rfl, rfl⟩

theorem closed_eq (ops : List Op) : closed ops = (Draft.ofOps ops).doneWriter := by
  rw [closed, run_fresh, Draft.done_writer, Result.state_returns]

theorem done_eq_closed (ops : List Op) :
    (Machine.run step fresh ops).2.done = .returns () (closed ops) := by
  rw [run_fresh, Draft.done_writer, closed_eq]

/-- **What a writer in its default configuration sends**, whatever is streamed into it: a response with
the status in effect at the first field or payload, the headers in front of the first payload, and all
payload, whose length it adds. -/
theorem closed_wire (ops : List Op) : (closed ops).wire
    = render (statusInEffect .ok ops) (acceptedFields ops) (payloadOf ops) := by
  obtain ⟨-, -, hsent, hfields, hbody⟩ := Draft.ofOps_eq ops
  rw [closed_eq, ← hsent, ← hfields, ← hbody]
  rfl

theorem reopened_closed (ops : List Op) : Reopened (closed ops) := by
  rw [closed_eq]
  exact reopened_doneWriter _

theorem Reopened.writeHeader {w : OResponseWriter} (h : Reopened w) (header : Header) :
    w.writeHeader header = .returns () (w.writeData (headerLine header)) := by
  rw [OResponseWriter.writeHeader, h.state]

theorem Reopened.done {w : OResponseWriter} (h : Reopened w) :
    w.done = .returns () (w.writeData emptyEnd) := by
  have hdefault : w.contentSize = npos ∧ w.encoding ≠ .chunked := by simp [h.contentSize, h.encoding]
  rw [OResponseWriter.done, h.state]
  simp only [doneHeaders, if_pos hdefault, h.writeHeader, Result.bind_returns, writeData, emptyEnd,
    lengthField, decimal_zero, List.append_assoc]

theorem Reopened.payload {w : OResponseWriter} (h : Reopened w) (data : Str) :
    (w.stream (.payload data)).error = none := by
  have hbody : BodyType.from w.contentSize w.encoding = .none := by
    simp [BodyType.from, h.contentSize, h.encoding]
  simp [stream, writePayloadData, OMessage.writePayloadData, h.state, hbody]

theorem Reopened.wire_done_again {w : OResponseWriter} (h : Reopened w) (n : Nat) :
    (Machine.run call w (List.replicate n .done)).2.wire
      = w.wire ++ (List.replicate n emptyEnd).flatten := by
  induction n generalizing w with
  | zero => simp
  | succ n ih =>
      have hnext : Reopened (w.writeData emptyEnd) := ⟨h.state, h.contentSize, h.encoding⟩
      rw [List.replicate_succ, Machine.run_cons, call, h.done, Result.state_returns, ih hnext,
        List.replicate_succ, List.flatten_cons, ← List.append_assoc]
      rfl

/-- **`Done` is never terminal.** Whatever has been streamed into the writer, a second `Done` sends more
bytes, a header is accepted and sent, and a payload is accepted. -/
theorem not_terminal (ops : List Op) :
    (Machine.run step fresh ops).2.done = .returns () (closed ops) ∧ ¬ Terminal (closed ops) ∧
      (∀ n, (Machine.run call (closed ops) (List.replicate n .done)).2.wire
        = (closed ops).wire ++ (List.replicate n emptyEnd).flatten) ∧
      (∀ field : Field, (closed ops).stream (.field field)
        = .returns () ((closed ops).writeData (headerLine field.toHeader))) ∧
      ∀ data : Str, ((closed ops).stream (.payload data)).error = none := by
  have h := reopened_closed ops
  refine ⟨done_eq_closed ops, ?_, h.wire_done_again, fun field => h.writeHeader field.toHeader, h.payload⟩
  intro hterminal
  have hwire := h.wire_done_again 1
  rw [hterminal.silent] at hwire
  exact emptyEnd_ne_nil (by simpa using hwire)

theorem not_terminal_of_payload : ¬ Terminal (closed [.payload (lit "hi")]) := by
  intro h
  have hsilent := h.silent [.done]
  exact absurd hsilent (by decide)

end OResponseWriter

end Rikitiki
