import Rikitiki.Library.Run
import Mathlib.Logic.Function.Basic

/-!
# The event loop of the clients

All sockets of the Linux client share one `threaded_event_loop`. The constructor of a socket asks for its event
base, puts a connection on it and kicks the loop, which joins the thread that has run the loop before and starts
the next one. A base loops until none of its connections is enabled any more; then its thread gives it up.

The model has one step for each of these actions of the constructing thread, of the thread of the loop, and of the
connections. Constructors are called one after the other. A run ends where a base that has been freed or was never
there is used.
-/

namespace Rikitiki.EventLoop

/-- An event base, in the order of their creation. -/
abbrev BaseId := Nat

abbrev SocketId := Nat

inductive RunEvents where
  | started
  | looping (base : BaseId)
  /-- `event_base_loop` has returned -/
  | left
  /-- `loop->base` is null again, and the base it was is not freed yet -/
  | cleared (base : Option BaseId)
  | ended
  deriving DecidableEq, Repr

/-- `threaded_event_loop`. A thread that is not joinable is `none`. -/
structure ThreadedEventLoop where
  pumpThread : Option RunEvents := none
  base : Option BaseId := none
  running : Bool := false
  deriving DecidableEq, Repr

inductive Call where
  | idle
  /-- it has the base of `get_base` -/
  | asked (base : BaseId)
  | attached
  /-- `kick_events` has called `get_base`, and joins the thread -/
  | joining
  deriving DecidableEq, Repr

structure State where
  loop : ThreadedEventLoop := {}
  bases : Nat := 0
  freed : List BaseId := []
  call : Call := .idle
  /-- how many constructors have returned; the next socket is the one that is being constructed -/
  sockets : Nat := 0
  /-- the base on which the connection of a socket is enabled -/
  enabled : SocketId → Option BaseId := fun _ => none

inductive Event where
  /-- `get_base()->base` in the constructor -/
  | ask
  /-- `connect` fails, and the constructor returns -/
  | refused
  | attach
  | kick
  /-- the old thread is joined and the next one is started, and the constructor returns -/
  | start
  | enter
  | data (socket : SocketId)
  /-- the connection is closed by its listener or by its peer -/
  | closed (socket : SocketId)
  | leave
  | clear
  | free
  deriving DecidableEq, Repr

/-- `get_base` -/
def State.getBase (s : State) : State :=
  match s.loop.base with
  | some _ => s
  | none => { s with loop := { s.loop with base := some s.bases }, bases := s.bases + 1 }

def State.setPump (s : State) (pump : RunEvents) : State :=
  { s with loop := { s.loop with pumpThread := some pump } }

/-- What an event does, with the socket whose `OnData` it calls. -/
def step (s : State) : Event → Option (Option SocketId × State)
  | .ask =>
    match s.call, s.getBase.loop.base with
    | .idle, some base => some (none, { s.getBase with call := .asked base })
    | _, _ => none
  | .refused =>
    match s.call with
    | .asked _ => some (none, { s with call := .idle, sockets := s.sockets + 1 })
    | _ => none
  | .attach =>
    match s.call with
    | .asked base =>
      if base ∈ s.freed then none
      else some (none, { s with call := .attached, enabled := Function.update s.enabled s.sockets (some base) })
    | _ => none
  | .kick =>
    match s.call with
    | .attached =>
      if s.loop.running then some (none, { s.getBase with call := .idle, sockets := s.sockets + 1 })
      else some (none, { s.getBase with call := .joining })
    | _ => none
  | .start =>
    if s.call = .joining ∧ (s.loop.pumpThread = none ∨ s.loop.pumpThread = some .ended) then
      some (none, { s.setPump .started with call := .idle, sockets := s.sockets + 1 })
    else none
  | .enter =>
    match s.loop.pumpThread, s.loop.base with
    | some .started, some base => some (none, s.setPump (.looping base))
    | _, _ => none
  | .data socket =>
    match s.loop.pumpThread with
    | some (.looping base) => if s.enabled socket = some base then some (some socket, s) else none
    | _ => none
  | .closed socket =>
    match s.loop.pumpThread with
    | some (.looping base) =>
      if s.enabled socket = some base then
        some (none, { s with enabled := Function.update s.enabled socket none })
      else none
    | _ => none
  | .leave =>
    match s.loop.pumpThread with
    | some (.looping base) =>
      if ∀ socket < s.sockets + 1, s.enabled socket ≠ some base then some (none, s.setPump .left) else none
    | _ => none
  | .clear =>
    match s.loop.pumpThread with
    | some .left =>
      some (none, { s with loop := { s.loop with base := none, pumpThread := some (.cleared s.loop.base) } })
    | _ => none
  | .free =>
    match s.loop.pumpThread with
    | some (.cleared base) =>
      some (none, { s with
        loop := { s.loop with running := false, pumpThread := some .ended }
        freed := base.toList ++ s.freed })
    | _ => none

/-- `run_events` has still to give up the base. -/
def RunEvents.holdsBase : RunEvents → Bool
  | .started | .looping _ | .left => true
  | .cleared _ | .ended => false

namespace State

def Busy (s : State) : Prop := ∃ pump, s.loop.pumpThread = some pump ∧ pump.holdsBase = true

/-- No thread loops on a base, and none ever will. -/
structure Retired (s : State) (base : BaseId) : Prop where
  created : base < s.bases
  given_up : s.loop.base ≠ some base
  pump : s.loop.pumpThread ≠ some (.looping base)

/-- The constructor of a socket has returned, and its connection can still be served. -/
def UnderWay (s : State) (socket : SocketId) : Prop :=
  socket < s.sockets ∧ ∃ base, s.enabled socket = some base ∧ ¬ s.Retired base

end State

/-! ### What a step can do -/

section

variable (s : State)

@[simp] theorem getBase_pumpThread : s.getBase.loop.pumpThread = s.loop.pumpThread := by
  rw [State.getBase]
  split <;> rfl

@[simp] theorem getBase_running : s.getBase.loop.running = s.loop.running := by
  rw [State.getBase]
  split <;> rfl

@[simp] theorem getBase_sockets : s.getBase.sockets = s.sockets := by
  rw [State.getBase]
  split <;> rfl

@[simp] theorem getBase_call : s.getBase.call = s.call := by
  rw [State.getBase]
  split <;> rfl

@[simp] theorem getBase_enabled : s.getBase.enabled = s.enabled := by
  rw [State.getBase]
  split <;> rfl

theorem getBase_base : s.getBase.loop.base = some (s.loop.base.getD s.bases) := by
  rw [State.getBase]
  split
  · rename_i base hbase
    rw [hbase, Option.getD_some]
  · rename_i hnone
    rw [hnone, Option.getD_none]

theorem bases_le_getBase : s.bases ≤ s.getBase.bases := by
  rw [State.getBase]
  split
  · exact Nat.le_refl s.bases
  · exact Nat.le_succ s.bases

end

inductive Step (s : State) : Event → Option SocketId → State → Prop where
  | ask (hcall : s.call = .idle) :
      Step s .ask none { s.getBase with call := .asked (s.loop.base.getD s.bases) }
  | refused {base : BaseId} (hcall : s.call = .asked base) :
      Step s .refused none { s with call := .idle, sockets := s.sockets + 1 }
  | attach {base : BaseId} (hcall : s.call = .asked base) :
      Step s .attach none
        { s with call := .attached, enabled := Function.update s.enabled s.sockets (some base) }
  | skip (hcall : s.call = .attached) (hrunning : s.loop.running = true) :
      Step s .kick none { s.getBase with call := .idle, sockets := s.sockets + 1 }
  | kick (hcall : s.call = .attached) : Step s .kick none { s.getBase with call := .joining }
  | start (hcall : s.call = .joining) (hpump : s.loop.pumpThread = none ∨ s.loop.pumpThread = some .ended) :
      Step s .start none { s.setPump .started with call := .idle, sockets := s.sockets + 1 }
  | enter {base : BaseId} (hpump : s.loop.pumpThread = some .started) (hbase : s.loop.base = some base) :
      Step s .enter none (s.setPump (.looping base))
  | data {base : BaseId} {socket : SocketId} (hpump : s.loop.pumpThread = some (.looping base))
      (henabled : s.enabled socket = some base) : Step s (.data socket) (some socket) s
  | closed {base : BaseId} {socket : SocketId} (hpump : s.loop.pumpThread = some (.looping base))
      (henabled : s.enabled socket = some base) :
      Step s (.closed socket) none { s with enabled := Function.update s.enabled socket none }
  | leave {base : BaseId} (hpump : s.loop.pumpThread = some (.looping base))
      (hover : ∀ socket < s.sockets + 1, s.enabled socket ≠ some base) : Step s .leave none (s.setPump .left)
  | clear (hpump : s.loop.pumpThread = some .left) :
      Step s .clear none { s with loop := { s.loop with base := none, pumpThread := some (.cleared s.loop.base) } }
  | free {base : Option BaseId} (hpump : s.loop.pumpThread = some (.cleared base)) :
      Step s .free none { s with
        loop := { s.loop with running := false, pumpThread := some .ended }
        freed := base.toList ++ s.freed }

variable {s t : State} {event : Event} {called : Option SocketId}

theorem step_cases (h : step s event = some (called, t)) : Step s event called t := by
  cases event with
  | ask =>
      rw [step, getBase_base] at h
      split at h
      · rename_i base hcall hbase
        obtain rfl := Option.some.inj hbase
        cases h
        exact .ask hcall
      · cases h
  | refused =>
      rw [step] at h
      split at h
      · cases h
        exact .refused ‹_›
      · cases h
  | attach =>
      rw [step] at h
      split at h
      · split at h
        · cases h
        · cases h
          exact .attach ‹_›
      · cases h
  | kick =>
      rw [step] at h
      split at h
      · split at h
        · cases h
          exact .skip ‹_› ‹_›
        · cases h
          exact .kick ‹_›
      · cases h
  | start =>
      rw [step] at h
      split at h
      · rename_i hready
        cases h
        exact .start hready.1 hready.2
      · cases h
  | enter =>
      rw [step] at h
      split at h
      · cases h
        exact .enter ‹_› ‹_›
      · cases h
  | data socket =>
      rw [step] at h
      split at h
      · split at h
        · cases h
          exact .data ‹_› ‹_›
        · cases h
      · cases h
  | closed socket =>
      rw [step] at h
      split at h
      · split at h
        · cases h
          exact .closed ‹_› ‹_›
        · cases h
      · cases h
  | leave =>
      rw [step] at h
      split at h
      · split at h
        · cases h
          exact .leave ‹_› ‹_›
        · cases h
      · cases h
  | clear =>
      rw [step] at h
      split at h
      · cases h
        exact .clear ‹_›
      · cases h
  | free =>
      rw [step] at h
      split at h
      · cases h
        exact .free ‹_›
      · cases h

/-! ### Bases that are given up -/

namespace State

variable {base : BaseId} {socket : SocketId}

theorem Retired.getBase (hs : s.Retired base) : s.getBase.Retired base where
  created := Nat.lt_of_lt_of_le hs.created (bases_le_getBase s)
  given_up := by
    rw [getBase_base]
    intro heq
    cases hbase : s.loop.base with
    | none =>
        rw [hbase, Option.getD_none] at heq
        exact Nat.ne_of_lt hs.created (Option.some.inj heq).symm
    | some other =>
        rw [hbase, Option.getD_some] at heq
        exact hs.given_up (hbase.trans heq)
  pump := by
    rw [getBase_pumpThread]
    exact hs.pump

theorem Retired.step (hs : s.Retired base) (h : step s event = some (called, t)) : t.Retired base := by
  have hsame := hs.getBase
  cases step_cases h with
  | ask hcall => exact ⟨hsame.created, hsame.given_up, hsame.pump⟩
  | refused hcall => exact ⟨hs.created, hs.given_up, hs.pump⟩
  | attach hcall => exact ⟨hs.created, hs.given_up, hs.pump⟩
  | skip hcall hrunning => exact ⟨hsame.created, hsame.given_up, hsame.pump⟩
  | kick hcall => exact ⟨hsame.created, hsame.given_up, hsame.pump⟩
  | start hcall hpump => exact ⟨hs.created, hs.given_up, by simp [setPump]⟩
  | enter hpump hbase =>
      refine ⟨hs.created, hs.given_up, fun heq => ?_⟩
      obtain rfl := RunEvents.looping.inj (Option.some.inj heq)
      exact hs.given_up hbase
  | data hpump henabled => exact hs
  | closed hpump henabled => exact ⟨hs.created, hs.given_up, hs.pump⟩
  | leave hpump hover => exact ⟨hs.created, hs.given_up, by simp [setPump]⟩
  | clear hpump => exact ⟨hs.created, by simp, by simp⟩
  | free hpump => exact ⟨hs.created, hs.given_up, by simp⟩

structure Sound (s : State) : Prop where
  created : ∀ base, s.loop.base = some base → base < s.bases
  looping : ∀ base, s.loop.pumpThread = some (.looping base) → s.loop.base = some base
  running : s.loop.running = false
  asked : ∀ base, s.call = .asked base → base < s.bases
  enabled : ∀ socket base, s.enabled socket = some base → base < s.bases ∧ socket ≤ s.sockets
  waiting : s.call ≠ .attached → s.call ≠ .joining → s.enabled s.sockets = none

theorem sound_initial : Sound {} where
  created base h := by cases h
  looping base h := by cases h
  running := rfl
  asked base h := by cases h
  enabled socket base h := by cases h
  waiting _ _ := rfl

theorem Sound.getBase_created (hs : s.Sound) : s.loop.base.getD s.bases < s.getBase.bases := by
  rw [getBase]
  cases hbase : s.loop.base with
  | none => exact Nat.lt_succ_self s.bases
  | some base => exact hs.created base hbase

theorem Sound.getBase_looping (hs : s.Sound) {base : BaseId} (h : s.loop.pumpThread = some (.looping base)) :
    some (s.loop.base.getD s.bases) = some base := by
  rw [hs.looping base h, Option.getD_some]

theorem Sound.enabled_next (hs : s.Sound) : s.enabled (s.sockets + 1) = none := by
  cases hnext : s.enabled (s.sockets + 1) with
  | none => rfl
  | some base => exact absurd (hs.enabled _ base hnext).2 (Nat.not_succ_le_self s.sockets)

theorem Sound.getBase (hs : s.Sound) : s.getBase.Sound where
  created base hbase := by
    rw [getBase_base] at hbase
    exact Option.some.inj hbase ▸ hs.getBase_created
  looping base hpump := by
    rw [getBase_pumpThread] at hpump
    rw [getBase_base]
    exact hs.getBase_looping hpump
  running := (getBase_running s).trans hs.running
  asked base hasked := by
    rw [getBase_call] at hasked
    exact Nat.lt_of_lt_of_le (hs.asked base hasked) (bases_le_getBase s)
  enabled socket base henabled := by
    rw [getBase_enabled] at henabled
    rw [getBase_sockets]
    obtain ⟨hbase, hsocket⟩ := hs.enabled socket base henabled
    exact ⟨Nat.lt_of_lt_of_le hbase (bases_le_getBase s), hsocket⟩
  waiting hattached hjoining := by
    rw [getBase_call] at hattached hjoining
    rw [getBase_enabled, getBase_sockets]
    exact hs.waiting hattached hjoining

theorem Sound.step (hs : s.Sound) (h : step s event = some (called, t)) : t.Sound := by
  have hlater : ∀ socket base, s.enabled socket = some base → base < s.bases ∧ socket ≤ s.sockets + 1 :=
    fun socket base henabled =>
      ⟨(hs.enabled socket base henabled).1, Nat.le_succ_of_le (hs.enabled socket base henabled).2⟩
  cases step_cases h with
  | ask hcall =>
      have hsame := hs.getBase
      refine ⟨hsame.created, hsame.looping, hsame.running, ?_, hsame.enabled, fun _ _ => hsame.waiting ?_ ?_⟩
      · intro base hasked
        obtain rfl := Call.asked.inj hasked
        exact hs.getBase_created
      · simp [hcall]
      · simp [hcall]
  | refused hcall =>
      exact ⟨hs.created, hs.looping, hs.running, fun base hasked => (by cases hasked), hlater,
        fun _ _ => hs.enabled_next⟩
  | attach hcall =>
      refine ⟨hs.created, hs.looping, hs.running, fun base hasked => (by cases hasked), ?_,
        fun hattached _ => absurd rfl hattached⟩
      intro socket base henabled
      simp only [Function.update_apply] at henabled
      split at henabled
      · rename_i hsocket
        exact ⟨Option.some.inj henabled ▸ hs.asked _ hcall, Nat.le_of_eq hsocket⟩
      · exact hs.enabled socket base henabled
  | skip hcall hrunning =>
      rw [hs.running] at hrunning
      cases hrunning
  | kick hcall =>
      have hsame := hs.getBase
      exact ⟨hsame.created, hsame.looping, hsame.running, fun base hasked => (by cases hasked), hsame.enabled,
        fun _ hjoining => absurd rfl hjoining⟩
  | start hcall hpump =>
      exact ⟨hs.created, fun base hlooping => (by cases hlooping), hs.running, fun base hasked => (by cases hasked),
        hlater, fun _ _ => hs.enabled_next⟩
  | enter hpump hbase =>
      refine ⟨hs.created, fun base hlooping => ?_, hs.running, hs.asked, hs.enabled, hs.waiting⟩
      obtain rfl := RunEvents.looping.inj (Option.some.inj hlooping)
      exact hbase
  | data hpump henabled => exact hs
  | closed hpump henabled =>
      refine ⟨hs.created, hs.looping, hs.running, hs.asked, ?_, ?_⟩
      · intro other base hother
        simp only [Function.update_apply] at hother
        split at hother
        · cases hother
        · exact hs.enabled other base hother
      · intro hattached hjoining
        simp only [Function.update_apply]
        split
        · rfl
        · exact hs.waiting hattached hjoining
  | leave hpump hover =>
      exact ⟨hs.created, fun base hlooping => (by cases hlooping), hs.running, hs.asked, hs.enabled, hs.waiting⟩
  | clear hpump =>
      exact ⟨fun base hbase => (by cases hbase), fun base hlooping => (by cases hlooping), hs.running, hs.asked,
        hs.enabled, hs.waiting⟩
  | free hpump =>
      exact ⟨hs.created, fun base hlooping => (by cases hlooping), rfl, hs.asked, hs.enabled, hs.waiting⟩

/-! ### One request at a time -/

/-- What can be served is what the thread is there for. -/
structure OneRequest (s : State) : Prop where
  serving : ∀ socket, s.UnderWay socket → s.enabled socket = s.loop.base ∧
    ∃ pump, s.loop.pumpThread = some pump ∧ (pump = .started ∨ ∃ base, pump = .looping base)
  unique : ∀ socket other, s.UnderWay socket → s.UnderWay other → socket = other

theorem oneRequest_initial : OneRequest {} where
  serving socket h := absurd h.1 (Nat.not_lt_zero socket)
  unique socket _ h := absurd h.1 (Nat.not_lt_zero socket)

theorem UnderWay.enabled_base (hs : s.Sound) {pump : RunEvents} (hpump : s.loop.pumpThread = some pump)
    (hlooping : ∀ base, pump ≠ .looping base) (h : s.UnderWay socket) : s.enabled socket = s.loop.base := by
  obtain ⟨-, base, henabled, hretired⟩ := h
  by_contra hne
  refine hretired ⟨(hs.enabled socket base henabled).1, fun hbase => hne (henabled.trans hbase.symm), ?_⟩
  intro heq
  exact hlooping base (Option.some.inj (hpump.symm.trans heq))

theorem UnderWay.of_step (hs : s.Sound) (h : step s event = some (called, t)) (hne : event ≠ .start)
    (hsocket : t.UnderWay socket) : s.UnderWay socket ∧ t.enabled socket = s.enabled socket := by
  obtain ⟨hlt, base, henabled, hretired⟩ := hsocket
  have hbefore : ¬ s.Retired base := fun hbase => hretired (hbase.step h)
  cases step_cases h with
  | ask hcall =>
      rw [getBase_enabled] at henabled
      rw [getBase_sockets] at hlt
      exact ⟨⟨hlt, base, henabled, hbefore⟩, congrFun (getBase_enabled s) socket⟩
  | refused hcall =>
      have hne : socket ≠ s.sockets := by
        intro heq
        rw [heq, hs.waiting (by simp [hcall]) (by simp [hcall])] at henabled
        cases henabled
      exact ⟨⟨Nat.lt_of_le_of_ne (Nat.le_of_lt_succ hlt) hne, base, henabled, hbefore⟩, rfl⟩
  | @attach given hcall =>
      have hsame : Function.update s.enabled s.sockets (some given) socket = s.enabled socket :=
        Function.update_of_ne (Nat.ne_of_lt hlt) _ _
      exact ⟨⟨hlt, base, hsame.symm.trans henabled, hbefore⟩, hsame⟩
  | skip hcall hrunning =>
      rw [hs.running] at hrunning
      cases hrunning
  | kick hcall =>
      rw [getBase_enabled] at henabled
      rw [getBase_sockets] at hlt
      exact ⟨⟨hlt, base, henabled, hbefore⟩, congrFun (getBase_enabled s) socket⟩
  | start hcall hpump => exact absurd rfl hne
  | closed hpump hother =>
      simp only [Function.update_apply] at henabled ⊢
      split at henabled
      · cases henabled
      · rename_i hsocket
        rw [if_neg hsocket]
        exact ⟨⟨hlt, base, henabled, hbefore⟩, rfl⟩
  | enter hpump hbase => exact ⟨⟨hlt, base, henabled, hbefore⟩, rfl⟩
  | data hpump hother => exact ⟨⟨hlt, base, henabled, hbefore⟩, rfl⟩
  | leave hpump hover => exact ⟨⟨hlt, base, henabled, hbefore⟩, rfl⟩
  | clear hpump => exact ⟨⟨hlt, base, henabled, hbefore⟩, rfl⟩
  | free hpump => exact ⟨⟨hlt, base, henabled, hbefore⟩, rfl⟩

theorem OneRequest.not_underWay (hs : s.OneRequest)
    (hpump : s.loop.pumpThread = none ∨ ∃ pump, s.loop.pumpThread = some pump ∧
      pump ≠ .started ∧ ∀ base, pump ≠ .looping base) : ¬ s.UnderWay socket := by
  intro hsocket
  obtain ⟨-, pump, hsome, hserves⟩ := hs.serving socket hsocket
  rcases hpump with hnone | ⟨other, hother, hstarted, hlooping⟩
  · rw [hnone] at hsome
    cases hsome
  · obtain rfl := Option.some.inj (hother.symm.trans hsome)
    rcases hserves with heq | ⟨base, heq⟩
    · exact hstarted heq
    · exact hlooping base heq

theorem OneRequest.start (hsound : s.Sound) (hs : s.OneRequest) (h : step s .start = some (called, t)) :
    t.OneRequest := by
  have ht := hsound.step h
  cases step_cases h with
  | start hcall hpump =>
      -- Nothing was under way, so the only request is that of the socket that has been constructed.
      have hnone : ∀ socket, ¬ s.UnderWay socket := by
        intro socket
        apply hs.not_underWay
        rcases hpump with hpump | hpump
        · exact .inl hpump
        · exact .inr ⟨.ended, hpump, by simp, by simp⟩
      have hlast : ∀ socket,
          State.UnderWay { s.setPump .started with call := .idle, sockets := s.sockets + 1 } socket →
            socket = s.sockets := by
        intro socket hsocket
        obtain ⟨hlt, base, henabled, hretired⟩ := hsocket
        by_contra hne
        refine hnone socket ⟨Nat.lt_of_le_of_ne (Nat.le_of_lt_succ hlt) hne, base, henabled, ?_⟩
        exact fun hbase => hretired (hbase.step h)
      refine ⟨fun socket hsocket => ?_, fun socket other hsocket hother => ?_⟩
      · exact ⟨hsocket.enabled_base ht rfl (by simp), _, rfl, .inl rfl⟩
      · rw [hlast socket hsocket, hlast other hother]

theorem OneRequest.step (hsound : s.Sound) (hs : s.OneRequest) (h : step s event = some (called, t)) :
    t.OneRequest := by
  by_cases hstart : event = .start
  · subst hstart
    exact hs.start hsound h
  · have hbefore : ∀ socket, t.UnderWay socket → s.UnderWay socket ∧ t.enabled socket = s.enabled socket :=
      fun socket => UnderWay.of_step hsound h hstart
    refine ⟨fun socket hsocket => ?_, fun socket other hsocket hother =>
      hs.unique socket other (hbefore socket hsocket).1 (hbefore other hother).1⟩
    obtain ⟨hunderWay, hsame⟩ := hbefore socket hsocket
    obtain ⟨hbase, pump, hpump, hserves⟩ := hs.serving socket hunderWay
    obtain ⟨hlt, base, henabled, hretired⟩ := hunderWay
    have hsome : s.loop.base = some base := hbase.symm.trans henabled
    rw [hsame, henabled]
    cases step_cases h with
    | ask hcall => exact ⟨by rw [getBase_base, hsome, Option.getD_some], pump, by simpa using hpump, hserves⟩
    | refused hcall => exact ⟨hsome.symm, pump, hpump, hserves⟩
    | attach hcall => exact ⟨hsome.symm, pump, hpump, hserves⟩
    | skip hcall hrunning =>
        exact ⟨by rw [getBase_base, hsome, Option.getD_some], pump, by simpa using hpump, hserves⟩
    | kick hcall => exact ⟨by rw [getBase_base, hsome, Option.getD_some], pump, by simpa using hpump, hserves⟩
    | start hcall hended => exact absurd rfl hstart
    | enter hstarted hloop => exact ⟨hsome.symm, _, rfl, .inr ⟨_, rfl⟩⟩
    | data hlooping hother => exact ⟨hsome.symm, pump, hpump, hserves⟩
    | closed hlooping hother => exact ⟨hsome.symm, pump, hpump, hserves⟩
    | leave hlooping hover =>
        -- The thread does not leave while there is something to serve.
        have hloops := hsound.looping _ hlooping
        exact absurd (henabled.trans (hsome.symm.trans hloops)) (hover socket (Nat.lt_succ_of_lt hlt))
    | clear hleft =>
        exact absurd ⟨hlt, base, henabled, hretired⟩
          (hs.not_underWay (.inr ⟨.left, hleft, by simp, by simp⟩))
    | free hcleared =>
        exact absurd ⟨hlt, base, henabled, hretired⟩
          (hs.not_underWay (.inr ⟨.cleared _, hcleared, by simp, by simp⟩))

end State

open State

theorem sound_run {events : List Event} {calls : List (Option SocketId)}
    (hrun : Run.run step {} events = some (calls, s)) : s.Sound ∧ s.OneRequest := by
  have hstep : ∀ s event called t, (s.Sound ∧ s.OneRequest) → step s event = some (called, t) →
      t.Sound ∧ t.OneRequest := by
    intro s event called t hs h
    exact ⟨hs.1.step h, hs.2.step hs.1 h⟩
  exact Run.run_invariant hstep ⟨sound_initial, oneRequest_initial⟩ hrun

/-- **Requests are made one at a time.** Of the sockets whose constructors have returned, there is never more than
one whose connection is on a base that loops or will. -/
theorem underWay_unique {events : List Event} {calls : List (Option SocketId)}
    (hrun : Run.run step {} events = some (calls, s)) {socket other : SocketId} (hsocket : s.UnderWay socket)
    (hother : s.UnderWay other) : socket = other :=
  (sound_run hrun).2.unique socket other hsocket hother

def secondAsks : List Event := [.ask, .attach, .kick, .start, .enter, .ask, .attach, .kick]

theorem underWay_unique_secondAsks : ∃ calls s, Run.run step {} secondAsks = some (calls, s) ∧
    s.UnderWay 0 ∧ ∀ socket, s.UnderWay socket → socket = 0 := by
  obtain ⟨calls, s, hrun, hfirst⟩ : ∃ calls s, Run.run step {} secondAsks = some (calls, s) ∧ s.UnderWay 0 :=
    ⟨_, _, rfl, by decide, 0, rfl, fun hretired => hretired.given_up rfl⟩
  exact ⟨calls, s, hrun, hfirst, fun socket hsocket => underWay_unique hrun hsocket hfirst⟩

/-! ### Which requests can be answered -/

/-- While a constructor does not return it is the same one, and what its steps preserve holds when it starts the
thread. -/
theorem start_of_call {P : State → Prop}
    (hstep : ∀ s event called t, P s → event ≠ .ask → step s event = some (called, t) → t.call ≠ .idle → P t)
    {during : List Event} {calls : List (Option SocketId)} (hs : s.call ≠ .idle → P s) (hduring : .ask ∉ during)
    (hrun : Run.run step s (during ++ [.start]) = some (calls, t)) :
    ∃ u called, P u ∧ step u .start = some (called, t) := by
  induction during generalizing s calls with
  | nil =>
      obtain ⟨called, hstart, -⟩ := Run.run_singleton_eq_some.mp hrun
      refine ⟨s, called, hs ?_, hstart⟩
      cases step_cases hstart with
      | start hcall hpump => simp [hcall]
  | cons event during ih =>
      obtain ⟨hevent, hlater⟩ := List.ne_and_not_mem_of_not_mem_cons hduring
      obtain ⟨called, rest, next, hfirst, hrest, -⟩ := Run.run_cons_eq_some.mp hrun
      refine ih (fun hnext => ?_) hlater hrest
      have hcall : s.call ≠ .idle := by
        intro hidle
        cases step_cases hfirst with
        | ask hcall => exact hevent rfl
        | refused hcall | attach hcall | skip hcall hrunning | kick hcall | start hcall hpump =>
            rw [hidle] at hcall
            cases hcall
        | enter hpump hbase | data hpump henabled | closed hpump henabled | leave hpump hover | clear hpump
        | free hpump => exact hnext hidle
      exact hstep s event called next (hs hcall) (Ne.symm hevent) hfirst hnext

namespace State

variable {base : BaseId} {socket : SocketId}

theorem busy_iff {pump : RunEvents} (hpump : s.loop.pumpThread = some pump) : s.Busy ↔ pump.holdsBase = true := by
  constructor
  · intro hbusy
    obtain ⟨other, hother, hholds⟩ := hbusy
    obtain rfl := Option.some.inj (hother.symm.trans hpump)
    exact hholds
  · intro hholds
    exact ⟨pump, hpump, hholds⟩

theorem getBase_of_some (h : s.loop.base = some base) : s.getBase.loop.base = some base := by
  rw [getBase_base, h, Option.getD_some]

theorem busy_getBase : s.getBase.Busy ↔ s.Busy := by
  rw [Busy, getBase_pumpThread, Busy]

/-- The base that a constructor has is one whose thread it has to wait for, or is given up already. -/
structure Doomed (socket : SocketId) (base : BaseId) (s : State) : Prop where
  sound : s.Sound
  number : s.sockets = socket
  busy : s.Busy ∧ s.loop.base = some base ∨ s.Retired base
  asked : ∀ given, s.call = .asked given → given = base
  enabled : ∀ given, s.enabled socket = some given → given = base

theorem Doomed.step (hs : s.Doomed socket base) (hask : event ≠ .ask) (h : step s event = some (called, t))
    (hcall : t.call ≠ .idle) : t.Doomed socket base := by
  have hsound := hs.sound.step h
  have hretired : s.Retired base → t.Retired base := fun hbase => hbase.step h
  cases step_cases h with
  | ask _ => exact absurd rfl hask
  | refused _ => exact absurd rfl hcall
  | skip _ _ => exact absurd rfl hcall
  | start _ _ => exact absurd rfl hcall
  | attach hasked =>
      refine ⟨hsound, hs.number, hs.busy.imp id hretired, fun given heq => (by cases heq), ?_⟩
      intro given henabled
      simp only [Function.update_apply] at henabled
      split at henabled
      · exact Option.some.inj henabled ▸ hs.asked _ hasked
      · exact hs.enabled given henabled
  | kick _ =>
      refine ⟨hsound, (getBase_sockets s).trans hs.number, ?_, fun given heq => (by cases heq), ?_⟩
      · exact hs.busy.imp (fun hbusy => ⟨busy_getBase.mpr hbusy.1, getBase_of_some hbusy.2⟩) hretired
      · intro given henabled
        exact hs.enabled given (congrFun (getBase_enabled s) socket ▸ henabled)
  | enter _ _ =>
      exact ⟨hsound, hs.number, hs.busy.imp (fun hbusy => ⟨⟨_, rfl, rfl⟩, hbusy.2⟩) hretired, hs.asked, hs.enabled⟩
  | data _ _ => exact hs
  | closed _ _ =>
      refine ⟨hsound, hs.number, hs.busy.imp id hretired, hs.asked, ?_⟩
      intro given henabled
      simp only [Function.update_apply] at henabled
      split at henabled
      · cases henabled
      · exact hs.enabled given henabled
  | leave _ _ =>
      exact ⟨hsound, hs.number, hs.busy.imp (fun hbusy => ⟨⟨_, rfl, rfl⟩, hbusy.2⟩) hretired, hs.asked, hs.enabled⟩
  | clear hleft =>
      refine ⟨hsound, hs.number, .inr ?_, hs.asked, hs.enabled⟩
      exact hs.busy.elim (fun hbusy => ⟨hs.sound.created base hbusy.2, by simp, by simp⟩) hretired
  | free hcleared =>
      refine ⟨hsound, hs.number, .inr (hs.busy.elim (fun hbusy => ?_) hretired), hs.asked, hs.enabled⟩
      cases (busy_iff hcleared).mp hbusy.1

/-- The base that a constructor has waits for the thread it is going to start. -/
structure Kept (socket : SocketId) (base : BaseId) (s : State) : Prop where
  number : s.sockets = socket
  waits : s.loop.base = some base
  free : ¬ s.Busy
  asked : ∀ given, s.call = .asked given → given = base
  enabled : s.call = .attached ∨ s.call = .joining → s.enabled socket = some base

theorem Kept.step (hs : s.Kept socket base) (hask : event ≠ .ask) (h : step s event = some (called, t))
    (hcall : t.call ≠ .idle) : t.Kept socket base := by
  cases step_cases h with
  | ask _ => exact absurd rfl hask
  | refused _ => exact absurd rfl hcall
  | skip _ _ => exact absurd rfl hcall
  | start _ _ => exact absurd rfl hcall
  | attach hasked =>
      refine ⟨hs.number, hs.waits, hs.free, fun given heq => (by cases heq), fun _ => ?_⟩
      rw [hs.asked _ hasked, ← hs.number]
      exact Function.update_self _ _ _
  | kick hattached =>
      refine ⟨(getBase_sockets s).trans hs.number, getBase_of_some hs.waits, ?_, fun given heq => (by cases heq),
        fun _ => ?_⟩
      · exact fun hbusy => hs.free (busy_getBase.mp hbusy)
      · exact (congrFun (getBase_enabled s) socket).trans (hs.enabled (.inl hattached))
  | enter hpump _ | data hpump _ | closed hpump _ | leave hpump _ | clear hpump =>
      exact absurd ((busy_iff hpump).mpr rfl) hs.free
  | free hcleared =>
      refine ⟨hs.number, hs.waits, fun hbusy => ?_, hs.asked, hs.enabled⟩
      obtain ⟨pump, hpump, hholds⟩ := hbusy
      obtain rfl := Option.some.inj hpump
      cases hholds

structure Dead (socket : SocketId) (s : State) : Prop where
  returned : socket < s.sockets
  retired : ∀ base, s.enabled socket = some base → s.Retired base

theorem Dead.step (hs : s.Dead socket) (h : step s event = some (called, t)) :
    called ≠ some socket ∧ t.Dead socket := by
  have hretired : ∀ base, s.enabled socket = some base → t.Retired base :=
    fun base henabled => (hs.retired base henabled).step h
  have hlater := Nat.lt_succ_of_lt hs.returned
  cases step_cases h with
  | ask _ =>
      exact ⟨by simp, by rw [getBase_sockets]; exact hs.returned, by simpa only [getBase_enabled] using hretired⟩
  | refused _ => exact ⟨by simp, hlater, hretired⟩
  | attach _ =>
      refine ⟨by simp, hs.returned, fun base henabled => hretired base ?_⟩
      simp only [Function.update_of_ne (Nat.ne_of_lt hs.returned)] at henabled
      exact henabled
  | skip _ _ =>
      exact ⟨by simp, hlater, by simpa only [getBase_enabled] using hretired⟩
  | kick _ =>
      exact ⟨by simp, by rw [getBase_sockets]; exact hs.returned, by simpa only [getBase_enabled] using hretired⟩
  | start _ _ => exact ⟨by simp, hlater, hretired⟩
  | enter _ _ => exact ⟨by simp, hs.returned, hretired⟩
  | data hpump henabled =>
      refine ⟨fun heq => ?_, hs⟩
      obtain rfl := Option.some.inj heq
      exact (hs.retired _ henabled).pump hpump
  | closed _ _ =>
      refine ⟨by simp, hs.returned, fun base henabled => hretired base ?_⟩
      simp only [Function.update_apply] at henabled
      split at henabled
      · cases henabled
      · exact henabled
  | leave _ _ => exact ⟨by simp, hs.returned, hretired⟩
  | clear _ => exact ⟨by simp, hs.returned, hretired⟩
  | free _ => exact ⟨by simp, hs.returned, hretired⟩

theorem Doomed.start (hs : s.Doomed socket base) (h : EventLoop.step s .start = some (called, t)) :
    t.Dead socket := by
  have hretired : s.Retired base := by
    refine hs.busy.elim (fun hbusy => ?_) id
    obtain ⟨pump, hpump, hholds⟩ := hbusy.1
    cases step_cases h with
    | start hcall hready =>
        rcases hready with hnone | hended
        · rw [hpump] at hnone
          cases hnone
        · cases (busy_iff hended).mp hbusy.1
  have hlater := hretired.step h
  cases step_cases h with
  | start hcall hready =>
      refine ⟨by rw [← hs.number]; exact Nat.lt_succ_self _, fun given henabled => ?_⟩
      rw [hs.enabled given henabled]
      exact hlater

theorem Kept.start (hs : s.Kept socket base) (h : EventLoop.step s .start = some (called, t)) :
    ∃ u, Run.run EventLoop.step t [.enter, .data socket] = some ([none, some socket], u) := by
  cases step_cases h with
  | start hcall hready =>
      have hwaits := hs.waits
      have henabled := hs.enabled (.inr hcall)
      simp [Run.run, EventLoop.step, setPump, hwaits, henabled]

end State

/-- **A request can be answered** exactly if no thread had still to give up the base when its constructor asked for
it. Otherwise no data ever comes in for it, whatever happens once its constructor has returned. -/
theorem answered_iff {before during : List Event} {calls calls' : List (Option SocketId)}
    (hbefore : Run.run step {} before = some (calls, s))
    (hcall : Run.run step s (.ask :: (during ++ [.start])) = some (calls', t)) (hduring : .ask ∉ during) :
    (∃ after calls'' u, Run.run step t after = some (calls'', u) ∧ some s.sockets ∈ calls'') ↔ ¬ s.Busy := by
  have hsound := (sound_run hbefore).1
  obtain ⟨called, rest, asked, hask, hrest, -⟩ := Run.run_cons_eq_some.mp hcall
  have hasked := hsound.step hask
  cases step_cases hask with
  | ask hidle =>
      have hnone : s.getBase.enabled s.sockets = none := by
        rw [getBase_enabled]
        exact hsound.waiting (by simp [hidle]) (by simp [hidle])
      by_cases hbusy : s.Busy
      · refine iff_of_false (fun hanswered => ?_) (not_not.mpr hbusy)
        have hdoomed : Doomed s.sockets (s.loop.base.getD s.bases)
            { s.getBase with call := .asked (s.loop.base.getD s.bases) } :=
          { sound := hasked
            number := getBase_sockets s
            busy := .inl ⟨busy_getBase.mpr hbusy, getBase_base s⟩
            asked := fun given heq => (Call.asked.inj heq).symm
            enabled := fun given henabled => by rw [hnone] at henabled; cases henabled }
        obtain ⟨last, called', hlast, hstart⟩ :=
          start_of_call (fun _ _ _ _ hs hevent h => hs.step hevent h) (fun _ => hdoomed) hduring hrest
        obtain ⟨after, calls'', u, hrun, hmem⟩ := hanswered
        have hsilent := Run.run_outputs (P := fun called => called ≠ some s.sockets)
          (fun _ _ _ _ hs h => hs.step h) (hlast.start hstart) hrun
        exact hsilent _ hmem rfl
      · refine iff_of_true ?_ hbusy
        have hkept : Kept s.sockets (s.loop.base.getD s.bases)
            { s.getBase with call := .asked (s.loop.base.getD s.bases) } :=
          { number := getBase_sockets s
            waits := getBase_base s
            free := fun h => hbusy (busy_getBase.mp h)
            asked := fun given heq => (Call.asked.inj heq).symm
            enabled := fun h => by rcases h with h | h <;> cases h }
        obtain ⟨last, called', hlast, hstart⟩ :=
          start_of_call (fun _ _ _ _ hs hevent h => hs.step hevent h) (fun _ => hkept) hduring hrest
        obtain ⟨u, hrun⟩ := hlast.start hstart
        exact ⟨_, _, u, hrun, by simp⟩

def overlapping : List Event := [.attach, .kick, .closed 0, .closed 1, .leave, .clear, .free]

theorem answered_iff_overlapping : ∃ calls s calls' t,
    Run.run step {} [.ask, .attach, .kick, .start, .enter] = some (calls, s) ∧
      Run.run step s (.ask :: (overlapping ++ [.start])) = some (calls', t) ∧
      ¬ ∃ after calls'' u, Run.run step t after = some (calls'', u) ∧ some 1 ∈ calls'' := by
  obtain ⟨calls, s, hbefore, hbusy, hsockets⟩ : ∃ calls s,
      Run.run step {} [.ask, .attach, .kick, .start, .enter] = some (calls, s) ∧ s.Busy ∧ s.sockets = 1 :=
    ⟨_, _, rfl, ⟨_, rfl, rfl⟩, rfl⟩
  obtain ⟨calls', t, hcall⟩ : ∃ calls' t, Run.run step s (.ask :: (overlapping ++ [.start])) = some (calls', t) := by
    obtain ⟨-, rfl⟩ := Prod.mk.inj (Option.some.inj hbefore)
    exact ⟨_, _, rfl⟩
  have hiff := answered_iff hbefore hcall (by decide)
  rw [hsockets] at hiff
  exact ⟨calls, s, calls', t, hbefore, hcall, fun hanswered => hiff.mp hanswered hbusy⟩

end Rikitiki.EventLoop
