import Corsl.Conc.History
import Corsl.Io.Errors

/-!
# `resumable_io_timeout` (`advanced_io.h`)

The threads that take part in one operation with the timeout `timeout`.

* `Initiator`: `await_suspend`. The user's callback issues the I/O, and `set_timer` comes after it.
  The callback may also say that the I/O is not pending, or throw.
* `Callback`: the I/O, and the completion callback on it: it stores `m_result`, resets the timer (it
  disarms the timer, and then cancels or waits for its callbacks), and resumes the coroutine.
* `Timer`: the callback of the timer, `on_timeout`. The timer is armed once at most.

The I/O may end at any time, with any code. Who ends with `ERROR_OPERATION_ABORTED` by the
`CancelIoEx` of `on_timeout` was pending when that was called.
-/

namespace Corsl

open Conc

namespace Io

namespace Timeout

/-- Where the initiating thread is. -/
inductive Initiator where
  /-- `await_suspend` is next. -/
  | created
  /-- `StartThreadpoolIo` is over; the user's callback is next. -/
  | issuing
  /-- The I/O has been issued; `set_timer` is next. -/
  | issued
  | suspended
  /-- The I/O was not pending, so the coroutine is not suspended. -/
  | notPending
  /-- The user's callback has thrown. -/
  | thrown
  deriving DecidableEq, Repr

/-- Where the I/O and its completion callback are. -/
inductive Callback where
  | none
  | pending
  /-- The completion callback is next. -/
  | completed (c : Completion)
  /-- It has stored `m_result`; `reset_timer` is next. -/
  | stored (c : Completion)
  /-- `SetThreadpoolTimer` is over; `WaitForThreadpoolTimerCallbacks` is next. -/
  | disarmed (c : Completion)
  /-- `m_resume()` is next. -/
  | drained (c : Completion)
  | over (c : Completion)

/-- Where the callback of the timer is. -/
inductive Timer where
  | idle
  | pending
  /-- In `on_timeout`; `CancelIoEx` is next. -/
  | running
  | cancelled
  deriving DecidableEq, Repr

/-- Where the coroutine is. -/
inductive Coroutine where
  | awaiting
  /-- `await_resume` is next. -/
  | resumed
  /-- `await_resume` has returned or thrown `r`. -/
  | over (r : Except IoError UInt32)

/-- The state of the system. -/
structure St where
  initiator : Initiator := .created
  callback : Callback := .none
  coroutine : Coroutine := .awaiting
  armed : Bool := false
  timer : Timer := .idle
  /-- `CancelIoEx` has found the I/O pending. -/
  cancelled : Bool := false
  mResult : UInt32 := 0
  internalHigh : UInt64 := 0

/-- The atomic steps. -/
inductive Ev where
  /-- `m_resume` is stored, and `StartThreadpoolIo` called. -/
  | start
  /-- The user's callback issues the I/O. -/
  | issue
  /-- The user's callback returns false, with `bytes` transferred: `CancelThreadpoolIo`. -/
  | notPending (bytes : UInt32)
  /-- The user's callback throws: `CancelThreadpoolIo`. -/
  | throw
  | setTimer
  /-- The I/O ends. -/
  | complete (c : Completion)
  /-- The steps of the completion callback. -/
  | store
  | disarm
  | drain
  | resume
  | awaitResume
  /-- The timer is due, and its callback is queued. -/
  | fire
  | onTimeout
  | cancelIo
  | timedOut

/-- `supports_timeout::set_timer`. -/
def St.setTimer (timeout : Int) (s : St) : St :=
  if timeout ≠ 0 then { s with armed := true } else s

/-- `awaitable::await_resume`, and what it leaves in `m_result`. -/
def awaitResume (mResult : UInt32) (internalHigh : UInt64) : UInt32 × Except IoError UInt32 :=
  if mResult ≠ noError ∧ mResult ≠ errorHandleEof then
    (if mResult = errorOperationAborted then errorTimeout else mResult, .error .operationCancelled)
  else (mResult, .ok internalHigh.toUInt32)

/-- The steps of the initiating thread and of the coroutine. -/
def initiatorStep (timeout : Int) (s : St) : Ev → Option St
  | .start => if s.initiator = .created then some { s with initiator := .issuing } else none
  | .issue =>
    if s.initiator = .issuing then some { s with initiator := .issued, callback := .pending }
    else none
  | .notPending bytes =>
    if s.initiator = .issuing then
      some { s with
        initiator := .notPending, coroutine := .resumed, internalHigh := bytes.toUInt64 }
    else none
  | .throw => if s.initiator = .issuing then some { s with initiator := .thrown } else none
  | .setTimer =>
    if s.initiator = .issued then some { s.setTimer timeout with initiator := .suspended } else none
  | .awaitResume =>
    match s.coroutine with
    | .resumed =>
      let (mResult, r) := awaitResume s.mResult s.internalHigh
      some { s with mResult, coroutine := .over r }
    | .awaiting | .over _ => none
  | _ => none

/-- The steps of the I/O and of its completion callback. -/
def callbackStep (timeout : Int) (s : St) : Ev → Option St
  | .complete c =>
    match s.callback with
    | .pending =>
      if c.isOwnAbort = true → s.cancelled = true then
        some { s with callback := .completed c, internalHigh := c.bytes.toUInt64 }
      else none
    | _ => none
  | .store =>
    match s.callback with
    | .completed c => some { s with callback := .stored c, mResult := c.code }
    | _ => none
  | .disarm =>
    match s.callback with
    | .stored c =>
      some { s with callback := .disarmed c, armed := if timeout ≠ 0 then false else s.armed }
    | _ => none
  | .drain =>
    match s.callback with
    | .disarmed c =>
      if timeout = 0 then some { s with callback := .drained c }
      -- pending callbacks are cancelled, and a running one is waited for
      else if s.timer = .idle ∨ s.timer = .pending then
        some { s with callback := .drained c, timer := .idle }
      else none
    | _ => none
  | .resume =>
    match s.callback with
    | .drained c => some { s with callback := .over c, coroutine := .resumed }
    | _ => none
  | _ => none

/-- The steps of the timer. -/
def timerStep (s : St) : Ev → Option St
  | .fire =>
    if s.armed = true ∧ s.timer = .idle then some { s with armed := false, timer := .pending }
    else none
  | .onTimeout => if s.timer = .pending then some { s with timer := .running } else none
  | .cancelIo =>
    if s.timer = .running then
      some { s with
        timer := .cancelled
        cancelled := s.cancelled || (match s.callback with | .pending => true | _ => false) }
    else none
  | .timedOut => if s.timer = .cancelled then some { s with timer := .idle } else none
  | _ => none

/-- One atomic step. -/
def step (timeout : Int) (s : St) (e : Ev) : Option St :=
  match initiatorStep timeout s e with
  | some s' => some s'
  | none =>
    match callbackStep timeout s e with
    | some s' => some s'
    | none => timerStep s e

/-- The threads of one operation. -/
def sys (timeout : Int) : Sys St Ev := ⟨{}, step timeout⟩

/-- What the history keeps: uses of the timer and of its callback, and the resumption. -/
inductive Note where
  | setTimer | onTimeout | cancelIo | resumed
  deriving DecidableEq, Repr

def note (timeout : Int) (_ : St) : Ev → List Note
  | .setTimer => if timeout ≠ 0 then [.setTimer] else []
  | .onTimeout => [.onTimeout]
  | .cancelIo => [.cancelIo]
  | .resume => [.resumed]
  | _ => []

/-! ## The results -/

/-- Nothing follows the resumption (see `Note`). -/
def Dead (l : List Note) : Prop := ∀ l₁ l₂, l = l₁ ++ .resumed :: l₂ → l₂ = []

/-- The completion callback resets the timer after `await_suspend` has set it. -/
def Armed (s : St × List Note) : Ev → Prop
  | .disarm => s.1.initiator = .suspended
  | _ => True

/-- `await_resume` tells by `r` how the operation has ended. -/
structure Tells (c : Completion) (r : Except IoError UInt32) : Prop where
  bytes : c.code = noError ∨ c.code = errorHandleEof → r = .ok c.bytes
  cancelled : r = .error .operationCancelled ↔ c.isOwnAbort = true
  error : c.code ≠ noError → c.code ≠ errorHandleEof → c.isOwnAbort = false →
    ∃ e, r = .error e ∧ e ≠ .operationCancelled ∧ e.code = hresultFromWin32 c.code

/-! ## Invariants -/

/-- The timer has been disarmed. -/
def Callback.reset : Callback → Bool
  | .disarmed _ | .drained _ | .over _ => true
  | _ => false

/-- The callbacks of the timer are over. -/
def Callback.quiet : Callback → Bool
  | .drained _ | .over _ => true
  | _ => false

/-- What the operation has ended with, from the store of `m_result` to the resumption. -/
def Callback.kept : Callback → Option Completion
  | .stored c | .disarmed c | .drained c => some c
  | .none | .pending | .completed _ | .over _ => Option.none

/-- How the sides go together, in every run. -/
structure Inv (timeout : Int) (s : St) : Prop where
  issued : s.initiator ≠ .issued → s.initiator ≠ .suspended → s.callback = .none
  timer : s.initiator ≠ .suspended ∨ timeout = 0 → s.armed = false ∧ s.timer = .idle

/-- The timer is dead when it has been reset. -/
structure Quiet (s : St) : Prop where
  suspended : s.callback.reset = true → s.initiator = .suspended
  armed : s.callback.reset = true → s.armed = false
  timer : s.callback.quiet = true → s.timer = .idle

/-- What `await_resume` finds, and what it has made of it. -/
structure Results (s : St) : Prop where
  initiator : s.initiator = .created ∨ s.initiator = .issuing → s.coroutine = .awaiting
  awaiting : s.callback ≠ .none → (∀ c, s.callback ≠ .over c) → s.coroutine = .awaiting
  completed : ∀ c, s.callback = .completed c → s.internalHigh = c.bytes.toUInt64
  kept : ∀ c, s.callback.kept = some c → s.mResult = c.code ∧ s.internalHigh = c.bytes.toUInt64
  told : ∀ c, s.callback = .over c →
    s.coroutine = .resumed ∧ s.mResult = c.code ∧ s.internalHigh = c.bytes.toUInt64 ∨
      s.coroutine = .over (awaitResume c.code c.bytes.toUInt64).2

section Steps

variable {timeout : Int} {s s' : St} {e : Ev}

/-- The steps, with what they find and leave. -/
inductive Move (timeout : Int) (s : St) : Ev → St → Prop
  | start : s.initiator = .created → Move timeout s .start { s with initiator := .issuing }
  | issue : s.initiator = .issuing →
    Move timeout s .issue { s with initiator := .issued, callback := .pending }
  | notPending (bytes : UInt32) : s.initiator = .issuing → Move timeout s (.notPending bytes)
    { s with initiator := .notPending, coroutine := .resumed, internalHigh := bytes.toUInt64 }
  | throw : s.initiator = .issuing → Move timeout s .throw { s with initiator := .thrown }
  | setTimer : s.initiator = .issued →
    Move timeout s .setTimer { s.setTimer timeout with initiator := .suspended }
  | awaitResume : s.coroutine = .resumed → Move timeout s .awaitResume
    { s with
      mResult := (awaitResume s.mResult s.internalHigh).1
      coroutine := .over (awaitResume s.mResult s.internalHigh).2 }
  | complete (c : Completion) : s.callback = .pending → (c.isOwnAbort = true → s.cancelled = true) →
    Move timeout s (.complete c)
      { s with callback := .completed c, internalHigh := c.bytes.toUInt64 }
  | store (c : Completion) : s.callback = .completed c →
    Move timeout s .store { s with callback := .stored c, mResult := c.code }
  | disarm (c : Completion) : s.callback = .stored c → Move timeout s .disarm
    { s with callback := .disarmed c, armed := if timeout ≠ 0 then false else s.armed }
  | drainNone (c : Completion) : s.callback = .disarmed c → timeout = 0 →
    Move timeout s .drain { s with callback := .drained c }
  | drain (c : Completion) : s.callback = .disarmed c → timeout ≠ 0 →
    s.timer = .idle ∨ s.timer = .pending →
    Move timeout s .drain { s with callback := .drained c, timer := .idle }
  | resume (c : Completion) : s.callback = .drained c →
    Move timeout s .resume { s with callback := .over c, coroutine := .resumed }
  | fire : s.armed = true → s.timer = .idle →
    Move timeout s .fire { s with armed := false, timer := .pending }
  | onTimeout : s.timer = .pending → Move timeout s .onTimeout { s with timer := .running }
  | cancelIo (found : Bool) : s.timer = .running →
    Move timeout s .cancelIo { s with timer := .cancelled, cancelled := found }
  | timedOut : s.timer = .cancelled → Move timeout s .timedOut { s with timer := .idle }

theorem initiatorStep_move (h : initiatorStep timeout s e = some s') : Move timeout s e s' := by
  cases e with
  | start | issue | notPending bytes | throw | setTimer =>
    simp only [initiatorStep] at h
    split at h <;> cases h
    constructor
    assumption
  | awaitResume =>
    simp only [initiatorStep] at h
    split at h <;> cases h
    exact .awaitResume (by assumption)
  | _ => cases h

theorem callbackStep_move (h : callbackStep timeout s e = some s') : Move timeout s e s' := by
  cases e with
  | complete c =>
    simp only [callbackStep] at h
    split at h
    · split at h <;> cases h
      exact .complete c (by assumption) (by assumption)
    · cases h
  | store | disarm | resume =>
    simp only [callbackStep] at h
    split at h <;> cases h
    constructor
    assumption
  | drain =>
    simp only [callbackStep] at h
    split at h
    · rename_i c hc
      split at h
      · cases h
        exact .drainNone c hc (by assumption)
      · split at h <;> cases h
        exact .drain c hc (by assumption) (by assumption)
    · cases h
  | _ => cases h

theorem timerStep_move (h : timerStep s e = some s') : Move timeout s e s' := by
  cases e with
  | fire =>
    simp only [timerStep] at h
    split at h <;> cases h
    rename_i hf
    exact .fire hf.1 hf.2
  | onTimeout | cancelIo | timedOut =>
    simp only [timerStep] at h
    split at h <;> cases h
    constructor
    assumption
  | _ => cases h

theorem step_move (h : step timeout s e = some s') : Move timeout s e s' := by
  unfold step at h
  split at h
  · cases h
    exact initiatorStep_move (by assumption)
  · split at h
    · cases h
      exact callbackStep_move (by assumption)
    · exact timerStep_move h

theorem Inv.init : Inv timeout {} := ⟨fun _ _ => rfl, fun _ => ⟨rfl, rfl⟩⟩

theorem Inv.step (h : Inv timeout s) (hm : Move timeout s e s') : Inv timeout s' := by
  obtain ⟨hi, ht⟩ := h
  cases hm with
  | setTimer hs =>
    refine ⟨by simp, ?_⟩
    rintro (hn | hz)
    · simp at hn
    · simpa [St.setTimer, hz] using ht (.inl (by simp [hs]))
  | _ => constructor <;> simp_all

theorem reach_inv (hs : (sys timeout).Reach s) : Inv timeout s := by
  have hinv : (sys timeout).Inductive (fun _ _ => True) (Inv timeout) :=
    ⟨.init, fun _ _ _ h _ hst => h.step (step_move hst)⟩
  exact hinv.reach hs

theorem Callback.reset_of_quiet {c : Callback} (h : c.quiet = true) : c.reset = true := by
  cases c <;> first | rfl | cases h

theorem Quiet.step {l : List Note} (hi : Inv timeout s) (h : Quiet s) (hok : Armed (s, l) e)
    (hm : Move timeout s e s') : Quiet s' := by
  have ⟨hsus, ha, ht⟩ := h
  cases hm with
  | setTimer hs =>
    have hreset : ¬s.callback.reset = true := fun hr => by
      have := hsus hr
      simp [hs] at this
    have hcallback : (s.setTimer timeout).callback = s.callback := by
      unfold St.setTimer
      split <;> rfl
    exact ⟨fun _ => rfl, fun hr => absurd (hcallback ▸ hr) hreset,
      fun hq => absurd (Callback.reset_of_quiet (hcallback ▸ hq)) hreset⟩
  | disarm c hc =>
    refine ⟨fun _ => hok, fun _ => ?_, nofun⟩
    by_cases hz : timeout = 0
    · simpa [hz] using (hi.timer (.inr hz)).1
    · simp [hz]
  | drainNone c hc hz => exact ⟨fun _ => hsus (by simp [hc, Callback.reset]),
      fun _ => ha (by simp [hc, Callback.reset]), fun _ => (hi.timer (.inr hz)).2⟩
  | fire harmed =>
    have hreset : ¬s.callback.reset = true := fun hr => by
      have := ha hr
      simp [harmed] at this
    exact ⟨hsus, fun _ => rfl, fun hq => absurd (Callback.reset_of_quiet hq) hreset⟩
  | _ =>
    have hissued := hi.issued
    constructor <;> simp_all [Callback.reset, Callback.quiet]

theorem Results.step (hi : Inv timeout s) (h : Results s) (hm : Move timeout s e s') :
    Results s' := by
  have ⟨hinit, haw, hcomp, hkept, hover⟩ := h
  cases hm with
  | issue hs => exact ⟨by simp, fun _ _ => hinit (.inr hs), nofun, nofun, nofun⟩
  | notPending bytes hs =>
    have hc := hi.issued (by simp [hs]) (by simp [hs])
    exact ⟨by simp, by simp [hc], by simp [hc], by simp [hc, Callback.kept], by simp [hc]⟩
  | setTimer hs =>
    unfold St.setTimer
    split <;> exact ⟨by simp, haw, hcomp, hkept, hover⟩
  | awaitResume hc =>
    refine ⟨?_, ?_, ?_, ?_, ?_⟩
    · intro hs
      simp [hc] at hinit
      simp [hinit] at hs
    · intro hn ho
      have := haw hn ho
      simp [hc] at this
    · exact hcomp
    · intro c hk
      have := haw (by rintro h; simp [h, Callback.kept] at hk)
        (by rintro d h; simp [h, Callback.kept] at hk)
      simp [hc] at this
    · intro c ho
      obtain ⟨-, hr, hb⟩ | hover := hover c ho
      · exact .inr (by rw [hr, hb])
      · simp [hc] at hover
  | resume c hc =>
    have hs : s.initiator ≠ .created ∧ s.initiator ≠ .issuing := by
      refine ⟨fun hs => ?_, fun hs => ?_⟩ <;>
        simp [hi.issued (by simp [hs]) (by simp [hs])] at hc
    obtain ⟨hr, hb⟩ := hkept c (by simp [hc, Callback.kept])
    refine ⟨by simp [hs], by simp, nofun, nofun, ?_⟩
    rintro d ⟨⟩
    exact .inl ⟨rfl, hr, hb⟩
  | _ => constructor <;> simp_all [Callback.kept]

theorem reach_results (hs : (sys timeout).Reach s) : Results s :=
  hs.rec_on (fun _ h => reach_inv h)
    ⟨fun _ => rfl, fun h => absurd rfl h, nofun, nofun, nofun⟩
    fun _ _ _ hi hj _ hst => hj.step hi (step_move hst)

/-! ## The timer is dead -/

theorem dead_append {l : List Note} {x : Note} (h : .resumed ∉ l) : Dead (l ++ [x]) := by
  intro l₁ l₂ hl
  rcases List.eq_nil_or_concat l₂ with rfl | ⟨l₂, y, rfl⟩
  · rfl
  · rw [List.concat_eq_append, ← List.cons_append, ← List.append_assoc] at hl
    have := (List.append_inj' hl rfl).1
    exact absurd (by rw [this]; simp) h

/-- The history, when the timer is quiet after the resumption. -/
structure Ends (s : St × List Note) : Prop where
  quiet : Quiet s.1
  resumed : .resumed ∈ s.2 → ∃ c, s.1.callback = .over c
  dead : Dead s.2

/-- Nothing is noted. -/
theorem Ends.silent {l : List Note} (h : Ends (s, l)) (hq : Quiet s')
    (hc : ∀ c, s.callback = .over c → s'.callback = .over c) : Ends (s', l ++ []) := by
  rw [List.append_nil]
  exact ⟨hq, fun hr => (h.resumed hr).imp hc, h.dead⟩

/-- Something is noted, before the resumption. -/
theorem Ends.noted {l : List Note} {x : Note} (h : Ends (s, l)) (hq : Quiet s')
    (hc : ∀ c, s.callback ≠ .over c) (hx : x = .resumed → ∃ c, s'.callback = .over c) :
    Ends (s', l ++ [x]) := by
  have hnot : Note.resumed ∉ l := fun hr => by
    obtain ⟨c, hover⟩ := h.resumed hr
    exact hc c hover
  refine ⟨hq, fun hr => ?_, dead_append hnot⟩
  rw [List.mem_append, List.mem_singleton] at hr
  exact hx (hr.resolve_left hnot).symm

theorem Ends.step {l : List Note} (hi : Inv timeout s) (h : Ends (s, l)) (hok : Armed (s, l) e)
    (hm : Move timeout s e s') : Ends (s', l ++ note timeout s e) := by
  have hq := h.quiet.step hi hok hm
  have htimer (ht : s.timer ≠ .idle) (c : Completion) : s.callback ≠ .over c := fun hc =>
    ht (h.quiet.timer (by simp [hc, Callback.quiet]))
  cases hm with
  | setTimer hs =>
    have hover (c : Completion) : s.callback ≠ .over c := fun hc => by
      have := h.quiet.suspended (by simp [hc, Callback.reset])
      simp [hs] at this
    simp only [note]
    split
    · exact h.noted hq hover nofun
    · exact h.silent hq fun c hc => absurd hc (hover c)
  | onTimeout ht => exact h.noted hq (htimer (by simp [ht])) nofun
  | cancelIo found ht => exact h.noted hq (htimer (by simp [ht])) nofun
  | resume c hc => exact h.noted hq (by simp [hc]) fun _ => ⟨c, rfl⟩
  | issue hs =>
    have hnone := hi.issued (by simp [hs]) (by simp [hs])
    exact h.silent hq fun c hc => by simp [hnone] at hc
  | complete c hc | store c hc | disarm c hc | drainNone c hc | drain c hc =>
    exact h.silent hq fun d hd => by simp [hc] at hd
  | _ => exact h.silent hq fun c hc => hc

theorem reach_ends {s : St × List Note}
    (hs : ((sys timeout).logged (note timeout)).ReachBy Armed s) : Ends s := by
  refine hs.logged_induction (J := Ends) (fun _ h => reach_inv h) ?_ ?_
  · exact ⟨⟨nofun, nofun, nofun⟩, nofun, fun l₁ l₂ h => by simp at h⟩
  · intro s e s' l hi hj hok hst
    exact hj.step hi hok (step_move hst)

/-- The timer is reset before it is set, and is set after the resumption. -/
theorem not_dead_of_reset {l : List Note} {c : Completion} (ht : timeout ≠ 0)
    (hs : s.initiator = .issued) (htimer : s.timer = .idle) (hc : s.callback = .disarmed c) :
    ∃ t : St × List Note, ((sys timeout).logged (note timeout)).Later (fun _ _ => True) (s, l) t ∧
      ¬Dead t.2 := by
  have hdrain : step timeout s .drain = some { s with callback := .drained c, timer := .idle } := by
    simp [Timeout.step, initiatorStep, callbackStep, hc, ht, htimer]
  have hresume : step timeout { s with callback := .drained c, timer := .idle } .resume =
      some { s with callback := .over c, timer := .idle, coroutine := .resumed } := rfl
  obtain ⟨u, hset⟩ : ∃ u, step timeout
      { s with callback := .over c, timer := .idle, coroutine := .resumed } .setTimer = some u := by
    simp [Timeout.step, initiatorStep, hs]
  refine ⟨_, .step .setTimer (.step .resume (.step .drain .refl trivial
    (Sys.logged_of_step hdrain l)) trivial (Sys.logged_of_step hresume _)) trivial
    (Sys.logged_of_step hset _), fun hd => ?_⟩
  have := hd l [.setTimer] (by simp [note, ht])
  cases this

end Steps

/-! ## Results -/

/-- **The timer of an operation is dead once the coroutine is resumed**, in every run in which the
timer is reset after it was set; and after a step that resets it before, it may be set later. -/
theorem timer_dead (timeout : Int) (ht : timeout ≠ 0) :
    (∀ s, ((sys timeout).logged (note timeout)).ReachBy Armed s → Dead s.2) ∧
    ∀ s e s', ((sys timeout).logged (note timeout)).ReachBy Armed s → ¬Armed s e →
      ((sys timeout).logged (note timeout)).step s e = some s' →
      ∃ t, ((sys timeout).logged (note timeout)).Later (fun _ _ => True) s' t ∧ ¬Dead t.2 := by
  refine ⟨fun s hs => (reach_ends hs).dead, fun s e s' hs hok hst => ?_⟩
  have hi := reach_inv hs.base
  obtain ⟨hst, -⟩ := Sys.logged_step.mp hst
  obtain ⟨s', l'⟩ := s'
  cases e with
  | disarm =>
    have hne : s.1.initiator ≠ .suspended := hok
    have hm : Move timeout s.1 .disarm s' := step_move hst
    cases hm with
    | disarm c hc =>
      have hissued : s.1.initiator = .issued := by
        by_contra hs'
        have := hi.issued hs' hne
        rw [hc] at this
        cases this
      exact not_dead_of_reset ht hissued (hi.timer (.inl hne)).2 rfl
  | _ => exact absurd trivial hok

/-- The timer fires, and `CancelIoEx` finds the I/O pending. -/
def expired : List Ev :=
  [.start, .issue, .setTimer, .fire, .onTimeout, .cancelIo,
    .complete (.ownAbort 0), .store, .disarm, .timedOut, .drain, .resume]

/-- `Armed`, as a check. -/
def armedCheck (s : St × List Note) : Ev → Bool
  | .disarm => s.1.initiator = .suspended
  | _ => true

theorem armed_of_check (s : St × List Note) (e : Ev) (h : armedCheck s e = true) : Armed s e := by
  cases e with
  | disarm =>
    have hs : s.1.initiator = .suspended := of_decide_eq_true h
    exact hs
  | _ => trivial

theorem timer_dead_expired : Dead (((sys 5).logged (note 5)).after expired).2 :=
  (timer_dead 5 (by decide)).1 _ ((Sys.reachBy_meets rfl).mono armed_of_check)

/-- The I/O ends before `set_timer`. -/
def fast : List Ev :=
  [.start, .issue, .complete (.ended 0 4), .store, .disarm, .drain, .resume, .setTimer,
    .fire, .onTimeout, .cancelIo]

/-- The timer fires after the coroutine was resumed. -/
theorem timer_dead_fast :
    ¬∀ s, ((sys 5).logged (note 5)).Reach s → Dead s.2 := by
  intro h
  have hs : ((sys 5).logged (note 5)).Reach (((sys 5).logged (note 5)).after fast) :=
    Sys.reach_after rfl
  have := h _ hs [] [.setTimer, .onTimeout, .cancelIo] rfl
  cases this

/-- What `await_resume` makes of a completion. -/
theorem answer_eq {timeout : Int} {s : St} (hs : (sys timeout).Reach s) {c : Completion}
    (hc : s.callback = .over c) {r : Except IoError UInt32} (hr : s.coroutine = .over r) :
    r = if c.code = noError ∨ c.code = errorHandleEof then .ok c.bytes
      else .error .operationCancelled := by
  have hover : r = (awaitResume c.code c.bytes.toUInt64).2 := by
    obtain ⟨hres, -, -⟩ | h := (reach_results hs).told c hc
    · simp [hres] at hr
    · simpa [hr] using h
  rw [hover]
  unfold awaitResume
  by_cases h0 : c.code = noError <;> by_cases he : c.code = errorHandleEof <;> simp_all

/-- **`await_resume` tells a timeout from an I/O error** just when the operation has succeeded, or
was aborted by its own timeout. -/
theorem tells_iff {timeout : Int} {s : St} (hs : (sys timeout).Reach s) {c : Completion}
    (hc : s.callback = .over c) {r : Except IoError UInt32} (hr : s.coroutine = .over r) :
    Tells c r ↔ c.code = noError ∨ c.code = errorHandleEof ∨ c.isOwnAbort = true := by
  have h := answer_eq hs hc hr
  constructor
  · intro ht
    by_cases hcode : c.code = noError ∨ c.code = errorHandleEof
    · exact hcode.imp_right .inl
    · rw [if_neg hcode] at h
      exact .inr (.inr (ht.cancelled.mp h))
  · rintro hcond
    by_cases hcode : c.code = noError ∨ c.code = errorHandleEof
    · rw [if_pos hcode] at h
      have hown : c.isOwnAbort = false := by
        by_contra ho
        rw [Bool.not_eq_false] at ho
        rw [Completion.code_of_isOwnAbort ho] at hcode
        exact absurd hcode (by decide)
      exact ⟨fun _ => h, by simp [h, hown], fun h0 he _ => (hcode.elim h0 he).elim⟩
    · rw [if_neg hcode] at h
      have hown : c.isOwnAbort = true := by
        obtain h0 | he | hown := hcond
        · exact absurd (.inl h0) hcode
        · exact absurd (.inr he) hcode
        · exact hown
      exact ⟨fun hc => absurd hc hcode, by simp [h, hown], fun _ _ hn => by simp [hown] at hn⟩

theorem tells_iff_expired : Tells (.ownAbort 0) (.error .operationCancelled) :=
  (tells_iff (s := (sys 5).after (expired ++ [.awaitResume])) (Sys.reach_after rfl) rfl rfl).mpr
    (.inr (.inr rfl))

/-- `ERROR_ACCESS_DENIED` is told as a timeout, though the timer has not fired. -/
theorem tells_fails : ¬∀ s : St, (sys 5).Reach s → ∀ c r, s.callback = .over c →
    s.coroutine = .over r → Tells c r := by
  intro h
  have hs : (sys 5).Reach ((sys 5).after [.start, .issue, .setTimer, .complete (.ended 5 0),
      .store, .disarm, .drain, .resume, .awaitResume]) := Sys.reach_after rfl
  have ht : Tells (.ended 5 0) (.error .operationCancelled) := h _ hs _ _ rfl rfl
  have := ht.cancelled.mp rfl
  cases this

end Timeout

end Io

end Corsl
