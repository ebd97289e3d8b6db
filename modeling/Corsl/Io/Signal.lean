import Corsl.Conc.History
import Corsl.Io.Errors

/-!
# `resume_on_signal` (`compatible_base.h`)

One object, which a coroutine awaits any number of times, with the timeout `timeout`. The awaits
that are suspended are numbered, and each creates a wait object of its own.

* The coroutine: `await_ready`, which may find the handle signalled, `await_suspend` and
  `await_resume`. A callback resumes it inline: it then runs `inside` the callback, until it is
  suspended again or goes on elsewhere (`hop`).
* The callbacks of the wait objects. A wait is set once, and its callback comes once at most.
* `cancel()`: it is called after `await_suspend` has returned, and once at most for each suspended
  await. `WaitForThreadpoolWaitCallbacks(TRUE)` cancels a pending callback and waits for a running
  one.

`CreateThreadpoolWait` does not fail, nor does the submission of a cancelled coroutine. A step on a
null wait, and the resumption of a coroutine that is not suspended there, are undefined; nothing
follows them.
-/

namespace Corsl

open Conc

namespace Io

namespace Signal

def waitObject0 : UInt32 := 0

def waitTimeout : UInt32 := 258

def waitFailed : UInt32 := 0xFFFFFFFF

/-- The `TP_WAIT_RESULT` of a callback. -/
inductive WaitResult where
  | signalled
  | timedOut
  deriving DecidableEq, Repr

def WaitResult.code : WaitResult → UInt32
  | .signalled => waitObject0
  | .timedOut => waitTimeout

/-- Who has resumed a suspended await: the callback of a wait, or the `cancel()` of an await. -/
inductive How where
  | callback (w : Nat) (r : WaitResult)
  | cancelled (k : Nat)
  deriving DecidableEq, Repr

/-- Where the coroutine is. -/
inductive Coroutine where
  /-- `await_ready` is next. -/
  | running
  /-- `await_ready` has found the handle signalled; `await_resume` is next. -/
  | ready
  /-- It has not; `await_suspend` is next. -/
  | unready
  /-- `m_resume` is stored; `CreateThreadpoolWait` is next. -/
  | stored (n : Nat)
  /-- `m_wait` is attached; `SetThreadpoolWait` is next. -/
  | attached (n : Nat)
  | suspended (n : Nat)
  /-- `await_resume` is next. -/
  | resumed (n : Nat) (how : How)
  deriving DecidableEq, Repr

/-- A wait object and its callback. -/
inductive Wait where
  | none
  | created
  /-- It has been set. -/
  | armed
  | pending (r : WaitResult)
  /-- In the callback; the store of `m_result` is next. -/
  | running (r : WaitResult)
  /-- The exchange of `m_resume` is next. -/
  | stored (r : WaitResult)
  /-- In `resume()`. -/
  | resuming
  | over
  deriving DecidableEq, Repr

/-- Where the call of `cancel()` for an await is. -/
inductive Cancel where
  | idle
  /-- `SetThreadpoolWait(m_wait, nullptr)` is next. -/
  | entered
  /-- `WaitForThreadpoolWaitCallbacks` is next. -/
  | disarmed
  /-- `m_wait.close()` is next. -/
  | drained
  /-- The store of `WAIT_FAILED` is next. -/
  | closed
  /-- The exchange of `m_resume` is next. -/
  | failed
  /-- `resume_on_background` has been called for the await `n`. -/
  | submitted (n : Nat)
  | done
  deriving DecidableEq, Repr

/-- The state of the system. -/
structure St where
  coro : Coroutine := .running
  /-- The callback that the coroutine runs in. -/
  inside : Option Nat := none
  /-- The number of the awaits that have called `await_suspend`. -/
  next : Nat := 0
  mResult : UInt32 := 0
  mResume : Option Nat := none
  mWait : Option Nat := none
  waits : Nat → Wait := fun _ => .none
  cancels : Nat → Cancel := fun _ => .idle
  undefined : Bool := false

/-- The atomic steps. -/
inductive Ev where
  /-- `await_ready`, and whether it finds the handle signalled. -/
  | awaitReady (found : Bool)
  /-- The steps of `await_suspend`. -/
  | store
  | attach
  | setWait
  | awaitResume
  /-- The coroutine goes on in another thread. -/
  | hop
  /-- The handle is signalled, or the timeout is over: the callback of the wait is queued. -/
  | fire (w : Nat) (r : WaitResult)
  /-- The steps of the callback. -/
  | start (w : Nat)
  | result (w : Nat)
  | exchange (w : Nat)
  | returns (w : Nat)
  /-- `cancel()` is called for the last suspended await; the steps of the call follow. -/
  | cancel
  | disarm (k : Nat)
  | drain (k : Nat)
  | close (k : Nat)
  | fail (k : Nat)
  | take (k : Nat)
  /-- The thread pool resumes the coroutine. -/
  | background (k : Nat)

/-- `await_resume`. -/
def awaitResume (mResult : UInt32) : Except IoError Bool :=
  if mResult = waitFailed then .error .operationCancelled else .ok (mResult = waitObject0)

/-- After `SetThreadpoolWait(nullptr)`. -/
@[grind] def Wait.disarm : Wait → Wait
  | .armed => .over
  | w => w

/-- After `CloseThreadpoolWait`. -/
def Wait.close : Wait → Wait
  | .created | .armed => .over
  | w => w

/-- The callback runs. -/
@[grind] def Wait.busy : Wait → Bool
  | .running _ | .stored _ | .resuming => true
  | .none | .created | .armed | .pending _ | .over => false

/-- `m_wait.close()`. -/
def St.closeWait (s : St) : St :=
  match s.mWait with
  | some w => { s with mWait := none, waits := Function.update s.waits w (s.waits w).close }
  | none => s

/-- The coroutine is resumed from the await `n`. -/
def St.resume (s : St) (n : Nat) (how : How) : St :=
  if s.coro = .suspended n then { s with coro := .resumed n how } else { s with undefined := true }

/-- The steps of the coroutine. -/
def coroStep (s : St) : Ev → Option St
  | .awaitReady found =>
    if s.coro = .running then some { s with coro := if found then .ready else .unready } else none
  | .store =>
    if s.coro = .unready then
      some { s with coro := .stored s.next, mResume := some s.next, next := s.next + 1 }
    else none
  | .attach =>
    match s.coro with
    | .stored n =>
      some { s.closeWait with
        coro := .attached n
        mWait := some n
        waits := Function.update s.closeWait.waits n .created }
    | _ => none
  | .setWait =>
    match s.coro with
    | .attached n =>
      match s.mWait with
      | some w => some { s with
          coro := .suspended n, inside := none, waits := Function.update s.waits w .armed }
      | none => some { s with undefined := true }
    | _ => none
  | .awaitResume =>
    match s.coro with
    | .ready | .resumed _ _ => some { s with coro := .running }
    | _ => none
  | .hop => if s.coro = .running then some { s with inside := none } else none
  | _ => none

/-- The steps of the waits and of their callbacks. -/
def callbackStep (timeout : Int) (s : St) : Ev → Option St
  | .fire w r =>
    if s.waits w = .armed ∧ (r = .timedOut → timeout ≠ 0) then
      some { s with waits := Function.update s.waits w (.pending r) }
    else none
  | .start w =>
    match s.waits w with
    | .pending r => some { s with waits := Function.update s.waits w (.running r) }
    | _ => none
  | .result w =>
    match s.waits w with
    | .running r =>
      some { s with mResult := r.code, waits := Function.update s.waits w (.stored r) }
    | _ => none
  | .exchange w =>
    match s.waits w with
    | .stored r =>
      match s.mResume with
      | some n => some <| St.resume
          { s with
            mResume := none, inside := some w, waits := Function.update s.waits w .resuming }
          n (.callback w r)
      | none => some { s with waits := Function.update s.waits w .over }
    | _ => none
  | .returns w =>
    if s.waits w = .resuming ∧ s.inside ≠ some w then
      some { s with waits := Function.update s.waits w .over }
    else none
  | _ => none

/-- `await_suspend` is in progress. -/
@[grind] def Coroutine.suspending : Coroutine → Bool
  | .stored _ | .attached _ => true
  | .running | .ready | .unready | .suspended _ | .resumed _ _ => false

/-- The steps of the calls of `cancel()`. -/
def cancelStep (s : St) : Ev → Option St
  | .cancel =>
    match s.next with
    | 0 => none
    | n + 1 =>
      if s.coro.suspending = false ∧ s.cancels n = .idle then
        -- assert(m_wait)
        if s.mWait = none then some { s with undefined := true }
        else some { s with cancels := Function.update s.cancels n .entered }
      else none
  | .disarm k =>
    if s.cancels k = .entered then
      match s.mWait with
      | some w => some { s with
          waits := Function.update s.waits w (s.waits w).disarm
          cancels := Function.update s.cancels k .disarmed }
      | none => some { s with undefined := true }
    else none
  | .drain k =>
    if s.cancels k = .disarmed then
      match s.mWait with
      | some w =>
        if (s.waits w).busy = true then none
        else some { s with
          waits := Function.update s.waits w
            (match s.waits w with | .pending _ => .over | v => v)
          cancels := Function.update s.cancels k .drained }
      | none => some { s with undefined := true }
    else none
  | .close k =>
    if s.cancels k = .drained then
      some { s.closeWait with cancels := Function.update s.cancels k .closed }
    else none
  | .fail k =>
    if s.cancels k = .closed then
      some { s with mResult := waitFailed, cancels := Function.update s.cancels k .failed }
    else none
  | .take k =>
    if s.cancels k = .failed then
      match s.mResume with
      | some n => some { s with
          mResume := none, cancels := Function.update s.cancels k (.submitted n) }
      | none => some { s with cancels := Function.update s.cancels k .done }
    else none
  | .background k =>
    match s.cancels k with
    | .submitted n =>
      some (St.resume { s with cancels := Function.update s.cancels k .done } n (.cancelled k))
    | _ => none
  | _ => none

/-- One atomic step. -/
def step (timeout : Int) (s : St) (e : Ev) : Option St :=
  if s.undefined = true then none
  else
    match coroStep s e with
    | some s' => some s'
    | none =>
      match callbackStep timeout s e with
      | some s' => some s'
      | none => cancelStep s e

/-- The awaits of one object. -/
def sys (timeout : Int) : Sys St Ev := ⟨{}, step timeout⟩

/-- What the history keeps: the resumptions, and what `await_resume` has returned or thrown. -/
inductive Note where
  | resumed (n : Nat)
  /-- The await was not suspended. -/
  | ready (r : Except IoError Bool)
  | awaited (n : Nat) (how : How) (r : Except IoError Bool)

def note (s : St) : Ev → List Note
  | .exchange w =>
    match s.waits w, s.mResume with
    | .stored _, some n => [.resumed n]
    | _, _ => []
  | .background k =>
    match s.cancels k with
    | .submitted n => [.resumed n]
    | _ => []
  | .awaitResume =>
    match s.coro with
    | .ready => [.ready (awaitResume s.mResult)]
    | .resumed n how => [.awaited n how (awaitResume s.mResult)]
    | _ => []
  | _ => []

/-- The awaits that have been resumed, in order. -/
def resumptions (l : List Note) : List Nat :=
  l.filterMap fun | .resumed n => some n | .ready _ | .awaited _ _ _ => none

/-- The system with its history. -/
abbrev history (timeout : Int) : Sys (St × List Note) Ev := (sys timeout).logged note

/-! ## The condition -/

/-- The call has not come to the exchange of `m_resume`. -/
@[grind] def Cancel.contends : Cancel → Bool
  | .entered | .disarmed | .drained | .closed | .failed => true
  | .idle | .submitted _ | .done => false

/-- An `await_ready` that finds the handle signalled finds `m_result` as if it was: it has not been
left by another await, nor is it overwritten before `await_resume`. No `await_suspend` begins while
a `cancel()` is in progress. -/
def Clean (s : St × List Note) : Ev → Prop
  | .awaitReady true => s.1.mResult = waitObject0
  | .fail _ => s.1.coro ≠ .ready
  | .store => ∀ k < s.1.next, (s.1.cancels k).contends = false
  | _ => True

/-! ## Invariants -/

/-- The wait is set, and its callback has not come to the exchange of `m_resume`. -/
@[grind] def Wait.active : Wait → Bool
  | .armed | .pending _ | .running _ | .stored _ => true
  | .none | .created | .resuming | .over => false

/-- `m_wait` is still open. -/
@[grind] def Cancel.opened : Cancel → Bool
  | .idle | .entered | .disarmed | .drained => true
  | .closed | .failed | .submitted _ | .done => false

/-- No callback comes any more. -/
@[grind] def Cancel.quiet : Cancel → Bool
  | .drained | .closed | .failed | .submitted _ | .done => true
  | .idle | .entered | .disarmed => false

/-- The await that the coroutine is in. -/
@[grind] def Coroutine.await : Coroutine → Option Nat
  | .stored n | .attached n | .suspended n | .resumed n _ => some n
  | .running | .ready | .unready => none

/-- The coroutine has called `await_suspend` for the await `n`, and has not been resumed. -/
@[grind] def Coroutine.waits (n : Nat) : Coroutine → Bool
  | .stored m | .attached m | .suspended m => m = n
  | .running | .ready | .unready | .resumed _ _ => false

/-- What the waits and the calls of `cancel()` say of the coroutine. -/
structure Inv (s : St) : Prop where
  defined : s.undefined = false
  fresh : ∀ n, s.next ≤ n → s.waits n = .none ∧ s.cancels n = .idle
  last : ∀ n, s.coro.await = some n → s.next = n + 1
  contends : ∀ n, (s.cancels n).contends = true → s.next = n + 1 ∧ s.coro.suspending = false
  resume : ∀ n, s.mResume = some n → s.coro.waits n = true
  kept : ∀ n, s.coro.waits n = true → s.mResume = some n ∨ s.cancels n = .submitted n
  submitted : ∀ k n, s.cancels k = .submitted n → n = k ∧ s.coro = .suspended n ∧ s.mResume = none
  stored : ∀ n, s.coro = .stored n → s.waits n = .none ∧ s.cancels n = .idle
  attached : ∀ n, s.coro = .attached n →
    s.waits n = .created ∧ s.cancels n = .idle ∧ s.mWait = some n
  unset : ∀ n, s.waits n = .none → s.next ≤ n ∨ s.coro = .stored n
  created : ∀ n, s.waits n = .created → s.coro = .attached n
  active : ∀ n, (s.waits n).active = true → s.coro = .suspended n
  suspended : ∀ n, s.coro = .suspended n → (s.waits n).active = true ∨
    s.waits n = .over ∧ s.cancels n ≠ .idle ∧ s.cancels n ≠ .entered ∧ s.cancels n ≠ .done
  armed : ∀ n, s.waits n = .armed → s.cancels n ≠ .disarmed
  wait : ∀ n, s.next = n + 1 → s.coro ≠ .stored n → (s.cancels n).opened = true → s.mWait = some n
  quiet : ∀ n, (s.cancels n).quiet = true → s.waits n = .over
  inside : ∀ w, s.inside = some w → s.waits w = .resuming

/-! ## The steps -/

section Steps

variable {timeout : Int} {s s' : St} {e : Ev}

theorem Inv.init : Inv {} := by
  constructor <;>
    simp [Coroutine.await, Coroutine.waits, Wait.active, Cancel.contends, Cancel.quiet]

/-- `m_wait.close()` closes a wait that is not set. -/
theorem closeWait_eq (h : ∀ w, s.mWait = some w → (s.waits w).close = s.waits w) :
    s.closeWait = { s with mWait := none } := by
  unfold St.closeWait
  split
  · rename_i w hw
    simp [h w hw]
  · rename_i hw
    rw [← hw]

theorem Wait.disarm_eq (v : Wait) : v = .armed ∧ v.disarm = .over ∨ v ≠ .armed ∧ v.disarm = v := by
  cases v <;> simp [Wait.disarm]

namespace Inv

/-- The call of `cancel()` that is in progress is for the last await, and it holds its wait. -/
theorem wait_of_contends (h : Inv s) {k : Nat} {c : Cancel} (hk : s.cancels k = c)
    (hc : c.contends = true) (ho : c.opened = true) : s.mWait = some k := by
  have ⟨hn, hs⟩ := h.contends k (by rw [hk, hc])
  refine h.wait k hn (fun hs' => ?_) (by rw [hk, ho])
  simp [hs', Coroutine.suspending] at hs

theorem suspended_of_resume (h : Inv s) {k n : Nat} (hk : s.cancels k = .failed)
    (hr : s.mResume = some n) : n = k ∧ s.coro = .suspended k := by
  have ⟨hn, hc⟩ := h.contends k (by rw [hk]; rfl)
  have hw := h.resume n hr
  have hl := h.last n
  cases hcoro : s.coro <;> grind -linarith

theorem suspended_of_stored (h : Inv s) {w : Nat} {r : WaitResult} (hw : s.waits w = .stored r) :
    s.coro = .suspended w ∧ s.mResume = some w := by
  have hc := h.active w (by simp [hw, Wait.active])
  refine ⟨hc, (h.kept w (by simp [hc, Coroutine.waits])).resolve_right fun hs => ?_⟩
  have := h.quiet w (by simp [hs, Cancel.quiet])
  simp [hw] at this

/-- The wait of an earlier await is not set. -/
theorem close_of_stored (h : Inv s) {n w : Nat} (hc : s.coro = .stored n) :
    (s.waits w).close = s.waits w := by
  have hcreated := h.created w
  have hactive := h.active w
  cases hw : s.waits w <;> simp_all [Wait.close, Wait.active]

/-- A pending callback is cancelled. -/
theorem drain_eq (h : Inv s) {k : Nat} (hk : s.cancels k = .disarmed)
    (hb : (s.waits k).busy = false) :
    (match s.waits k with | .pending _ => .over | v => v) = Wait.over := by
  have ⟨hn, hc⟩ := h.contends k (by simp [hk, Cancel.contends])
  have hunset := h.unset k
  have hcreated := h.created k
  have harmed := h.armed k
  cases hw : s.waits k <;> grind -linarith

end Inv

/-- The steps, with what they find and leave, from a state that meets `Inv`. -/
inductive Move (s : St) : Ev → St → Prop
  | awaitReady (found : Bool) : s.coro = .running →
    Move s (.awaitReady found) { s with coro := if found then .ready else .unready }
  | store : s.coro = .unready → Move s .store
    { s with coro := .stored s.next, mResume := some s.next, next := s.next + 1 }
  | attach (n : Nat) : s.coro = .stored n → Move s .attach
    { s with coro := .attached n, mWait := some n, waits := Function.update s.waits n .created }
  | setWait (n : Nat) : s.coro = .attached n → Move s .setWait
    { s with coro := .suspended n, inside := none, waits := Function.update s.waits n .armed }
  | awaitReadied : s.coro = .ready → Move s .awaitResume { s with coro := .running }
  | awaitResume (n : Nat) (how : How) : s.coro = .resumed n how →
    Move s .awaitResume { s with coro := .running }
  | hop : s.coro = .running → Move s .hop { s with inside := none }
  | fire (w : Nat) (r : WaitResult) : s.waits w = .armed →
    Move s (.fire w r) { s with waits := Function.update s.waits w (.pending r) }
  | start (w : Nat) (r : WaitResult) : s.waits w = .pending r →
    Move s (.start w) { s with waits := Function.update s.waits w (.running r) }
  | result (w : Nat) (r : WaitResult) : s.waits w = .running r → Move s (.result w)
    { s with mResult := r.code, waits := Function.update s.waits w (.stored r) }
  | exchange (n : Nat) (r : WaitResult) : s.waits n = .stored r → s.coro = .suspended n →
    s.mResume = some n → Move s (.exchange n)
    { s with
      coro := .resumed n (.callback n r)
      mResume := none
      inside := some n
      waits := Function.update s.waits n .resuming }
  | returns (w : Nat) : s.waits w = .resuming → s.inside ≠ some w →
    Move s (.returns w) { s with waits := Function.update s.waits w .over }
  | cancel (n : Nat) : s.next = n + 1 → s.coro.suspending = false → s.cancels n = .idle →
    Move s .cancel { s with cancels := Function.update s.cancels n .entered }
  | disarm (k : Nat) : s.cancels k = .entered → Move s (.disarm k)
    { s with
      waits := Function.update s.waits k (s.waits k).disarm
      cancels := Function.update s.cancels k .disarmed }
  | drain (k : Nat) : s.cancels k = .disarmed → (s.waits k).busy = false → Move s (.drain k)
    { s with
      waits := Function.update s.waits k .over
      cancels := Function.update s.cancels k .drained }
  | close (k : Nat) : s.cancels k = .drained → Move s (.close k)
    { s with mWait := none, cancels := Function.update s.cancels k .closed }
  | fail (k : Nat) : s.cancels k = .closed → Move s (.fail k)
    { s with mResult := waitFailed, cancels := Function.update s.cancels k .failed }
  | take (k : Nat) : s.cancels k = .failed → s.coro = .suspended k → Move s (.take k)
    { s with mResume := none, cancels := Function.update s.cancels k (.submitted k) }
  | takeNone (k : Nat) : s.cancels k = .failed → s.mResume = none →
    Move s (.take k) { s with cancels := Function.update s.cancels k .done }
  | background (k : Nat) : s.cancels k = .submitted k → s.coro = .suspended k →
    Move s (.background k)
    { s with coro := .resumed k (.cancelled k), cancels := Function.update s.cancels k .done }

theorem coroStep_move (h : Inv s) (hst : coroStep s e = some s') : Move s e s' := by
  cases e with
  | awaitReady found =>
    simp only [coroStep] at hst
    split at hst <;> cases hst
    exact .awaitReady found (by assumption)
  | store | hop =>
    simp only [coroStep] at hst
    split at hst <;> cases hst
    constructor
    assumption
  | attach =>
    simp only [coroStep] at hst
    split at hst <;> cases hst
    rename_i n hn
    rw [closeWait_eq fun w _ => h.close_of_stored hn]
    exact .attach n hn
  | setWait =>
    simp only [coroStep] at hst
    split at hst
    · rename_i n hn
      split at hst <;> cases hst
      · rename_i w hw
        cases (h.attached n hn).2.2.symm.trans hw
        exact .setWait n hn
      · rename_i hw
        cases (h.attached n hn).2.2.symm.trans hw
    · cases hst
  | awaitResume =>
    simp only [coroStep] at hst
    split at hst <;> cases hst
    · exact .awaitReadied (by assumption)
    · exact .awaitResume _ _ (by assumption)
  | _ => cases hst

theorem callbackStep_move (h : Inv s) (hst : callbackStep timeout s e = some s') :
    Move s e s' := by
  cases e with
  | fire w r =>
    simp only [callbackStep] at hst
    split at hst <;> cases hst
    rename_i hw
    exact .fire w r hw.1
  | start w | result w =>
    simp only [callbackStep] at hst
    split at hst <;> cases hst
    constructor
    assumption
  | exchange w =>
    simp only [callbackStep] at hst
    split at hst
    · rename_i r hw
      obtain ⟨hc, hr⟩ := h.suspended_of_stored hw
      rw [hr] at hst
      cases hst
      rw [St.resume, if_pos hc]
      exact .exchange w r hw hc hr
    · cases hst
  | returns w =>
    simp only [callbackStep] at hst
    split at hst <;> cases hst
    rename_i hw
    exact .returns w hw.1 hw.2
  | _ => cases hst

theorem cancelStep_move (h : Inv s) (hst : cancelStep s e = some s') : Move s e s' := by
  cases e with
  | cancel =>
    simp only [cancelStep] at hst
    split at hst
    · cases hst
    · split at hst
      · rename_i n hn hc
        have hw := h.wait n hn (fun hs => by simp [hs, Coroutine.suspending] at hc)
          (by rw [hc.2]; rfl)
        rw [if_neg (by simp [hw])] at hst
        cases hst
        exact .cancel n hn hc.1 hc.2
      · cases hst
  | disarm k =>
    simp only [cancelStep] at hst
    split at hst
    · rename_i hk
      have hwait := h.wait_of_contends hk rfl rfl
      split at hst <;> cases hst
      · rename_i w hw
        cases hwait.symm.trans hw
        exact .disarm k hk
      · rename_i hw
        cases hwait.symm.trans hw
    · cases hst
  | drain k =>
    simp only [cancelStep] at hst
    split at hst
    · rename_i hk
      have hwait := h.wait_of_contends hk rfl rfl
      split at hst
      · rename_i w hw
        cases hwait.symm.trans hw
        split at hst <;> cases hst
        rename_i hb
        rw [h.drain_eq hk (by simpa using hb)]
        exact .drain k hk (by simpa using hb)
      · rename_i hw
        cases hwait.symm.trans hw
    · cases hst
  | close k =>
    simp only [cancelStep] at hst
    split at hst <;> cases hst
    rename_i hk
    rw [closeWait_eq fun w hw => ?_]
    · exact .close k hk
    · cases (h.wait_of_contends hk rfl rfl).symm.trans hw
      rw [h.quiet k (by rw [hk]; rfl)]
      rfl
  | fail k =>
    simp only [cancelStep] at hst
    split at hst <;> cases hst
    exact .fail k (by assumption)
  | take k =>
    simp only [cancelStep] at hst
    split at hst
    · rename_i hk
      split at hst <;> cases hst
      · rename_i n hr
        obtain ⟨rfl, hc⟩ := h.suspended_of_resume hk hr
        exact .take n hk hc
      · exact .takeNone k hk (by assumption)
    · cases hst
  | background k =>
    simp only [cancelStep] at hst
    split at hst <;> cases hst
    rename_i n hk
    obtain ⟨rfl, hc, -⟩ := h.submitted k n hk
    rw [St.resume, if_pos hc]
    exact .background n hk hc
  | _ => cases hst

theorem step_move (h : Inv s) (hst : step timeout s e = some s') : Move s e s' := by
  unfold step at hst
  split at hst
  · cases hst
  · split at hst
    · cases hst
      exact coroStep_move h (by assumption)
    · split at hst
      · cases hst
        exact callbackStep_move h (by assumption)
      · exact cancelStep_move h hst

namespace Inv

/-! What each step keeps: the fields speak of the last await, and of no other. -/

theorem of_free (h : Inv s) {c : Coroutine} (hc : ∀ n, s.coro.waits n = false)
    (hc' : c.await = none) : Inv { s with coro := c } := by
  obtain ⟨⟩ := h
  cases c <;> constructor <;> grind -linarith

theorem of_hop (h : Inv s) : Inv { s with inside := none } :=
  { h with inside := fun _ hw => nomatch hw }

theorem of_store (h : Inv s) (hc : s.coro = .unready)
    (hcan : ∀ k < s.next, (s.cancels k).contends = false) :
    Inv { s with coro := .stored s.next, mResume := some s.next, next := s.next + 1 } := by
  obtain ⟨⟩ := h
  constructor <;> grind -linarith

theorem of_attach (h : Inv s) {n : Nat} (hc : s.coro = .stored n) :
    Inv { s with
      coro := .attached n, mWait := some n, waits := Function.update s.waits n .created } := by
  obtain ⟨⟩ := h
  constructor <;> grind -linarith

theorem of_setWait (h : Inv s) {n : Nat} (hc : s.coro = .attached n) :
    Inv { s with
      coro := .suspended n, inside := none, waits := Function.update s.waits n .armed } := by
  obtain ⟨⟩ := h
  constructor <;> grind -linarith

/-- The callback comes nearer to the exchange of `m_resume`. -/
theorem of_active (h : Inv s) {w : Nat} {v : Wait} {m : UInt32}
    (hw : (s.waits w).active = true) (hv : v.active = true) (hva : v ≠ .armed) :
    Inv { s with mResult := m, waits := Function.update s.waits w v } := by
  obtain ⟨⟩ := h
  constructor <;> grind -linarith

theorem of_exchange (h : Inv s) {n : Nat} {r : WaitResult} (hw : s.waits n = .stored r)
    (hc : s.coro = .suspended n) :
    Inv { s with
      coro := .resumed n (.callback n r)
      mResume := none
      inside := some n
      waits := Function.update s.waits n .resuming } := by
  obtain ⟨⟩ := h
  constructor <;> grind -linarith

theorem of_returns (h : Inv s) {w : Nat} (hw : s.waits w = .resuming)
    (hi : s.inside ≠ some w) : Inv { s with waits := Function.update s.waits w .over } := by
  obtain ⟨⟩ := h
  constructor <;> grind -linarith

theorem of_cancel (h : Inv s) {n : Nat} (hn : s.next = n + 1) (hc : s.coro.suspending = false)
    (hi : s.cancels n = .idle) :
    Inv { s with cancels := Function.update s.cancels n .entered } := by
  obtain ⟨⟩ := h
  constructor <;> grind -linarith

/-- The call of `cancel()` comes nearer to the exchange of `m_resume`. It may end its wait, which no
callback is in then. -/
theorem of_contends (h : Inv s) {k : Nat} {c : Cancel} {m : UInt32} {w : Option Nat} (v : Wait)
    (hk : (s.cancels k).contends = true) (hc : c.contends = true) (hce : c ≠ .entered)
    (hv : v = s.waits k ∧ v ≠ .armed ∨ v = .over ∧ s.waits k ≠ .resuming)
    (hq : c.quiet = true → v = .over)
    (hw : c.opened = true → w = s.mWait ∧ (s.cancels k).opened = true) :
    Inv { s with
      mResult := m
      mWait := w
      waits := Function.update s.waits k v
      cancels := Function.update s.cancels k c } := by
  obtain ⟨⟩ := h
  constructor <;> grind -linarith

/-- The steps of `cancel()` between the end of its wait and the exchange of `m_resume`. -/
theorem of_drained (h : Inv s) {k : Nat} {c c' : Cancel} {m : UInt32} {w : Option Nat}
    (hk : s.cancels k = c) (hc : c.contends = true) (hq : c.quiet = true)
    (hc' : c'.contends = true) (ho : c'.opened = false) (he : c' ≠ .entered) :
    Inv { s with mResult := m, mWait := w, cancels := Function.update s.cancels k c' } := by
  have hover : s.waits k = .over := h.quiet k (by rw [hk, hq])
  have := h.of_contends (m := m) (w := w) (s.waits k) (by rw [hk, hc]) hc' he
    (.inl ⟨rfl, by simp [hover]⟩) (fun _ => hover) (by simp [ho])
  rwa [Function.update_eq_self] at this

theorem of_take (h : Inv s) {k : Nat} (hk : s.cancels k = .failed)
    (hc : s.coro = .suspended k) :
    Inv { s with mResume := none, cancels := Function.update s.cancels k (.submitted k) } := by
  obtain ⟨⟩ := h
  constructor <;> grind -linarith

theorem of_takeNone (h : Inv s) {k : Nat} (hk : s.cancels k = .failed) (hr : s.mResume = none) :
    Inv { s with cancels := Function.update s.cancels k .done } := by
  obtain ⟨⟩ := h
  constructor <;> grind -linarith

theorem of_background (h : Inv s) {k : Nat} (hk : s.cancels k = .submitted k) :
    Inv { s with
      coro := .resumed k (.cancelled k), cancels := Function.update s.cancels k .done } := by
  obtain ⟨⟩ := h
  constructor <;> grind -linarith

end Inv

theorem Inv.step {l : List Note} (h : Inv s) (hok : Clean (s, l) e) (hm : Move s e s') :
    Inv s' := by
  cases hm with
  | awaitReady found hc =>
    refine h.of_free (by simp [hc, Coroutine.waits]) ?_
    cases found <;> rfl
  | store hc => exact h.of_store hc hok
  | attach n hc => exact h.of_attach hc
  | setWait n hc => exact h.of_setWait hc
  | awaitReadied hc | awaitResume n how hc => exact h.of_free (by simp [hc, Coroutine.waits]) rfl
  | hop hc => exact h.of_hop
  | fire w r hw | start w r hw | result w r hw =>
    exact h.of_active (by simp [hw, Wait.active]) rfl (by simp)
  | exchange n r hw hc hr => exact h.of_exchange hw hc
  | returns w hw hi => exact h.of_returns hw hi
  | cancel n hn hc hi => exact h.of_cancel hn hc hi
  | disarm k hk =>
    refine h.of_contends _ (by rw [hk]; rfl) rfl (by simp) ?_ (by simp [Cancel.quiet])
      (by simp [hk, Cancel.opened])
    obtain ⟨ha, hd⟩ | ⟨ha, hd⟩ := (s.waits k).disarm_eq
    · exact .inr ⟨hd, by simp [ha]⟩
    · exact .inl ⟨hd, by rwa [hd]⟩
  | drain k hk hb =>
    exact h.of_contends .over (by rw [hk]; rfl) rfl (by simp)
      (.inr ⟨rfl, fun hr => by simp [hr, Wait.busy] at hb⟩) (fun _ => rfl)
      (by simp [hk, Cancel.opened])
  | close k hk | fail k hk => exact h.of_drained hk rfl rfl rfl rfl (by simp)
  | take k hk hc => exact h.of_take hk hc
  | takeNone k hk hr => exact h.of_takeNone hk hr
  | background k hk hc => exact h.of_background hk

theorem reach_inv {s : St × List Note} (hs : (history timeout).ReachBy Clean s) : Inv s.1 := by
  have hinv : (history timeout).Inductive Clean fun s => Inv s.1 :=
    ⟨.init, fun s _ _ h hok hst => h.step hok (step_move h (Sys.logged_step.mp hst).1)⟩
  exact hinv.reach hs

end Steps

end Signal

end Io

end Corsl
