import Corsl.Basic
import Corsl.Conc.Sys

/-!
# Timers (`async_timer.h`, `tp_timer.h`)

One waiting coroutine, which waits any number of times, the threads that call `cancel()`, and the
thread pool that runs the timer's callbacks. The two timers share the code of `resume`,
`check_cancellation`, `check_exception` and `cancel`; `Kind` tells them apart where they differ:

* `async_timer::wait` takes a duration and clears the flag; a duration that is not positive does not
  suspend. `suspend` arms the timer after it has released the lock, and as `await_suspend` is
  `noexcept`, a cancellation that it finds terminates the program.
* `tp_timer::wait` does neither. `start` and `stop` arm and disarm the timer, periodically even, and
  a cancellation that `suspend` finds is thrown into the coroutine.

`Timer` and `OsTimer` are the data, with one function for each piece of code that is atomic; the
steps of `St` put them in any order. A `cancel()` raises the flag and disarms the timer in one
section, then waits for the callbacks that run (`drain`), and resumes the coroutine in another
section. A callback is dispatched first and takes the lock later.

The waits are numbered. `dispatched` lists those that were parked when a callback was dispatched.

`CreateThreadpoolTimer` does not fail here, nor does the submission of `resume(true)`, where the
exception would leave `resume` and `cancel`, which are `noexcept`. `Failing.sys` has that step, too.
-/

namespace Corsl

open Conc Function

namespace Timers

/-! ## The timer -/

/-- Which of the two timers. -/
inductive Kind where
  | async | tp
  deriving DecidableEq, Repr

/-- The members of a timer; a handle is the number of its wait. -/
structure Timer where
  resumeLocation : Option Nat := none
  cancellationRequested : Bool := false
  deriving DecidableEq, Repr

namespace Timer

/-- The exchange of `resume`: the continuation. -/
def resume (t : Timer) : Option Nat × Timer := (t.resumeLocation, { t with resumeLocation := none })

/-- `check_cancellation` and `check_exception`: what is thrown. -/
def checkException (t : Timer) : Option Exception × Timer :=
  if t.cancellationRequested then
    (some .timerCancelled, { t with cancellationRequested := false })
  else (none, t)

/-- The section of `suspend`: what is thrown, or the continuation is stored; `none` where the
assertion fails. -/
def suspend (t : Timer) (handle : Nat) : Option (Option Exception × Timer) :=
  match t.checkException with
  | (some e, t) => some (some e, t)
  | (none, t) =>
    if t.resumeLocation.isSome then none
    else some (none, { t with resumeLocation := some handle })

/-- The section of `async_timer::wait`. -/
def clear (t : Timer) : Timer := { t with cancellationRequested := false }

/-- The first section of `cancel`: if it waits for the callbacks next. -/
def raise (t : Timer) : Bool × Timer :=
  (t.resumeLocation.isSome, { t with cancellationRequested := true })

end Timer

/-- A timer of the thread pool. -/
structure OsTimer where
  armed : Bool := false
  periodic : Bool := false
  /-- The callbacks that are queued and not dispatched. -/
  queued : Nat := 0
  deriving DecidableEq, Repr

namespace OsTimer

/-- `SetThreadpoolTimer` with a due time, and a period maybe. -/
def set (o : OsTimer) (periodic : Bool) : OsTimer := { o with armed := true, periodic }

/-- `SetThreadpoolTimer` without a due time. What is queued already stays. -/
def unset (o : OsTimer) : OsTimer := { o with armed := false }

/-- The timer expires. -/
def expire (o : OsTimer) : OsTimer := { o with armed := o.periodic, queued := o.queued + 1 }

/-- `WaitForThreadpoolTimerCallbacks` drops what is queued, before it waits. -/
def drop (o : OsTimer) : OsTimer := { o with queued := 0 }

end OsTimer

/-! ## The system -/

/-- Where the coroutine is. -/
inductive Coro where
  | idle
  /-- It has the awaiter of wait `n`; `ready`: the duration is not positive. -/
  | created (n : Nat) (ready : Bool)
  /-- Suspended in wait `n`. -/
  | parked (n : Nat)
  /-- `await_resume` of wait `n` is next; `wasParked`: it was suspended. -/
  | resuming (n : Nat) (wasParked : Bool)
  deriving DecidableEq, Repr

/-- Where a call of `cancel` is. -/
inductive CancelPc where
  | unborn
  /-- `WaitForThreadpoolTimerCallbacks` is next. -/
  | raised
  /-- It waits for these callbacks. -/
  | draining (running : List Nat)
  /-- `resume(true)` is next. -/
  | trailing
  | done
  deriving DecidableEq, Repr

/-- Where a callback is. -/
inductive CallbackPc where
  | unborn
  /-- It is dispatched; `resume(false)` is next. -/
  | dispatched
  /-- It runs the continuation of wait `n`. -/
  | inline (n : Nat)
  | done
  deriving DecidableEq, Repr

/-- A call of `cancel`, with the wait that was parked when it raised the flag. -/
structure Cancel where
  pc : CancelPc := .unborn
  seen : Option Nat := none
  deriving DecidableEq, Repr

/-- A callback, with the wait that was parked when it was dispatched. -/
structure Callback where
  pc : CallbackPc := .unborn
  seen : Option Nat := none
  deriving DecidableEq, Repr

/-- The state of the system, and its history. -/
structure St where
  timer : Timer := {}
  os : OsTimer := {}
  coro : Coro := .idle
  /-- The number of waits so far. -/
  waits : Nat := 0
  /-- The threads that have parked the coroutine and arm the timer next. -/
  arming : Nat := 0
  cancels : Nat → Cancel := fun _ => {}
  callbacks : Nat → Callback := fun _ => {}
  /-- The number of callbacks so far. -/
  started : Nat := 0
  terminated : Bool := false
  undefined : Bool := false
  /-- The waits that were parked when a callback was dispatched. -/
  dispatched : List Nat := []
  /-- The waits that were parked and are over, with what `await_resume` threw. -/
  ended : List (Nat × Option Exception) := []

/-- The atomic steps. -/
inductive Ev where
  /-- `wait`. -/
  | wait (ready : Bool)
  /-- `await_ready` and `await_suspend`. -/
  | await
  /-- `await_resume`. -/
  | check
  /-- The end of `async_timer::suspend`. -/
  | arm
  /-- `tp_timer::start`. -/
  | start (periodic : Bool)
  /-- `tp_timer::stop`. -/
  | stop
  | expire
  /-- The pool dispatches a callback. -/
  | dispatch
  /-- The next step of callback `k`. -/
  | callback (k : Nat)
  /-- `cancel` is called: its first section. -/
  | cancel (k : Nat)
  /-- The next step of that call. -/
  | call (k : Nat)
  deriving DecidableEq, Repr

namespace St

/-- The coroutine is resumed, in wait `n`. -/
def wake (s : St) (n : Nat) : St :=
  if s.coro = .parked n then { s with coro := .resuming n true } else { s with undefined := true }

/-- `resume`: takes the continuation and resumes it, in this thread or in the pool. -/
def resume (s : St) : St :=
  match s.timer.resume with
  | (none, _) => s
  | (some n, timer) => { s with timer }.wake n

/-- The callbacks that run. -/
def running (s : St) : List Nat :=
  (List.range s.started).filter fun k => (s.callbacks k).pc ≠ .done

end St

/-- The section of `suspend`, and what follows in the coroutine. -/
def suspendStep (kind : Kind) (s : St) (n : Nat) : St :=
  match s.timer.suspend n with
  | none => { s with undefined := true }
  | some (some _, timer) =>
    match kind with
    | .async => { s with timer, terminated := true }
    | .tp => { s with timer, coro := .idle }
  | some (none, timer) =>
    match kind with
    | .async => { s with timer, coro := .parked n, arming := s.arming + 1 }
    | .tp => { s with timer, coro := .parked n }

/-- The next step of callback `k`. -/
def callbackStep (s : St) (k : Nat) : Option St :=
  match (s.callbacks k).pc with
  | .dispatched =>
    let pc := match s.timer.resumeLocation with
      | some n => .inline n
      | none => .done
    some { s.resume with callbacks := update s.callbacks k { s.callbacks k with pc } }
  | .inline n =>
    -- the continuation runs in this thread, `await_resume` first
    if s.coro = .resuming n true then none
    else some { s with callbacks := update s.callbacks k { s.callbacks k with pc := .done } }
  | _ => none

/-- The next step of call `k` of `cancel`. -/
def callStep (s : St) (k : Nat) : Option St :=
  let goto (pc : CancelPc) : Nat → Cancel := update s.cancels k { s.cancels k with pc }
  match (s.cancels k).pc with
  | .raised => some { s with os := s.os.drop, cancels := goto (.draining s.running) }
  | .draining ks =>
    if ks.all fun i => (s.callbacks i).pc = .done then some { s with cancels := goto .trailing }
    else none
  | .trailing => some { s.resume with cancels := goto .done }
  | _ => none

/-- One atomic step of a program that is not terminated. -/
def liveStep (kind : Kind) (s : St) : Ev → Option St
  | .wait ready =>
    if s.coro = .idle then
      match kind with
      | .async =>
        some { s with timer := s.timer.clear, coro := .created s.waits ready, waits := s.waits + 1 }
      | .tp =>
        if ready then none
        else some { s with coro := .created s.waits false, waits := s.waits + 1 }
    else none
  | .await =>
    match s.coro with
    | .created n true => some { s with coro := .resuming n false }
    | .created n false => some (suspendStep kind s n)
    | _ => none
  | .check =>
    match s.coro with
    | .resuming n wasParked =>
      let (thrown, timer) := s.timer.checkException
      some { s with
        timer, coro := .idle, ended := s.ended ++ if wasParked then [(n, thrown)] else [] }
    | _ => none
  | .arm =>
    if 0 < s.arming then some { s with os := s.os.set false, arming := s.arming - 1 } else none
  | .start periodic => if kind = .tp then some { s with os := s.os.set periodic } else none
  | .stop => if kind = .tp then some { s with os := s.os.unset } else none
  | .expire => if s.os.armed then some { s with os := s.os.expire } else none
  | .dispatch =>
    if 0 < s.os.queued then
      some { s with
        os := { s.os with queued := s.os.queued - 1 }, started := s.started + 1
        callbacks := update s.callbacks s.started
          { pc := .dispatched, seen := s.timer.resumeLocation }
        dispatched := s.dispatched ++ s.timer.resumeLocation.toList }
    else none
  | .callback k => callbackStep s k
  | .cancel k =>
    if (s.cancels k).pc = .unborn then
      let (wait, timer) := s.timer.raise
      some { s with
        timer, os := s.os.unset
        cancels := update s.cancels k
          { pc := if wait then .raised else .trailing, seen := s.timer.resumeLocation } }
    else none
  | .call k => callStep s k

/-- One atomic step. -/
def step (kind : Kind) (s : St) (e : Ev) : Option St :=
  if s.terminated then none else liveStep kind s e

/-- The timer and the threads that use it. -/
def sys (kind : Kind) : Sys St Ev := ⟨{}, step kind⟩

end Timers

end Corsl
