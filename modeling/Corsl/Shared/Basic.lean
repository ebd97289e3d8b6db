import Corsl.Future.Basic

/-!
# Shared futures (`shared_future.h`)

The implementation object of a `shared_future<T>`, the future that it owns, its coroutine `start()`,
and everyone who waits: coroutines in `co_await`, threads in `wait()` or `get()`.

* `SharedFutureImpl`: the fields, with one function for each piece of code that runs under `lock`.
  `await_ready` keeps the lock for the `await_suspend` that follows.
* The inner future is `Future.St`, with the completing side of a coroutine or of a `promise<T>`. Its
  only consumer is the coroutine `start()`, in its `co_await future_`. Whoever reads the result
  calls `future_.get()`, whose `wait()` should find it ready; `blocked` is set where it does not.
* A thread that finds the future not ready runs the coroutine `get_wait_future()`, which does a
  `co_await *this`, and waits for the future of this coroutine: another `Future.St`, completed by
  the coroutine and consumed by the thread.

`appended` and `submitted` are the histories of the two lists that a continuation goes through.
-/

namespace Corsl

open Conc Function

namespace Shared

/-- `shared_future_impl::mode`. -/
inductive Mode where
  | notStarted | started | ready
  deriving DecidableEq, Repr

/-- The fields of `shared_future_impl` but its future; `lock` is held by a waiter. -/
structure SharedFutureImpl where
  lock : Option Nat := none
  mode : Mode := .notStarted
  continuations : List Nat := []
  deriving DecidableEq, Repr

namespace SharedFutureImpl

/-- `await_ready` of waiter `w`. -/
def awaitReady (f : SharedFutureImpl) (w : Nat) : Bool × SharedFutureImpl :=
  if f.mode = .ready then (true, f) else (false, { f with lock := some w })

/-- `await_suspend`; it tells if `start()` is called. -/
def awaitSuspend (f : SharedFutureImpl) (resume : Nat) : Bool × SharedFutureImpl :=
  let f := { f with continuations := f.continuations ++ [resume], lock := none }
  if f.mode = .notStarted then (true, { f with mode := .started }) else (false, f)

/-- The section of `start`, after its `co_await`: the continuations that it moves out. -/
def finish (f : SharedFutureImpl) : List Nat × SharedFutureImpl :=
  (f.continuations, { f with mode := .ready, continuations := [] })

end SharedFutureImpl

/-! ## The system -/

/-- Where a `co_await` of the shared future is. -/
inductive WaiterPc where
  | unborn
  /-- `await_ready` is next. -/
  | entering
  /-- `await_ready` was false, and has kept the lock. -/
  | unready
  /-- Suspended, and its continuation is in one of the lists. -/
  | parked
  /-- The pool resumes it next. -/
  | queued
  /-- `await_resume` is next. -/
  | resumed
  | finished
  deriving DecidableEq, Repr

/-- Where the thread of a `wait()` or a `get()` is. -/
inductive ThreadPc where
  /-- A coroutine waits, no thread. -/
  | none
  /-- It waits for the future of its `get_wait_future()`. -/
  | waits (isGet : Bool)
  /-- `future_.get()` is next. -/
  | reading
  | returned
  deriving DecidableEq, Repr

/-- Someone who waits; `own` is the future of `get_wait_future()`, for a thread. -/
structure Waiter where
  pc : WaiterPc := .unborn
  thread : ThreadPc := .none
  own : Future.St Unit := {}

/-- Where the coroutine `start()` is. -/
inductive StartPc where
  | idle
  /-- It is in the pool. -/
  | submitted
  /-- In `co_await future_`. -/
  | awaiting
  /-- It submits these continuations. -/
  | publishing (rest : List Nat)
  | done
  deriving DecidableEq, Repr

/-- The state of the system, and its history. -/
structure St (T : Type) where
  impl : SharedFutureImpl := {}
  inner : Future.St T := {}
  start : StartPc := .idle
  waiters : Nat → Waiter := fun _ => {}
  /-- The number of calls of `start()`. -/
  starts : Nat := 0
  appended : List Nat := []
  submitted : List Nat := []
  /-- A `future_.get()` has found the result not ready. -/
  blocked : Bool := false
  undefined : Bool := false

/-- The atomic steps. -/
inductive Ev (T : Type) where
  /-- A step of the completing side of the inner future. -/
  | inner (e : Future.Ev T)
  /-- A coroutine awaits the shared future. -/
  | coAwait (w : Nat)
  /-- A thread calls `wait()` or `get()`. -/
  | wait (w : Nat) (isGet : Bool)
  /-- The next step of a `co_await`. -/
  | waiter (w : Nat)
  /-- A step of the future of `get_wait_future()`. -/
  | own (w : Nat) (e : Future.Ev Unit)
  /-- The thread has waited for it. -/
  | leave (w : Nat)
  /-- `future_.get()` of the thread. -/
  | read (w : Nat)
  /-- The next step of `start()`. -/
  | start

variable {T : Type}

namespace St

def setPc (s : St T) (w : Nat) (pc : WaiterPc) : St T :=
  { s with waiters := update s.waiters w { s.waiters w with pc } }

def setThread (s : St T) (w : Nat) (thread : ThreadPc) : St T :=
  { s with waiters := update s.waiters w { s.waiters w with thread } }

def setOwn (s : St T) (w : Nat) (own : Future.St Unit) : St T :=
  { s with waiters := update s.waiters w { s.waiters w with own } }

/-- `future_.get()`: `wait()` finds the result ready, and it is read. -/
def get (s : St T) : Option (St T) :=
  if s.inner.p.lock ≠ none then none
  else if s.inner.p.isReady then
    match s.inner.p.get with
    | none => some { s with undefined := true }
    | some (_, p) => some { s with inner := { s.inner with p } }
  else some { s with blocked := true }

/-- The continuation of waiter `w` is submitted. -/
def submit (s : St T) (w : Nat) : St T :=
  if (s.waiters w).pc = .parked then { s.setPc w .queued with submitted := s.submitted ++ [w] }
  else { s with undefined := true }

end St

/-- The step is one of the completing side. -/
def completes {T : Type} : Future.Ev T → Bool
  | .lock | .set _ | .complete => true
  | .await | .wait _ | .consume | .release | .destroy => false

/-- The next step of the `co_await` of waiter `w`. -/
def waiterStep (s : St T) (w : Nat) : Option (St T) :=
  match (s.waiters w).pc with
  | .entering =>
    if s.impl.lock ≠ none then none
    else
      let (ready, impl) := s.impl.awaitReady w
      if ready then some { s.setPc w .resumed with impl } else some { s.setPc w .unready with impl }
  | .unready =>
    let (starts, impl) := s.impl.awaitSuspend w
    let s := { s.setPc w .parked with impl, appended := s.appended ++ [w] }
    if starts then some { s with start := .submitted, starts := s.starts + 1 } else some s
  | .queued => some (s.setPc w .resumed)
  | .resumed => s.get.map (·.setPc w .finished)
  | _ => none

/-- A step of the future of `get_wait_future()`: of the coroutine, after its `co_await`, or of the
thread, after the coroutine has suspended. -/
def ownStep (s : St T) (w : Nat) (e : Future.Ev Unit) : Option (St T) :=
  match (s.waiters w).thread with
  | .waits _ =>
    let next := (Future.step .coroutine (s.waiters w).own e).map (s.setOwn w)
    match e with
    | .lock | .set _ | .complete => if (s.waiters w).pc = .finished then next else none
    | .wait false =>
      if (s.waiters w).own.ops = 0 ∧ (s.waiters w).pc ≠ .entering ∧ (s.waiters w).pc ≠ .unready then
        next
      else none
    | .consume => next
    | _ => none
  | _ => none

/-- The next step of `start()`. -/
def startStep (kind : Future.Kind) (s : St T) : Option (St T) :=
  match s.start with
  | .submitted =>
    (Future.step kind s.inner .await).map fun inner => { s with inner, start := .awaiting }
  | .awaiting =>
    if s.inner.consumer = .idle then
      if s.impl.lock ≠ none then none
      else
        let (existing, impl) := s.impl.finish
        some { s with impl, start := .publishing existing }
    else (Future.step kind s.inner .consume).map fun inner => { s with inner }
  | .publishing (handle :: rest) => some { s.submit handle with start := .publishing rest }
  | .publishing [] => some { s with start := .done }
  | _ => none

/-- One atomic step. -/
def step (kind : Future.Kind) (s : St T) : Ev T → Option (St T)
  | .inner e =>
    if completes e then (Future.step kind s.inner e).map fun inner => { s with inner } else none
  | .coAwait w => if (s.waiters w).pc = .unborn then some (s.setPc w .entering) else none
  | .wait w isGet =>
    if (s.waiters w).pc = .unborn ∧ s.inner.p.lock = none then
      if s.inner.p.isReady then
        some ((s.setPc w .finished).setThread w (if isGet then .reading else .returned))
      else some ((s.setPc w .entering).setThread w (.waits isGet))
    else none
  | .waiter w => waiterStep s w
  | .own w e => ownStep s w e
  | .leave w =>
    match (s.waiters w).thread with
    | .waits isGet =>
      if (s.waiters w).own.ops = 1 ∧ (s.waiters w).own.consumer = .idle then
        some (s.setThread w (if isGet then .reading else .returned))
      else none
    | _ => none
  | .read w =>
    match (s.waiters w).thread with
    | .reading => s.get.map (·.setThread w .returned)
    | _ => none
  | .start => startStep kind s

/-- A shared future of a future that `kind` completes. -/
def sys (kind : Future.Kind) (T : Type) : Sys (St T) (Ev T) := ⟨{}, step kind⟩

end Shared

end Corsl
