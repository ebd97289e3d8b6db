import Corsl.Basic
import Corsl.Conc.Sys

/-!
# `async_generator<T>` (`async_generator.h`)

The promise of a generator's coroutine, and the system of its body and its consumer.

* `PromiseType`: the fields of `promise_type`, and one function for each piece of code on them. The
  lock is taken in one function and released in another: by `yield_value` up to `check_resume`, and
  by `is_ready` up to `suspend`.
* `Body`: the coroutine. It yields, suspends in asynchronous operations of its own, and ends by
  `co_return` or by an exception, at any time and in any number. It runs inside of `begin()` or
  `++it` (`inside`) or on another thread. A coroutine whose final awaiter does not suspend destroys
  its own frame.
* `Consumer`: the loop over the generator: it awaits `begin()`, compares the iterator with `end()`,
  reads the element once or not at all, and awaits `++it`. It may destroy the generator before
  `begin()`, at an element and after the end.
* `done()` is read off the frame: the coroutine is suspended at its final suspend point. It and
  the section of `is_ready` are two steps of `await_ready`.

A use of a destroyed frame sets `stale`; a resumption of a coroutine that does not wait for it, and
a failed assertion, set `undefined`. The history keeps what the body did and what the consumer saw.
-/

namespace Corsl

open Conc

namespace Generator

/-- The sides that take the lock across functions. -/
inductive Side where
  | body | consumer
  deriving DecidableEq, Repr

/-- `promise_type`. There is one consumer, so `continuation` tells if its handle is stored. -/
structure PromiseType (T : Type) where
  lock : Option Side := none
  value : Slot T := .monostate
  continuation : Bool := false

namespace PromiseType

variable {T : Type}

/-- `promise_type::is_ready_impl`. -/
def isReadyImpl (p : PromiseType T) : Bool := p.value.isSet

/-- `promise_type::is_ready`, which keeps the lock if it returns false. -/
def isReady (p : PromiseType T) : Bool × PromiseType T :=
  if p.isReadyImpl then (true, p) else (false, { p with lock := some .consumer })

/-- `promise_type::suspend`; `none` where its assertion fails. -/
def suspend (p : PromiseType T) : Option (PromiseType T) :=
  if p.continuation then none else some { p with continuation := true, lock := none }

/-- `promise_type::yield_value`, which keeps the lock. -/
def yieldValue (p : PromiseType T) (value : T) : PromiseType T :=
  { p with lock := some .body, value := .value value }

/-- `promise_type::check_resume`: if the consumer is to be resumed. -/
def checkResume (p : PromiseType T) : Bool × PromiseType T :=
  (p.continuation, { p with continuation := false, lock := none })

/-- `promise_type::return_value`, and `unhandled_exception` with the current exception. -/
def returnValue (p : PromiseType T) : Except Exception T → PromiseType T
  | .ok v => { p with value := .value v }
  | .error e => { p with value := .exception (some e) }

/-- `promise_type::check_exception`: the exception that it rethrows, moved out of the value. -/
def checkException (p : PromiseType T) : Option (ExceptionPtr × PromiseType T) :=
  match p.value with
  | .exception e => some (e, { p with value := .exception none })
  | .monostate | .value _ => none

/-- `promise_type::get_value`; `none` where it throws `bad_variant_access`. -/
def getValue (p : PromiseType T) : Option (T × PromiseType T) :=
  match p.value with
  | .value v => some (v, { p with value := .monostate })
  | .monostate | .exception _ => none

/-- `final_suspend_t::await_ready`. -/
def finalAwaitReady (p : PromiseType T) : Bool := !(p.isReadyImpl && p.continuation)

end PromiseType

/-! ## The system -/

/-- Where the coroutine is. -/
inductive Body where
  /-- At its initial suspend. -/
  | start
  | running (inside : Bool)
  /-- Suspended in an asynchronous operation of its own. -/
  | waiting
  /-- Suspended at a `co_yield`; `check_resume` is next. -/
  | yielding (inside : Bool)
  /-- The same; it resumes the consumer next. -/
  | resuming
  | yielded
  /-- `return_value` or `unhandled_exception` is over; `final_suspend` is next. -/
  | ending (inside : Bool)
  /-- Suspended at its final suspend; it resumes the consumer next. -/
  | final
  | ended
  /-- It has destroyed its own frame. -/
  | freed
  deriving DecidableEq, Repr

/-- `coroutine_handle::done`. -/
def Body.isDone : Body → Bool
  | .final | .ended => true
  | _ => false

/-- The coroutine is suspended. -/
def Body.suspended : Body → Bool
  | .start | .waiting | .yielded | .resuming | .final | .ended => true
  | .running _ | .yielding _ | .ending _ | .freed => false

/-- Where the consumer is. -/
inductive Consumer where
  | idle
  /-- Inside of `coro.resume()`. -/
  | calling
  /-- It has the awaitable of `begin()` or `++it`; `done()` is next. -/
  | called
  /-- `done()` was false; the section of `is_ready` is next. -/
  | asking
  /-- `await_ready` was false, and has kept the lock. -/
  | unready
  | parked
  /-- `await_resume` is next. -/
  | ready
  /-- It has the iterator, and compares it with `end()` next. -/
  | arrived
  /-- It is at an element, and has read it or not. -/
  | holding (read : Bool)
  /-- The iterator was equal to `end()`, or the await threw. -/
  | finished
  /-- It has destroyed the generator. -/
  | gone
  deriving DecidableEq, Repr

/-- What the consumer sees: an element, which it reads or skips, the end, or an exception. -/
inductive Seen (T : Type) where
  | element (v : T)
  | skipped
  | finish
  | threw (e : ExceptionPtr)
  deriving DecidableEq, Repr

/-- The state of the system, and its history. -/
structure St (T : Type) where
  p : PromiseType T := {}
  body : Body := .start
  consumer : Consumer := .idle
  /-- How many times the frame was destroyed. -/
  destroyed : Nat := 0
  stale : Bool := false
  undefined : Bool := false
  yields : List T := []
  /-- How the body ended. -/
  outcome : Option (Except Exception T) := none
  seen : List (Seen T) := []

/-- The atomic steps. -/
inductive Ev (T : Type) where
  | begin
  /-- `coro.done()` of `await_ready`, and then `is_ready`. -/
  | awaitDone
  | awaitReady
  | awaitSuspend
  | awaitResume
  /-- `it == end()`. -/
  | compare
  /-- `*it`. -/
  | read
  /-- `++it`. -/
  | advance
  /-- `~async_generator`. -/
  | destroy
  /-- The body suspends in an operation of its own, and goes on. -/
  | wait
  | wake
  | yieldValue (v : T)
  | checkResume
  | finish (r : Except Exception T)
  | finalSuspend
  /-- The body's side resumes the consumer. -/
  | resume

variable {T : Type}

namespace St

/-- A step that uses the frame. -/
def touch (s : St T) : St T := { s with stale := s.stale || 0 < s.destroyed }

/-- The coroutine stops running, so the `coro.resume()` that it ran in returns. -/
def leave (s : St T) (inside : Bool) (body : Body) : St T :=
  { s with body, consumer := if inside then .called else s.consumer }

/-- `coro.resume()` of the consumer. -/
def resumeBody (s : St T) : St T :=
  match s.body with
  | .start | .yielded => { s.touch with body := .running true, consumer := .calling }
  | _ => { s.touch with undefined := true }

/-- The consumer is resumed. -/
def resumeConsumer (s : St T) (body : Body) : St T :=
  match s.consumer with
  | .parked => { s with body, consumer := .ready }
  | _ => { s with body, undefined := true }

end St

/-- The steps of the consumer. -/
def consumerStep (s : St T) : Ev T → Option (St T)
  | .begin => if s.consumer = .idle then some s.resumeBody else none
  | .awaitDone =>
    if s.consumer = .called then
      some { s.touch with consumer := if s.body.isDone then .ready else .asking }
    else none
  | .awaitReady =>
    if s.consumer = .asking ∧ s.p.lock = none then
      let (ready, p) := s.p.isReady
      some { s.touch with p, consumer := if ready then .ready else .unready }
    else none
  | .awaitSuspend =>
    if s.consumer = .unready then
      match s.p.suspend with
      | none => some { s.touch with undefined := true }
      | some p => some { s.touch with p, consumer := .parked }
    else none
  | .awaitResume =>
    if s.consumer = .ready then
      match s.p.checkException with
      | some (e, p) =>
        some { s.touch with p, consumer := .finished, seen := s.seen ++ [.threw e] }
      | none => some { s.touch with consumer := .arrived }
    else none
  | .compare =>
    if s.consumer = .arrived then
      if s.body.isDone then
        some { s.touch with consumer := .finished, seen := s.seen ++ [.finish] }
      else some { s.touch with consumer := .holding false }
    else none
  | .read =>
    if s.consumer = .holding false then
      match s.p.getValue with
      | none => some { s.touch with undefined := true }
      | some (v, p) =>
        some { s.touch with p, consumer := .holding true, seen := s.seen ++ [.element v] }
    else none
  | .advance =>
    match s.consumer with
    | .holding true => some s.resumeBody
    | .holding false => some { s.resumeBody with seen := s.seen ++ [.skipped] }
    | _ => none
  | .destroy =>
    match s.consumer with
    | .idle | .holding _ | .finished =>
      some { s.touch with
        destroyed := s.destroyed + 1, consumer := .gone
        undefined := s.undefined || !s.body.suspended }
    | _ => none
  | _ => none

/-- The steps of the body. -/
def bodyStep (s : St T) : Ev T → Option (St T)
  | .wait =>
    match s.body with
    | .running inside => some (s.touch.leave inside .waiting)
    | _ => none
  | .wake =>
    match s.body with
    | .waiting => some { s.touch with body := .running false }
    | _ => none
  | .yieldValue v =>
    match s.body with
    | .running inside =>
      if s.p.lock = none then
        some { s.touch with
          p := s.p.yieldValue v, body := .yielding inside, yields := s.yields ++ [v] }
      else none
    | _ => none
  | .checkResume =>
    match s.body with
    | .yielding inside =>
      let (resumes, p) := s.p.checkResume
      if resumes then some { s.touch with p, body := .resuming }
      else some ({ s.touch with p }.leave inside .yielded)
    | _ => none
  | .finish r =>
    match s.body with
    | .running inside =>
      if s.p.lock = none then
        some { s.touch with p := s.p.returnValue r, body := .ending inside, outcome := some r }
      else none
    | _ => none
  | .finalSuspend =>
    match s.body with
    | .ending inside =>
      -- a final awaiter that is ready lets the coroutine run off its end
      if s.p.finalAwaitReady then
        some ({ s.touch with destroyed := s.destroyed + 1 }.leave inside .freed)
      else some { s.touch with body := .final }
    | _ => none
  | .resume =>
    match s.body with
    | .resuming => some (s.resumeConsumer .yielded)
    -- the continuation is read from the promise again, and stays there
    | .final => some (s.touch.resumeConsumer .ended)
    | _ => none
  | _ => none

/-- One atomic step. -/
def step (s : St T) (e : Ev T) : Option (St T) :=
  match consumerStep s e with
  | some s' => some s'
  | none => bodyStep s e

/-- The body and the consumer of one generator. -/
def sys (T : Type) : Sys (St T) (Ev T) := ⟨{}, step⟩

end Generator

end Corsl
