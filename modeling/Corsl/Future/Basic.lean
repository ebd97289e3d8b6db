import Corsl.Basic
import Corsl.Conc.Sys

/-!
# Futures (`future.h`, `promise.h`)

The state that a coroutine, or a `promise<T>`, shares with its future, and the system of the
threads that complete it, wait for it and let go of it.

* `PromiseType`: the fields of `promise_common` and `promise_type_`, with one function for each
  piece of code that runs under `lock`. The lock is a semaphore: it is taken in one function and
  released in another, by another thread even. `PromiseType.lock` names the side that took it.
* `Kind`: a coroutine completes by `return_value`, `return_void` or `unhandled_exception` and then
  `final_suspend`; a `promise<T>` by `set` or `set_exception`, whose second half runs in the pool.
* `Completer`, `Consumer`, `Releaser`: where each side is. The consumer does any sequence of
  `co_await`, `wait()` and `get()`, one at a time, and each has a number. `wait()` runs the
  coroutine of `special_await`, whose continuation tells the waiting thread that it is `completed`.
* `step`: the atomic steps. The releaser is the destructor of the future.

A continuation is resumed by the completer, inside `resume_()` or by symmetric transfer. What the
library must not do (resume a coroutine that is not suspended, await a future twice, read an empty
value, touch a frame that was destroyed) sets `undefined`. A user that reads the result through a
future that is destroyed already sets `misused`. What the coroutine of `wait()` captures is left to
`Monitor` (`Captures`). Submissions do not fail here.
-/

namespace Corsl

open Conc

namespace Future

/-- The sides that take the lock across functions. -/
inductive Side where
  | completer | consumer
  deriving DecidableEq, Repr

/-- A continuation on a future: of the consumer's operation `n`, a `co_await` or the
`special_await` of a `wait()`. -/
inductive Cont where
  | await (n : Nat)
  | special (n : Nat)
  deriving DecidableEq, Repr

/-- The number of the operation. -/
def Cont.op : Cont → Nat
  | .await n | .special n => n

/-- What becomes of the references that the lambda in `wait()` has captured. Its closure is
destroyed when its coroutine has been suspended for the first time, and the coroutine uses them
afterwards; the language leaves open if they are kept in the closure. -/
inductive Captures where
  /-- They stay usable. -/
  | kept
  /-- They are gone with the closure. -/
  | lost
  deriving DecidableEq, Repr

/-- `promise_type_`, with the fields of `promise_common`. -/
structure PromiseType (T : Type) where
  lock : Option Side := none
  value : Slot T := .monostate
  resume : Option Cont := none
  useCount : Nat := 0
  destroyResume : Bool := false
  futureExists : Bool := true

namespace PromiseType

variable {T : Type}

/-- `promise_common::is_ready`. -/
def isReady (p : PromiseType T) : Bool := p.value.isSet

/-- The exchange of `promise_common::check_resume`. -/
def checkResume (p : PromiseType T) : Option Cont × PromiseType T :=
  (p.resume, { p with resume := none })

/-- `promise_common::get`: what it returns or rethrows, and the value after it; `none` where it
dereferences a null pointer. The exception is moved out of the value. -/
def get (p : PromiseType T) : Option (Except ExceptionPtr T × PromiseType T) :=
  match p.value with
  | .monostate => none
  | .exception e => some (.error e, { p with value := .exception none })
  | .value v => some (.ok v, p)

/-- `promise_type_::start_async`; `none` where its assertion fails. -/
def startAsync (p : PromiseType T) (resume : Cont) : Option (Bool × PromiseType T) :=
  if p.isReady then some (false, p)
  else if p.resume.isSome then none
  else some (true, { p with resume := some resume })

/-- `promise_type_::awaiter::await_ready`: its answer, and if that is true the continuation to
resume; it has released the lock then. -/
def finalAwaitReady (p : PromiseType T) : Bool × Option Cont × PromiseType T :=
  if !p.futureExists then (true, p.resume, { p with resume := none, lock := none })
  else (false, none, p)

/-- `promise_type_::awaiter::await_suspend`: the continuation to transfer to. -/
def finalAwaitSuspend (p : PromiseType T) : Option Cont × PromiseType T :=
  (p.resume, { p with destroyResume := true, resume := none, lock := none })

/-- `promise_type_::add_ref`. -/
def addRef (p : PromiseType T) : PromiseType T := { p with useCount := p.useCount + 1 }

/-- The decrement of `promise_type_::release`; it tells if `destroy` follows. -/
def release (p : PromiseType T) : Bool × PromiseType T :=
  (p.useCount = 1, { p with useCount := p.useCount - 1 })

/-- The section of `promise_type_::destroy`; it tells if the frame is destroyed next. -/
def destroy (p : PromiseType T) : Bool × PromiseType T :=
  (p.destroyResume, { p with futureExists := false })

end PromiseType

/-! ## The system -/

/-- Who completes the future. -/
inductive Kind where
  | coroutine | promise
  deriving DecidableEq, Repr

/-- Where the completing side is. `inline`: inside the `await_ready` of the final awaiter, which
returns true next. -/
inductive Completer where
  | running
  /-- It has the lock, and sets the value next. -/
  | locked
  /-- The value is set. A coroutine is before its final suspend, a `set` waits in the pool. -/
  | valued
  /-- The `await_ready` of the final awaiter was false. -/
  | suspending
  /-- It has taken the continuation and released the lock, and resumes the continuation next. -/
  | taken (c : Cont) (inline : Bool)
  /-- It runs the continuation of a `special_await`, which sets `completed`. -/
  | signalling (inline : Bool)
  /-- The final awaiter has returned true; the frame is destroyed next. -/
  | freeing
  | done
  deriving DecidableEq, Repr

/-- After the continuation. -/
def Completer.ended (inline : Bool) : Completer := if inline then .freeing else .done

/-- After the section that took the continuation, if there was one. -/
def Completer.afterTake : Option Cont → Bool → Completer
  | some c, inline => .taken c inline
  | none, inline => .ended inline

/-- Where the consumer is; `isGet` tells a `get()` from a `wait()`. -/
inductive Consumer where
  | idle
  /-- `await_ready` was false, and has kept the lock. -/
  | unready (n : Nat)
  /-- Suspended in `co_await`. -/
  | parked (n : Nat)
  /-- `wait()` has found no value; the coroutine of `special_await` is next. -/
  | spawning (n : Nat) (isGet : Bool)
  /-- The `await_ready` of `special_await` was false, and has kept the lock. -/
  | starting (n : Nat) (isGet : Bool)
  /-- `wait()` waits for `completed`. -/
  | blocked (n : Nat) (isGet : Bool)
  /-- `await_resume`, or the read of `get()`, is next. -/
  | reading
  deriving DecidableEq, Repr

/-- The continuation that the consumer has stored. -/
def Consumer.waits : Consumer → Option Cont
  | .parked n => some (.await n)
  | .blocked n _ => some (.special n)
  | .idle | .unready _ | .spawning _ _ | .starting _ _ | .reading => none

/-- Where the destructor of the future is. -/
inductive Releaser where
  /-- The future exists. -/
  | held
  /-- It was the last one; `destroy` is next. -/
  | destroying
  /-- The frame is destroyed next. -/
  | freeing
  | released
  deriving DecidableEq, Repr

/-- Who destroyed the frame: its own completion, or the destructor of the future. -/
inductive Destroyer where
  | completion | release
  deriving DecidableEq, Repr

/-- The state of the system, and its history. -/
structure St (T : Type) where
  p : PromiseType T := PromiseType.addRef {}
  completer : Completer := .running
  consumer : Consumer := .idle
  releaser : Releaser := .held
  /-- The number of operations of the consumer so far. -/
  ops : Nat := 0
  /-- The local of `wait()`. -/
  completed : Bool := false
  destroyed : List Destroyer := []
  undefined : Bool := false
  misused : Bool := false
  /-- The operations that found the result ready, with the value at that time. -/
  ready : List (Nat × Slot T) := []
  /-- The operations that stored a continuation. -/
  registered : List Nat := []
  /-- The operations whose continuation was resumed, with the value at that time. -/
  resumed : List (Nat × Slot T) := []

/-- The atomic steps. -/
inductive Ev (T : Type) where
  /-- `return_value`, `return_void`, `unhandled_exception` or `set` takes the lock. -/
  | lock
  | set (value : Slot T)
  /-- The next step of the completing side. -/
  | complete
  /-- `co_await`: `await_ready`. -/
  | await
  /-- `wait()` or `get()`. -/
  | wait (isGet : Bool)
  /-- The next step of the consumer. -/
  | consume
  /-- The destructor of the future. -/
  | release
  /-- Its next step. -/
  | destroy

variable {T : Type}

namespace St

/-- A step that uses the frame. -/
def touch (s : St T) : St T := { s with undefined := s.undefined || !s.destroyed.isEmpty }

/-- Operation `n` finds the result ready. -/
def find (s : St T) (n : Nat) : St T := { s with ready := s.ready ++ [(n, s.p.value)] }

/-- The continuation `c` is resumed: a consumer that waits on it goes on. -/
def resumeCont (s : St T) (c : Cont) (inline : Bool) : St T :=
  let s := { s with resumed := s.resumed ++ [(c.op, s.p.value)] }
  if s.consumer.waits = some c then
    match c with
    | .await _ => { s with consumer := .reading, completer := .ended inline }
    | .special _ => { s with completer := .signalling inline }
  else { s with undefined := true, completer := .ended inline }

end St

/-- The next step of the completing side, after the value is set. -/
def completeStep (kind : Kind) (s : St T) : Option (St T) :=
  match s.completer with
  | .valued =>
    match kind with
    | .coroutine =>
      let (ready, c, p) := s.p.finalAwaitReady
      if ready then some { s.touch with p, completer := .afterTake c true }
      else some { s.touch with p, completer := .suspending }
    | .promise =>
      -- with a continuation the lock is released before it is resumed, without one by `l`
      let (c, p) := s.p.checkResume
      some { s.touch with p := { p with lock := none }, completer := .afterTake c false }
  | .suspending =>
    let (c, p) := s.p.finalAwaitSuspend
    some { s.touch with p, completer := .afterTake c false }
  | .taken c inline => some (s.resumeCont c inline)
  | .signalling inline =>
    some { s with completed := true, completer := .ended inline }
  | .freeing => some { s.touch with destroyed := s.destroyed ++ [.completion], completer := .done }
  | _ => none

/-- The next step of the consumer's operation. -/
def consumeStep (s : St T) : Option (St T) :=
  match s.consumer with
  | .unready n =>
    match s.p.startAsync (.await n) with
    | none => some { s with undefined := true }
    | some (true, p) =>
      some { s.touch with
        p := { p with lock := none }, consumer := .parked n, registered := s.registered ++ [n] }
    | some (false, p) =>
      some { (s.touch.find n) with p := { p with lock := none }, consumer := .reading }
  | .spawning n isGet =>
    if s.p.lock ≠ none then none
    else if s.p.isReady then
      -- the coroutine of `special_await` does not suspend
      some { (s.touch.find n) with consumer := .blocked n isGet, completed := true }
    else some { s.touch with
      p := { s.p with lock := some .consumer }, consumer := .starting n isGet }
  | .starting n isGet =>
    match s.p.startAsync (.special n) with
    | none => some { s with undefined := true }
    | some (true, p) =>
      some { s.touch with
        p := { p with lock := none }, consumer := .blocked n isGet
        registered := s.registered ++ [n] }
    | some (false, p) =>
      some { (s.touch.find n) with
        p := { p with lock := none }, consumer := .blocked n isGet, completed := true }
  | .blocked _ isGet =>
    if s.completed then some { s with consumer := if isGet then .reading else .idle } else none
  | .reading =>
    if s.destroyed.isEmpty then
      match s.p.get with
      | none => some { s with undefined := true }
      | some (_, p) => some { s with p, consumer := .idle }
    else if s.releaser = .held then some { s with undefined := true }
    else some { s with misused := true, consumer := .idle }
  | _ => none

/-- One atomic step. -/
def step (kind : Kind) (s : St T) : Ev T → Option (St T)
  | .lock =>
    if s.completer = .running ∧ s.p.lock = none then
      some { s.touch with p := { s.p with lock := some .completer }, completer := .locked }
    else none
  | .set value =>
    if s.completer = .locked ∧ value.isSet then
      some { s.touch with p := { s.p with value }, completer := .valued }
    else none
  | .complete => completeStep kind s
  | .await =>
    if s.consumer = .idle ∧ s.releaser = .held ∧ s.p.lock = none then
      if s.p.isReady then
        some { (s.touch.find s.ops) with consumer := .reading, ops := s.ops + 1 }
      else
        some { s.touch with
          p := { s.p with lock := some .consumer }, consumer := .unready s.ops
          ops := s.ops + 1 }
    else none
  | .wait isGet =>
    if s.consumer = .idle ∧ s.releaser = .held ∧ s.p.lock = none then
      if s.p.isReady then
        some { (s.touch.find s.ops) with
          consumer := if isGet then .reading else .idle, ops := s.ops + 1 }
      else
        some { s.touch with
          consumer := .spawning s.ops isGet, completed := false, ops := s.ops + 1 }
    else none
  | .consume => consumeStep s
  | .release =>
    -- no member function of the future runs: its consumer is outside it, or suspended
    match s.releaser, s.consumer with
    | .held, .idle | .held, .parked _ | .held, .reading =>
      let (last, p) := s.p.release
      some { s.touch with p, releaser := if last then .destroying else .released }
    | _, _ => none
  | .destroy =>
    match s.releaser with
    | .destroying =>
      if s.p.lock ≠ none then none
      else
        let (frame, p) := s.p.destroy
        some { s.touch with p, releaser := if frame then .freeing else .released }
    | .freeing =>
      some { s.touch with destroyed := s.destroyed ++ [.release], releaser := .released }
    | _ => none

/-- The threads that use one future. -/
def sys (kind : Kind) (T : Type) : Sys (St T) (Ev T) := ⟨{}, step kind⟩

end Future

end Corsl
