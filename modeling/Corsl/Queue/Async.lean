import Corsl.Basic
import Corsl.Conc.Ledger
import Corsl.Conc.Sys

/-!
# `async_queue` (`async_queue.h`)

The queue with one consumer, and the system of its users.

* `AsyncQueue`: the fields that `queue_lock` guards. Each operation is one section of the lock, so
  each is one function: `isReady`, `setAwaitable`, `drain`, `push`, `emplace`, `cancel`,
  `pushException`, `clear`. An awaitable is known by the number of the `next()` that made it.
* `Wake`: what `drain` does to the parked awaitable, the outcome it stores and the handle it
  submits. The lock is still held there, and nothing follows but its release.
* `front()` of an empty queue is undefined, so `drain` is partial.
* `AsyncQueue.sys`: any number of producers and cancellers, whose sections come in any order, and
  one consumer coroutine that awaits `next()` again and again (`Pc`). A submitted handle waits in
  the thread pool (`pool`) until a callback resumes it. What the standard leaves undefined (a
  resumption of a coroutine that is not suspended, `front()` of an empty queue, the failed
  assertion of `await_resume`) sets `undefined`.

`Conc.Ledger` keeps the values that the sections accepted, dropped and gave to the consumer.
-/

namespace Corsl

open Conc

/-- What `await_suspend` comes to: `set_awaitable` throws, stores a result, or parks. -/
inductive Suspend (T : Type) where
  | throws (e : Exception)
  | result (v : T)
  | parked
  deriving DecidableEq, Repr

/-- The outcome stored in a parked awaitable whose handle is then submitted. -/
structure Wake (T : Type) where
  awaitable : Nat
  value : Slot T

/-- The section of `is_ready`: the answer, the value slot and the queue after it. -/
def isReadySection {T : Type} (exception : ExceptionPtr) (queue : List T) :
    Bool × Slot T × List T :=
  if exception.isSome then (true, .exception exception, queue)
  else match queue with
    | v :: rest => (true, .value v, rest)
    | [] => (false, .monostate, [])

/-- `async_queue`: what `queue_lock` guards. -/
structure AsyncQueue (T : Type) where
  queue : List T := []
  current : Option Nat := none
  exception : ExceptionPtr := none

namespace AsyncQueue

variable {T : Type}

/-- `async_queue::is_ready`. -/
def isReady (q : AsyncQueue T) : Bool × Slot T × AsyncQueue T :=
  let (ready, value, queue) := isReadySection q.exception q.queue
  (ready, value, { q with queue })

/-- `async_queue::set_awaitable`. -/
def setAwaitable (q : AsyncQueue T) (pointer : Nat) : Suspend T × AsyncQueue T :=
  match q.exception with
  | some e => (.throws e, q)
  | none => match q.queue with
    | v :: rest => (.result v, { q with queue := rest })
    | [] => (.parked, { q with current := some pointer })

/-- `async_queue::drain`; `none` where it takes the front of an empty queue. -/
def drain (q : AsyncQueue T) : Option (AsyncQueue T × Option (Wake T)) :=
  match q.current with
  | none => some (q, none)
  | some cur =>
    let q := { q with current := none }
    if q.exception.isSome then some (q, some ⟨cur, .exception q.exception⟩)
    else match q.queue with
      | v :: rest => some ({ q with queue := rest }, some ⟨cur, .value v⟩)
      | [] => none

/-- The common section of `push` and `emplace`: the size they return, and `drain`. -/
def enqueue (q : AsyncQueue T) (item : T) : Option (Nat × AsyncQueue T × Option (Wake T)) :=
  let q := if q.exception.isNone then { q with queue := q.queue ++ [item] } else q
  let retval := q.queue.length
  q.drain.map fun (q, w) => (retval, q, w)

/-- `async_queue::push`. -/
def push (q : AsyncQueue T) (item : T) : Option (Nat × AsyncQueue T × Option (Wake T)) :=
  q.enqueue item

/-- `async_queue::emplace`; `item` is the value made of the arguments. -/
def emplace (q : AsyncQueue T) (item : T) : Option (Nat × AsyncQueue T × Option (Wake T)) :=
  q.enqueue item

/-- `async_queue::push_exception`. -/
def pushException (q : AsyncQueue T) (exception : ExceptionPtr) :
    Option (AsyncQueue T × Option (Wake T)) :=
  { q with exception }.drain

/-- `async_queue::cancel`. -/
def cancel (q : AsyncQueue T) : Option (AsyncQueue T × Option (Wake T)) :=
  { q with exception := some .operationCancelled }.drain

/-- `async_queue::clear`: the values swapped out of the queue, and the queue after it. -/
def clear (q : AsyncQueue T) : List T × AsyncQueue T :=
  (q.queue, { q with queue := [], exception := none })

/-- `async_queue::empty`. -/
def empty (q : AsyncQueue T) : Bool := q.queue.isEmpty

/-- `async_queue::size`. -/
def size (q : AsyncQueue T) : Nat := q.queue.length

end AsyncQueue

/-- `aq_awaitable::await_resume`; `none` where its assertion fails. -/
def awaitResume {T : Type} : Slot T → Option (Except ExceptionPtr T)
  | .monostate => none
  | .exception e => some (.error e)
  | .value v => some (.ok v)

theorem awaitResume_eq_none {T : Type} {v : Slot T} : awaitResume v = none ↔ v = .monostate := by
  cases v <;> simp [awaitResume]

namespace AsyncQueue

/-! ## The system -/

/-- Where the consumer is in `co_await queue.next()`. -/
inductive Pc where
  | idle
  /-- `next()` has returned; `await_ready` is next. -/
  | called
  /-- `await_ready` was false; `await_suspend` is next. -/
  | unready
  /-- `await_suspend` returned true. -/
  | parked
  /-- `await_resume` is next. -/
  | ready
  deriving DecidableEq, Repr

/-- The state of the system, and its history. -/
structure St (T : Type) where
  q : AsyncQueue (Item T) := {}
  pc : Pc := .idle
  /-- The value slot of the consumer's awaitable. -/
  value : Slot (Item T) := .monostate
  /-- The number of the last `next()`, which names its awaitable. -/
  awaits : Nat := 0
  /-- The handles submitted and not yet resumed. -/
  pool : List Nat := []
  undefined : Bool := false
  ledger : Ledger T := {}
  /-- The values that `await_resume` returned. -/
  returned : List (Item T) := []
  /-- The awaits that parked. -/
  parkings : List Nat := []
  /-- The submissions: the await, and its value slot then. -/
  submitted : List (Nat × Slot (Item T)) := []

/-- The atomic steps: a locked section, a pool callback, or a step of the consumer alone. -/
inductive Ev (T : Type) where
  | push (v : T)
  | emplace (v : T)
  | cancel
  | pushException (e : ExceptionPtr)
  | clear
  | next
  | awaitReady
  | awaitSuspend
  | callback (handle : Nat)
  | awaitResume

variable {T : Type}

namespace St

/-- The values that the slot `value` was given join the ledger. -/
def bind (s : St T) (value : Slot (Item T)) : St T :=
  { s with value, ledger := value.values.foldl .take s.ledger }

/-- The effect of `drain` outside the queue: the outcome is stored in the parked awaitable, and
its handle is submitted. -/
def wake (s : St T) : Option (Wake (Item T)) → St T
  | none => s
  | some w =>
    if w.awaitable = s.awaits then
      { s.bind w.value with
        pool := s.pool ++ [w.awaitable]
        submitted := s.submitted ++ [(w.awaitable, w.value)] }
    else { s with undefined := true }

/-- The state after a section that ends in `drain`. -/
def drained (s : St T) : Option (AsyncQueue (Item T) × Option (Wake (Item T))) → St T
  | none => { s with undefined := true }
  | some (q, w) => { s with q }.wake w

/-- The offer of `v` in the ledger: accepted if the queue has no exception. -/
def offer (s : St T) (v : T) : St T :=
  { s with ledger := if s.q.exception.isNone then s.ledger.accept v else s.ledger.refuse }

end St

/-- The steps of the users of one queue. -/
def step (s : St T) : Ev T → Option (St T)
  | .push v => some ((s.offer v).drained ((s.q.push (s.ledger.next, v)).map Prod.snd))
  | .emplace v => some ((s.offer v).drained ((s.q.emplace (s.ledger.next, v)).map Prod.snd))
  | .cancel => some (s.drained s.q.cancel)
  | .pushException e => some (s.drained (s.q.pushException e))
  | .clear =>
    let (dropped, q) := s.q.clear
    some { s with q, ledger := s.ledger.drop dropped }
  | .next =>
    if s.pc = .idle then some { s with pc := .called, awaits := s.awaits + 1, value := .monostate }
    else none
  | .awaitReady =>
    if s.pc = .called then
      let (ready, value, q) := s.q.isReady
      if ready then some { s.bind value with q, pc := .ready }
      else some { s with q, pc := .unready }
    else none
  | .awaitSuspend =>
    if s.pc = .unready then
      match s.q.setAwaitable s.awaits with
      -- the exception leaves `await_suspend`, so `co_await` throws it
      | (.throws _, q) => some { s with q, pc := .idle }
      | (.result v, q) => some { s.bind (.value v) with q, pc := .ready }
      | (.parked, q) => some { s with q, pc := .parked, parkings := s.parkings ++ [s.awaits] }
    else none
  | .callback handle =>
    if handle ∈ s.pool then
      let s := { s with pool := s.pool.erase handle }
      if s.pc = .parked ∧ handle = s.awaits then some { s with pc := .ready }
      else some { s with undefined := true }
    else none
  | .awaitResume =>
    if s.pc = .ready then
      match Corsl.awaitResume s.value with
      | none => some { s with undefined := true }
      | some (.error _) => some { s with pc := .idle, value := .monostate }
      | some (.ok v) =>
        some { s with pc := .idle, value := .monostate, returned := s.returned ++ [v] }
    else none

/-- The users of one queue: any producers and cancellers, and one consumer. -/
def sys (T : Type) : Sys (St T) (Ev T) := ⟨{}, step⟩

/-- The exceptions that are pushed are not null. -/
def NonNull (_ : St T) (e : Ev T) : Prop := e ≠ .pushException none

/-- A null exception is pushed only while no consumer is parked. -/
def NullUnparked (s : St T) (e : Ev T) : Prop := e = .pushException none → s.q.current = none

end AsyncQueue

end Corsl
