import Corsl.Queue.Async

/-!
# `async_multi_consumer_queue` (`async_multi_queue.h`)

The queue with any number of consumers, and the system of its users.

* `AsyncMultiConsumerQueue`: the fields that `queue_lock` guards, and one function for each
  section of the lock. A value goes to the first waiter if there is one, so `drain` never touches
  the stored values then.
* `push_exception` sets the exception and takes the whole waiter list in one section
  (`pushException`), and wakes the waiters outside the lock (`Broadcast`): for each it stores the
  exception and then submits the handle, as two steps.
* `AsyncMultiConsumerQueue.sys`: any number of producers, of calls of `push_exception` and of
  awaits, each `next()` with its own awaitable. The place of a suspended consumer (`Pc`) also says
  who holds its awaitable: the waiter list, a broadcast, or the thread pool.

The history keeps the ledger of the values, the parkings, the outcomes of the awaits and the
submissions, each in order. `Await.ahead` are the waiters at the time of `next()`.
-/

namespace Corsl

open Conc Function

/-- `async_multi_consumer_queue`: what `queue_lock` guards. -/
structure AsyncMultiConsumerQueue (T : Type) where
  queue : List T := []
  clients : List Nat := []
  exception : ExceptionPtr := none

namespace AsyncMultiConsumerQueue

variable {T : Type}

/-- `async_multi_consumer_queue::is_ready`. -/
def isReady (q : AsyncMultiConsumerQueue T) : Bool × Slot T × AsyncMultiConsumerQueue T :=
  let (ready, value, queue) := isReadySection q.exception q.queue
  (ready, value, { q with queue })

/-- `async_multi_consumer_queue::set_awaitable`. -/
def setAwaitable (q : AsyncMultiConsumerQueue T) (pointer : Nat) :
    Suspend T × AsyncMultiConsumerQueue T :=
  match q.exception with
  | some e => (.throws e, q)
  | none => match q.queue with
    | v :: rest => (.result v, { q with queue := rest })
    | [] => (.parked, { q with clients := q.clients ++ [pointer] })

/-- `async_multi_consumer_queue::drain`. -/
def drain (q : AsyncMultiConsumerQueue T) (value : T) :
    AsyncMultiConsumerQueue T × Option (Wake T) :=
  match q.clients with
  | cur :: rest => ({ q with clients := rest }, some ⟨cur, .value value⟩)
  | [] => ({ q with queue := q.queue ++ [value] }, none)

/-- The common section of `push` and `emplace`. -/
def enqueue (q : AsyncMultiConsumerQueue T) (item : T) :
    AsyncMultiConsumerQueue T × Option (Wake T) :=
  if q.exception.isNone then q.drain item else (q, none)

/-- `async_multi_consumer_queue::push`. -/
def push (q : AsyncMultiConsumerQueue T) (item : T) :
    AsyncMultiConsumerQueue T × Option (Wake T) := q.enqueue item

/-- `async_multi_consumer_queue::emplace`; `item` is the value made of the arguments. -/
def emplace (q : AsyncMultiConsumerQueue T) (item : T) :
    AsyncMultiConsumerQueue T × Option (Wake T) := q.enqueue item

/-- The section of `push_exception`: the waiters it takes, and the queue after it. -/
def pushException (q : AsyncMultiConsumerQueue T) (exception : ExceptionPtr) :
    List Nat × AsyncMultiConsumerQueue T :=
  (q.clients, { q with exception, clients := [] })

/-- `async_multi_consumer_queue::cancel`, up to the end of its section. -/
def cancel (q : AsyncMultiConsumerQueue T) : List Nat × AsyncMultiConsumerQueue T :=
  q.pushException (some .operationCancelled)

/-- `async_multi_consumer_queue::clear`: the values exchanged out of the queue, and the queue
after it; `none` where its assertion fails. -/
def clear (q : AsyncMultiConsumerQueue T) : Option (List T × AsyncMultiConsumerQueue T) :=
  if q.clients.isEmpty then some (q.queue, { q with queue := [], exception := none }) else none

/-- `async_multi_consumer_queue::empty`. -/
def empty (q : AsyncMultiConsumerQueue T) : Bool := q.queue.isEmpty

/-- `async_multi_consumer_queue::size`. -/
def size (q : AsyncMultiConsumerQueue T) : Nat := q.queue.length

/-! ## The system -/

/-- Where an await is. The three places of a suspended consumer are `waiting`, `leaving` and
`submitted`. -/
inductive Pc where
  | unborn
  /-- `next()` has returned; `await_ready` is next. -/
  | called
  /-- `await_ready` was false; `await_suspend` is next. -/
  | unready
  /-- Parked, in `clients`. -/
  | waiting
  /-- Parked, in the list that broadcast `b` has taken. -/
  | leaving (b : Nat)
  /-- Parked, with its outcome, its handle in the pool. -/
  | submitted
  /-- `await_resume` is next. -/
  | ready
  | done
  deriving DecidableEq, Repr

/-- An await: its place, the value slot of its awaitable, and the waiters when `next()` ran. -/
structure Await (T : Type) where
  pc : Pc := .unborn
  value : Slot (Item T) := .monostate
  ahead : List Nat := []

/-- A call of `push_exception` after its section: the awaitables still to wake, and whether the
exception is stored in the first of them. -/
structure Broadcast where
  exception : ExceptionPtr := none
  todo : List Nat := []
  stored : Bool := false

/-- The state of the system, and its history. -/
structure St (T : Type) where
  q : AsyncMultiConsumerQueue (Item T) := {}
  awaits : Nat → Await T := fun _ => {}
  /-- The number of calls of `next()`; the awaits are numbered from 0. -/
  count : Nat := 0
  broadcasts : Nat → Broadcast := fun _ => {}
  /-- The number of calls of `push_exception`. -/
  calls : Nat := 0
  pool : List Nat := []
  undefined : Bool := false
  ledger : Ledger T := {}
  /-- Every value pushed, accepted or not. -/
  pushed : List (Item T) := []
  parkings : List Nat := []
  /-- The outcomes given to awaits, in the order of the sections and stores that gave them. -/
  outcomes : List (Nat × Slot (Item T)) := []
  submissions : List (Nat × Slot (Item T)) := []

/-- The atomic steps. -/
inductive Ev (T : Type) where
  | push (v : T)
  | emplace (v : T)
  | cancel
  | pushException (e : ExceptionPtr)
  /-- `b->set_exception(exception_)`. -/
  | setException (b : Nat)
  /-- `resume_on_background(b->handle)`. -/
  | resume (b : Nat)
  | clear
  | next
  | awaitReady (c : Nat)
  | awaitSuspend (c : Nat)
  | callback (c : Nat)
  | awaitResume (c : Nat)

variable {T : Type}

namespace St

/-- The values bound to awaits, in order. -/
def bound (s : St T) : List (Nat × Item T) :=
  s.outcomes.flatMap fun (c, value) => value.values.map (Prod.mk c)

/-- The parked awaits that received a value, in order. -/
def handed (s : St T) : List Nat := (s.bound.map Prod.fst).filter (· ∈ s.parkings)

/-- Await `c` gets its outcome, a value or an exception, and goes to `pc`. -/
def settle (s : St T) (c : Nat) (value : Slot (Item T)) (pc : Pc) : St T :=
  { s with
    awaits := update s.awaits c { s.awaits c with pc, value }
    ledger := value.values.foldl .take s.ledger
    outcomes := s.outcomes ++ [(c, value)] }

/-- The handle of await `c` is submitted. -/
def submit (s : St T) (c : Nat) : St T :=
  { s with
    awaits := update s.awaits c { s.awaits c with pc := .submitted }
    pool := s.pool ++ [c]
    submissions := s.submissions ++ [(c, (s.awaits c).value)] }

/-- The effect of `drain` outside the queue. -/
def wake (s : St T) : Option (Wake (Item T)) → St T
  | none => s
  | some w => (s.settle w.awaitable w.value .submitted).submit w.awaitable

/-- The section of `push` or `emplace` of the value `v`. -/
def enqueue (s : St T) (v : T)
    (r : AsyncMultiConsumerQueue (Item T) × Option (Wake (Item T))) : St T :=
  ({ s with
    q := r.1
    ledger := if s.q.exception.isNone then s.ledger.accept v else s.ledger.refuse
    pushed := s.pushed ++ [(s.ledger.next, v)] } : St T).wake r.2

/-- The section of `push_exception`, which takes the waiters. -/
def broadcast (s : St T) (e : ExceptionPtr)
    (r : List Nat × AsyncMultiConsumerQueue (Item T)) : St T :=
  { s with
    q := r.2
    awaits := fun c => if c ∈ r.1 then { s.awaits c with pc := .leaving s.calls } else s.awaits c
    broadcasts := update s.broadcasts s.calls { exception := e, todo := r.1 }
    calls := s.calls + 1 }

end St

/-- The steps of the users of one queue. -/
def step (s : St T) : Ev T → Option (St T)
  | .push v => some (s.enqueue v (s.q.push (s.ledger.next, v)))
  | .emplace v => some (s.enqueue v (s.q.emplace (s.ledger.next, v)))
  | .cancel => some (s.broadcast (some .operationCancelled) s.q.cancel)
  | .pushException e => some (s.broadcast e (s.q.pushException e))
  | .setException b =>
    match (s.broadcasts b).todo with
    | [] => none
    | c :: _ =>
      if (s.broadcasts b).stored then none
      else
        some { s.settle c (.exception (s.broadcasts b).exception) (s.awaits c).pc with
          broadcasts := update s.broadcasts b { s.broadcasts b with stored := true } }
  | .resume b =>
    match (s.broadcasts b).todo with
    | [] => none
    | c :: rest =>
      if (s.broadcasts b).stored then
        some { s.submit c with
          broadcasts := update s.broadcasts b
            { s.broadcasts b with todo := rest, stored := false } }
      else none
  | .clear =>
    s.q.clear.map fun (dropped, q) => { s with q, ledger := s.ledger.drop dropped }
  | .next =>
    some { s with
      awaits := update s.awaits s.count { pc := .called, ahead := s.q.clients }
      count := s.count + 1 }
  | .awaitReady c =>
    if (s.awaits c).pc = .called then
      let (ready, value, q) := s.q.isReady
      if ready then some { s.settle c value .ready with q }
      else some { s with q, awaits := update s.awaits c { s.awaits c with pc := .unready } }
    else none
  | .awaitSuspend c =>
    if (s.awaits c).pc = .unready then
      match s.q.setAwaitable c with
      -- the exception leaves `await_suspend`, so `co_await` throws it
      | (.throws e, q) =>
        some { s with
          q, outcomes := s.outcomes ++ [(c, .exception (some e))]
          awaits := update s.awaits c { s.awaits c with pc := .done } }
      | (.result v, q) => some { s.settle c (.value v) .ready with q }
      | (.parked, q) =>
        some { s with
          q, parkings := s.parkings ++ [c]
          awaits := update s.awaits c { s.awaits c with pc := .waiting } }
    else none
  | .callback c =>
    if c ∈ s.pool then
      let s := { s with pool := s.pool.erase c }
      if (s.awaits c).pc = .submitted then
        some { s with awaits := update s.awaits c { s.awaits c with pc := .ready } }
      else some { s with undefined := true }
    else none
  | .awaitResume c =>
    if (s.awaits c).pc = .ready then
      match Corsl.awaitResume (s.awaits c).value with
      | none => some { s with undefined := true }
      | some _ => some { s with awaits := update s.awaits c { s.awaits c with pc := .done } }
    else none

/-- The users of one queue. -/
def sys (T : Type) : Sys (St T) (Ev T) := ⟨{}, step⟩

/-- The exceptions that are pushed are not null. -/
def NonNull (_ : St T) (e : Ev T) : Prop := e ≠ .pushException none

end AsyncMultiConsumerQueue

end Corsl
