import Corsl.Conc.Lockstep
import Corsl.Queue.AsyncLemmas
import Corsl.Queue.MultiLemmas

/-!
# With one consumer the two queues are equal

Both queues with one consumer, whose `next()` comes after the end of the await before, and with
every operation as one step. They are systems of the same operations (`Op`), made of the steps of
`AsyncQueue.sys` and of `AsyncMultiConsumerQueue.sys`.

* `AsyncQueue.opStep`, `AsyncMultiConsumerQueue.opStep`: an operation. A `push_exception` of the
  second queue is its section and the delivery to every waiter that it took.
* `Observation`: what the users of a queue see of it. The history is how the awaits ended.
* `Sim`: the relation that keeps the two in lockstep (`Sys.Lockstep`). A parked consumer is
  `current` of the one queue and the only one in `clients` of the other.
-/

namespace Corsl

open Conc Function

/-- The operations on a queue with one consumer. -/
inductive Op (T : Type) where
  | push (v : T)
  | emplace (v : T)
  | cancel
  | pushException (e : Exception)
  | clear
  | next
  | awaitReady
  | awaitSuspend
  /-- The resumption of the consumer. -/
  | callback
  | awaitResume

/-- What is seen of a queue with one consumer. -/
structure Observation (T : Type) where
  /-- The outcome that is stored for the consumer. -/
  outcome : Slot (Item T)
  /-- How its awaits have ended, in order: what they returned, or threw. -/
  ended : List (Except ExceptionPtr (Item T))
  /-- It is suspended. -/
  parked : Bool
  /-- The resumptions submitted, each with the number of the await and the outcome. -/
  submitted : List (Nat × Slot (Item T))
  size : Nat
  empty : Bool

variable {T : Type}

namespace AsyncQueue

/-- One operation. No `clear` runs while the consumer waits. -/
def opStep (s : St T) : Op T → Option (St T)
  | .push v => step s (.push v)
  | .emplace v => step s (.emplace v)
  | .cancel => step s .cancel
  | .pushException e => step s (.pushException (some e))
  | .clear => if s.q.current.isSome then none else step s .clear
  | .next => step s .next
  | .awaitReady => step s .awaitReady
  | .awaitSuspend => step s .awaitSuspend
  | .callback => step s (.callback s.awaits)
  | .awaitResume => step s .awaitResume

/-- How an await ends in a step. -/
def ended (s : St T) : Op T → List (Except ExceptionPtr (Item T))
  | .awaitSuspend =>
    if s.pc = .unready then
      match (s.q.setAwaitable s.awaits).1 with
      | .throws e => [.error (some e)]
      | _ => []
    else []
  | .awaitResume => if s.pc = .ready then (Corsl.awaitResume s.value).toList else []
  | _ => []

/-- The queue with one consumer, and how its awaits end. -/
def lone (T : Type) : Sys (St T × List (Except ExceptionPtr (Item T))) (Op T) :=
  Sys.logged ⟨{}, opStep⟩ ended

def observe (s : St T × List (Except ExceptionPtr (Item T))) : Observation T where
  outcome := s.1.value
  ended := s.2
  parked := s.1.pc = .parked
  submitted := s.1.submitted.map fun x => (x.1 - 1, x.2)
  size := s.1.q.size
  empty := s.1.q.empty

end AsyncQueue

namespace AsyncMultiConsumerQueue

namespace Pc

/-- The await has begun and not ended. -/
def outstanding : Pc → Bool
  | .unborn | .done => false
  | .called | .unready | .waiting | .leaving _ | .submitted | .ready => true

/-- Its consumer is suspended. -/
def suspended : Pc → Bool
  | .waiting | .leaving _ | .submitted => true
  | .unborn | .called | .unready | .ready | .done => false

end Pc

/-- The await of the last `next()`. -/
def St.last (s : St T) : Await T := s.awaits (s.count - 1)

/-- The section of `push_exception`, and the delivery to those that it took. -/
def deliver (s : St T) (e : Ev T) : Option (St T) :=
  (step s e).bind fun s' => (sys T).exec s' <|
    (s'.broadcasts s.calls).todo.flatMap fun _ => [.setException s.calls, .resume s.calls]

/-- One operation. -/
def opStep (s : St T) : Op T → Option (St T)
  | .push v => step s (.push v)
  | .emplace v => step s (.emplace v)
  | .cancel => deliver s .cancel
  | .pushException e => deliver s (.pushException (some e))
  | .clear => step s .clear
  | .next => if s.last.pc.outstanding then none else step s .next
  | .awaitReady => step s (.awaitReady (s.count - 1))
  | .awaitSuspend => step s (.awaitSuspend (s.count - 1))
  | .callback => step s (.callback (s.count - 1))
  | .awaitResume => step s (.awaitResume (s.count - 1))

/-- How an await ends in a step. -/
def ended (s : St T) : Op T → List (Except ExceptionPtr (Item T))
  | .awaitSuspend =>
    if s.last.pc = .unready then
      match (s.q.setAwaitable (s.count - 1)).1 with
      | .throws e => [.error (some e)]
      | _ => []
    else []
  | .awaitResume => if s.last.pc = .ready then (Corsl.awaitResume s.last.value).toList else []
  | _ => []

/-- The queue with one consumer, and how its awaits end. -/
def lone (T : Type) : Sys (St T × List (Except ExceptionPtr (Item T))) (Op T) :=
  Sys.logged ⟨{}, opStep⟩ ended

def observe (s : St T × List (Except ExceptionPtr (Item T))) : Observation T where
  outcome := if s.1.last.pc.outstanding then s.1.last.value else .monostate
  ended := s.2
  parked := s.1.last.pc.suspended
  submitted := s.1.submissions
  size := s.1.q.size
  empty := s.1.q.empty

end AsyncMultiConsumerQueue

namespace AsyncQueue

/-! ## `set_awaitable` -/

theorem setAwaitable_failed {q : AsyncQueue T} {e : Exception} (h : q.exception = some e)
    (pointer : Nat) : q.setAwaitable pointer = (.throws e, q) := by
  unfold setAwaitable; rw [h]

theorem setAwaitable_value {q : AsyncQueue T} {v : T} {rest : List T} (h : q.exception = none)
    (hq : q.queue = v :: rest) (pointer : Nat) :
    q.setAwaitable pointer = (.result v, { q with queue := rest }) := by
  unfold setAwaitable; rw [h, hq]

theorem setAwaitable_park {q : AsyncQueue T} (h : q.exception = none) (hq : q.queue = [])
    (pointer : Nat) :
    q.setAwaitable pointer = (.parked, { q with current := some pointer }) := by
  unfold setAwaitable; rw [h, hq]

end AsyncQueue

namespace QueueSim

open AsyncMultiConsumerQueue (Await)

/-- Where the consumer of the first queue is, as a place of an await of the second. -/
def placeOf (s : AsyncQueue.St T) : AsyncMultiConsumerQueue.Pc :=
  match s.pc with
  | .idle => if s.awaits = 0 then .unborn else .done
  | .called => .called
  | .unready => .unready
  | .parked => if s.q.current.isSome then .waiting else .submitted
  | .ready => .ready

/-- The relation of the states (module doc). -/
structure Sim (s : AsyncQueue.St T) (m : AsyncMultiConsumerQueue.St T) : Prop where
  inv : AsyncQueue.Inv s
  queue : m.q.queue = s.q.queue
  exception : m.q.exception = s.q.exception
  clients : m.q.clients = if s.q.current.isSome then [s.awaits - 1] else []
  ticket : m.ledger.next = s.ledger.next
  count : m.count = s.awaits
  born : s.pc ≠ .idle → s.awaits ≠ 0
  place : m.last.pc = placeOf s
  value : s.pc ≠ .idle → m.last.value = s.value
  pool : m.pool = s.pool.map (· - 1)
  submitted : m.submissions = s.submitted.map fun x => (x.1 - 1, x.2)
  defined : m.undefined = false

theorem Sim.init : Sim ({} : AsyncQueue.St T) {} :=
  ⟨AsyncQueue.Inv.init, rfl, rfl, rfl, rfl, rfl, fun h => absurd rfl h, rfl, fun h => absurd rfl h,
    rfl, rfl, rfl⟩

section Steps

variable {s s' : AsyncQueue.St T} {m m' : AsyncMultiConsumerQueue.St T}

/-- Where the consumer waits, and what holds then. -/
theorem Sim.waits (h : Sim s m) : (s.q.current = none ∧ m.q.clients = []) ∨
    (s.pc = .parked ∧ s.q.current = some s.awaits ∧ s.q.queue = [] ∧ s.q.exception = none ∧
      s.pool = [] ∧ m.q.clients = [m.count - 1] ∧ m.last.pc = .waiting) := by
  have hcl := h.clients
  have hpl := h.place
  obtain hc | ⟨hp, hc, hq, he, -, hpool⟩ := h.inv.current
  · rw [hc] at hcl
    exact .inl ⟨hc, hcl⟩
  · rw [hc] at hcl
    rw [placeOf, hp, hc] at hpl
    exact .inr ⟨hp, hc, hq, he, hpool, by rw [h.count]; exact hcl, hpl⟩

/-- A section that leaves the consumer alone. -/
theorem Sim.aside (h : Sim s m) (hinv : AsyncQueue.Inv s') (hc : s'.q.current = s.q.current)
    (hq : m'.q.queue = s'.q.queue) (he : m'.q.exception = s'.q.exception)
    (hcl : m'.q.clients = m.q.clients) (ht : m'.ledger.next = s'.ledger.next)
    (hpc : s'.pc = s.pc) (ha : s'.awaits = s.awaits) (hv : s'.value = s.value)
    (hp : s'.pool = s.pool) (hs : s'.submitted = s.submitted) (hm : m'.awaits = m.awaits)
    (hcount : m'.count = m.count) (hmp : m'.pool = m.pool) (hms : m'.submissions = m.submissions)
    (hd : m'.undefined = m.undefined) : Sim s' m' := by
  have hlast : m'.last = m.last := by unfold AsyncMultiConsumerQueue.St.last; rw [hm, hcount]
  have hplace : placeOf s' = placeOf s := by unfold placeOf; rw [hpc, ha, hc]
  refine ⟨hinv, hq, he, ?_, ht, ?_, ?_, ?_, ?_, ?_, ?_, hd.trans h.defined⟩
  · rw [hcl, hc, ha, h.clients]
  · rw [hcount, ha, h.count]
  · rw [hpc, ha]; exact h.born
  · rw [hlast, hplace, h.place]
  · rw [hpc, hlast, hv]; exact h.value
  · rw [hmp, hp, h.pool]
  · rw [hms, hs, h.submitted]

/-- A section that wakes the consumer with the outcome `value`. -/
theorem Sim.wake (h : Sim s m) (hpc : s.pc = .parked) (hpool : s.pool = []) {value : Slot (Item T)}
    (hinv : AsyncQueue.Inv s') (hc : s'.q.current = none)
    (hq : m'.q.queue = s'.q.queue) (he : m'.q.exception = s'.q.exception)
    (hcl : m'.q.clients = []) (ht : m'.ledger.next = s'.ledger.next)
    (hpc' : s'.pc = s.pc) (ha : s'.awaits = s.awaits) (hv : s'.value = value)
    (hp : s'.pool = s.pool ++ [s.awaits]) (hs : s'.submitted = s.submitted ++ [(s.awaits, value)])
    (hlast : m'.last.pc = .submitted ∧ m'.last.value = value) (hcount : m'.count = m.count)
    (hmp : m'.pool = m.pool ++ [m.count - 1])
    (hms : m'.submissions = m.submissions ++ [(m.count - 1, value)])
    (hd : m'.undefined = m.undefined) : Sim s' m' := by
  refine ⟨hinv, hq, he, ?_, ht, ?_, ?_, ?_, fun _ => ?_, ?_, ?_, hd.trans h.defined⟩
  · rw [hcl, hc]; rfl
  · rw [hcount, ha, h.count]
  · rw [hpc', ha]; exact h.born
  · rw [hlast.1, placeOf, hpc', hpc, hc]; rfl
  · rw [hlast.2, hv]
  · rw [hmp, hp, hpool, h.pool, hpool, h.count]; rfl
  · rw [hms, hs, h.submitted, h.count, List.map_append]; rfl

/-- The effect of `drain` on a parked consumer. -/
theorem drained_wake (s : AsyncQueue.St T) (q : AsyncQueue (Item T)) (value : Slot (Item T)) :
    s.drained (some (q, some ⟨s.awaits, value⟩)) = { s with
      q, value
      ledger := value.values.foldl Ledger.take s.ledger
      pool := s.pool ++ [s.awaits]
      submitted := s.submitted ++ [(s.awaits, value)] } := by
  simp [AsyncQueue.St.drained, AsyncQueue.St.wake, AsyncQueue.St.bind]

/-- The same for the last await of the other queue. -/
theorem wake_last (value : Slot (Item T)) :
    ((m.wake (some ⟨m.count - 1, value⟩)).last.pc = .submitted ∧
      (m.wake (some ⟨m.count - 1, value⟩)).last.value = value) ∧
    (m.wake (some ⟨m.count - 1, value⟩)).submissions =
      m.submissions ++ [(m.count - 1, value)] := by
  simp [AsyncMultiConsumerQueue.St.wake, AsyncMultiConsumerQueue.St.settle,
    AsyncMultiConsumerQueue.St.submit, AsyncMultiConsumerQueue.St.last]

theorem Sim.enqueue (h : Sim s m) (v : T) :
    Sim ((s.offer v).drained ((s.q.enqueue (s.ledger.next, v)).map Prod.snd))
      (m.enqueue v (m.q.enqueue (m.ledger.next, v))) := by
  have hinv := h.inv.enqueue v
  have hexc := h.exception
  obtain ⟨hc, hcl⟩ | ⟨hp, hc, hq, he, hpool, hcl, -⟩ := h.waits
  · rw [AsyncQueue.enqueue_free hc] at hinv ⊢
    rcases Option.eq_none_or_eq_some s.q.exception with he | ⟨e, he⟩
    · rw [AsyncQueue.offer_free he] at hinv ⊢
      rw [AsyncMultiConsumerQueue.enqueue_store (hexc.trans he) hcl]
      refine h.aside hinv rfl ?_ hexc rfl ?_ rfl rfl rfl rfl rfl rfl rfl rfl rfl rfl
      · simp only [he, Option.isNone_none, if_true]
        exact congrArg₂ (· ++ ·) h.queue (by rw [h.ticket])
      · simp only [AsyncMultiConsumerQueue.St.enqueue, hexc.trans he, Option.isNone_none, if_true]
        exact congrArg (· + 1) h.ticket
    · rw [AsyncQueue.offer_failed he] at hinv ⊢
      rw [AsyncMultiConsumerQueue.enqueue_failed (by rw [hexc, he]; simp)]
      refine h.aside hinv rfl ?_ hexc rfl ?_ rfl rfl rfl rfl rfl rfl rfl rfl rfl rfl
      · simp only [he, Option.isNone_some, Bool.false_eq_true, if_false]
        exact h.queue
      · simp only [AsyncMultiConsumerQueue.St.enqueue, hexc.trans he, Option.isNone_some,
          Bool.false_eq_true, if_false]
        exact congrArg (· + 1) h.ticket
  · rw [AsyncQueue.enqueue_parked hc hq he, AsyncQueue.offer_free he] at hinv ⊢
    rw [AsyncMultiConsumerQueue.enqueue_hand (hexc.trans he) hcl]
    have heq := drained_wake { s with ledger := s.ledger.accept v } { s.q with current := none }
      (.value (s.ledger.next, v))
    rw [heq] at hinv ⊢
    obtain ⟨hlast, hms⟩ := wake_last (m := { m with
      q := { m.q with clients := [] }
      ledger := if m.q.exception.isNone then m.ledger.accept v else m.ledger.refuse
      pushed := m.pushed ++ [(m.ledger.next, v)] }) (.value (m.ledger.next, v))
    rw [h.ticket] at hlast hms ⊢
    refine h.wake hp hpool hinv rfl h.queue hexc rfl ?_ rfl rfl rfl rfl rfl hlast rfl rfl hms rfl
    show (if m.q.exception.isNone then m.ledger.accept v else m.ledger.refuse).next =
      s.ledger.next + 1
    rw [hexc.trans he]
    exact congrArg (· + 1) h.ticket

/-- `push_exception` delivers to the consumer that waits. -/
theorem deliver_eq {ev : AsyncMultiConsumerQueue.Ev T} {e : ExceptionPtr}
    (hstep : AsyncMultiConsumerQueue.step m ev = some (m.broadcast e (m.q.pushException e)))
    (hcl : m.q.clients = []) : AsyncMultiConsumerQueue.deliver m ev = some { m with
      q := { m.q with exception := e }
      broadcasts := update m.broadcasts m.calls { exception := e }
      calls := m.calls + 1 } := by
  simp [AsyncMultiConsumerQueue.deliver, hstep, AsyncMultiConsumerQueue.St.broadcast,
    AsyncMultiConsumerQueue.pushException, hcl, Sys.exec]

/-- The two steps of a broadcast that has one awaitable to wake. -/
theorem exec_tell {b c : Nat} {e : ExceptionPtr}
    (hb : m.broadcasts b = { exception := e, todo := [c] }) :
    (AsyncMultiConsumerQueue.sys T).exec m [.setException b, .resume b] = some { m with
      awaits := update m.awaits c { m.awaits c with pc := .submitted, value := .exception e }
      outcomes := m.outcomes ++ [(c, .exception e)]
      broadcasts := update m.broadcasts b { exception := e }
      pool := m.pool ++ [c]
      submissions := m.submissions ++ [(c, .exception e)] } := by
  simp [Sys.exec, AsyncMultiConsumerQueue.sys, AsyncMultiConsumerQueue.step, hb,
    AsyncMultiConsumerQueue.St.settle, AsyncMultiConsumerQueue.St.submit]

/-- The state after `push_exception` has delivered to the consumer that waits. -/
theorem deliver_last {ev : AsyncMultiConsumerQueue.Ev T} {e : ExceptionPtr}
    (hstep : AsyncMultiConsumerQueue.step m ev = some (m.broadcast e (m.q.pushException e)))
    (hcl : m.q.clients = [m.count - 1]) : ∃ m', AsyncMultiConsumerQueue.deliver m ev = some m' ∧
      m'.q = { m.q with exception := e, clients := [] } ∧ m'.ledger.next = m.ledger.next ∧
      (m'.last.pc = .submitted ∧ m'.last.value = .exception e) ∧ m'.count = m.count ∧
      m'.pool = m.pool ++ [m.count - 1] ∧
      m'.submissions = m.submissions ++ [(m.count - 1, .exception e)] ∧
      m'.undefined = m.undefined := by
  have hb : (m.broadcast e (m.q.pushException e)).broadcasts m.calls =
      { exception := e, todo := [m.count - 1] } := by
    simp [AsyncMultiConsumerQueue.St.broadcast, AsyncMultiConsumerQueue.pushException, hcl]
  rw [AsyncMultiConsumerQueue.deliver, hstep, Option.bind_some, hb]
  refine ⟨_, exec_tell hb, rfl, rfl, ?_, rfl, rfl, rfl, rfl⟩
  simp [AsyncMultiConsumerQueue.St.last, AsyncMultiConsumerQueue.St.broadcast]

theorem Sim.pushException (h : Sim s m) (ev : AsyncMultiConsumerQueue.Ev T) (e : Exception)
    (hstep : AsyncMultiConsumerQueue.step m ev =
      some (m.broadcast (some e) (m.q.pushException (some e)))) :
    ∃ m', AsyncMultiConsumerQueue.deliver m ev = some m' ∧
      Sim (s.drained (s.q.pushException (some e))) m' := by
  have hinv := h.inv.pushException (some e) nofun
  obtain ⟨hc, hcl⟩ | ⟨hp, hc, hq, he, hpool, hcl, -⟩ := h.waits
  · refine ⟨_, deliver_eq hstep hcl, ?_⟩
    rw [AsyncQueue.pushException_free hc] at hinv ⊢
    exact h.aside hinv rfl h.queue rfl rfl h.ticket rfl rfl rfl rfl rfl rfl rfl rfl rfl rfl
  · obtain ⟨m', hm', hq', ht', hlast, hcount, hpool', hms, hd⟩ := deliver_last hstep hcl
    refine ⟨m', hm', ?_⟩
    rw [AsyncQueue.pushException_parked hc, drained_wake] at hinv ⊢
    exact h.wake hp hpool hinv rfl (by rw [hq']; exact h.queue) (by rw [hq']) (by rw [hq'])
      (ht'.trans h.ticket) rfl rfl rfl rfl rfl hlast hcount hpool' hms hd

theorem Sim.clear (h : Sim s m) :
    Option.Rel Sim (AsyncQueue.opStep s .clear) (AsyncMultiConsumerQueue.opStep m .clear) := by
  simp only [AsyncQueue.opStep, AsyncMultiConsumerQueue.opStep, AsyncMultiConsumerQueue.step,
    AsyncMultiConsumerQueue.clear]
  obtain ⟨hc, hcl⟩ | ⟨-, hc, -, -, -, hcl, -⟩ := h.waits
  · rw [hc, hcl]
    have hinv := h.inv.clear rfl
    exact .some (h.aside hinv rfl rfl rfl hcl.symm h.ticket rfl rfl rfl rfl rfl rfl rfl rfl rfl rfl)
  · rw [hc, hcl]
    exact .none

/-- The places of the consumer in which it does its own steps. -/
theorem Sim.pc_iff (h : Sim s m) : (m.last.pc = .called ↔ s.pc = .called) ∧
    (m.last.pc = .unready ↔ s.pc = .unready) ∧ (m.last.pc = .ready ↔ s.pc = .ready) ∧
    (m.last.pc.outstanding = false ↔ s.pc = .idle) ∧
    (m.last.pc.suspended = true ↔ s.pc = .parked) := by
  rw [h.place, placeOf]
  cases s.pc with
  | idle => by_cases ha : s.awaits = 0 <;> simp [ha, AsyncMultiConsumerQueue.Pc.outstanding,
      AsyncMultiConsumerQueue.Pc.suspended]
  | called | unready | ready => simp [AsyncMultiConsumerQueue.Pc.outstanding,
      AsyncMultiConsumerQueue.Pc.suspended]
  | parked => cases s.q.current <;> simp [AsyncMultiConsumerQueue.Pc.outstanding,
      AsyncMultiConsumerQueue.Pc.suspended]

/-- Outside of a parking, `current` is null and the pool is empty. -/
theorem Sim.alone (h : Sim s m) (hp : s.pc ≠ .parked) :
    s.q.current = none ∧ s.pool = [] ∧ m.q.clients = [] := by
  have hcl := h.clients
  have hs := h.inv.shape
  unfold AsyncQueue.Shape at hs
  have key : s.q.current = none ∧ s.pool = [] := by
    cases hpc : s.pc <;> simp only [hpc] at hs hp
    · exact ⟨hs.1, hs.2.2⟩
    · exact ⟨hs.1, hs.2.2⟩
    · exact ⟨hs.1, hs.2.2⟩
    · exact absurd rfl hp
    · exact ⟨hs.1, hs.2.2⟩
  rw [key.1] at hcl
  exact ⟨key.1, key.2, hcl⟩

theorem Sim.next (h : Sim s m) :
    Option.Rel Sim (AsyncQueue.opStep s .next) (AsyncMultiConsumerQueue.opStep m .next) := by
  have hout := h.pc_iff.2.2.2.1
  simp only [AsyncQueue.opStep, AsyncMultiConsumerQueue.opStep, AsyncQueue.step,
    AsyncMultiConsumerQueue.step]
  by_cases hpc : s.pc = .idle
  · obtain ⟨hc, hpool, hcl⟩ := h.alone (by simp [hpc])
    have hinv : AsyncQueue.Inv
        { s with pc := .called, awaits := s.awaits + 1, value := .monostate } :=
      h.inv.next (by simp [AsyncQueue.step, hpc])
    rw [if_pos hpc, hout.mpr hpc, if_neg (by simp)]
    refine .some ⟨hinv, h.queue, h.exception, ?_, h.ticket, congrArg (· + 1) h.count, by simp, ?_,
      fun _ => ?_, h.pool, h.submitted, h.defined⟩
    · simp only [hc, hcl]
      rfl
    · simp [AsyncMultiConsumerQueue.St.last, placeOf]
    · simp [AsyncMultiConsumerQueue.St.last]
  · rw [if_neg hpc, if_pos]
    · exact .none
    · simpa using mt hout.mp hpc

/-- A section of the consumer that ends its await with a set slot. -/
theorem Sim.bind (h : Sim s m) (hborn : s.pc ≠ .idle)
    {value : Slot (Item T)} {queue : List (Item T)}
    (hinv : AsyncQueue.Inv { s.bind value with q := { s.q with queue }, pc := .ready }) :
    Sim { s.bind value with q := { s.q with queue }, pc := .ready }
      { m.settle (m.count - 1) value .ready with q := { m.q with queue } } := by
  refine ⟨hinv, rfl, h.exception, h.clients, ?_, h.count, fun _ => h.born hborn, ?_, fun _ => ?_,
    h.pool, h.submitted, h.defined⟩
  · -- the value leaves the queue: no offer is made
    show (value.values.foldl Ledger.take m.ledger).next =
      (value.values.foldl Ledger.take s.ledger).next
    cases value <;> exact h.ticket
  · simp [AsyncMultiConsumerQueue.St.last, AsyncMultiConsumerQueue.St.settle, placeOf]
  · simp [AsyncMultiConsumerQueue.St.last, AsyncMultiConsumerQueue.St.settle,
      AsyncQueue.St.bind]

theorem Sim.awaitReady (h : Sim s m) :
    Option.Rel Sim (AsyncQueue.opStep s .awaitReady)
      (AsyncMultiConsumerQueue.opStep m .awaitReady) := by
  have hpcs := h.pc_iff.1
  have hinv : ∀ s', AsyncQueue.step s .awaitReady = some s' → AsyncQueue.Inv s' :=
    fun s' => h.inv.awaitReady
  -- the section of `is_ready` is the same
  obtain ⟨ready, value, queue, hsec⟩ : ∃ ready value queue,
      isReadySection s.q.exception s.q.queue = (ready, value, queue) := ⟨_, _, _, rfl⟩
  have hsec' : isReadySection m.q.exception m.q.queue = (ready, value, queue) := by
    rw [h.exception, h.queue, hsec]
  simp only [AsyncQueue.opStep, AsyncMultiConsumerQueue.opStep, AsyncQueue.step,
    AsyncMultiConsumerQueue.step, AsyncQueue.isReady, AsyncMultiConsumerQueue.isReady,
    hsec, hsec'] at hinv ⊢
  by_cases hpc : s.pc = .called
  · rw [if_pos hpc] at hinv ⊢
    rw [if_pos (show (m.awaits (m.count - 1)).pc = .called from hpcs.mpr hpc)]
    cases ready with
    | true => exact .some (h.bind (by simp [hpc]) (hinv _ rfl))
    | false =>
      obtain ⟨hc, hpool, hcl⟩ := h.alone (by simp [hpc])
      refine .some ⟨hinv _ rfl, rfl, h.exception, h.clients, h.ticket, h.count,
        fun _ => h.born (by simp [hpc]), ?_, fun _ => ?_, h.pool, h.submitted, h.defined⟩
      · simp [AsyncMultiConsumerQueue.St.last, placeOf]
      · simpa [AsyncMultiConsumerQueue.St.last] using h.value (by simp [hpc])
  · rw [if_neg hpc, if_neg (show ¬(m.awaits (m.count - 1)).pc = .called from mt hpcs.mp hpc)]
    exact .none

theorem Sim.awaitSuspend (h : Sim s m) :
    Option.Rel Sim (AsyncQueue.opStep s .awaitSuspend)
      (AsyncMultiConsumerQueue.opStep m .awaitSuspend) := by
  have hpcs := h.pc_iff.2.1
  have hinv : ∀ s', AsyncQueue.step s .awaitSuspend = some s' → AsyncQueue.Inv s' :=
    fun s' => h.inv.awaitSuspend
  simp only [AsyncQueue.opStep, AsyncMultiConsumerQueue.opStep, AsyncQueue.step,
    AsyncMultiConsumerQueue.step] at hinv ⊢
  by_cases hpc : s.pc = .unready
  · rw [if_pos hpc] at hinv ⊢
    rw [if_pos (show (m.awaits (m.count - 1)).pc = .unready from hpcs.mpr hpc)]
    have hborn : s.pc ≠ .idle := by simp [hpc]
    obtain ⟨hc, hpool, hcl⟩ := h.alone (by simp [hpc])
    rcases Option.eq_none_or_eq_some s.q.exception with he | ⟨e, he⟩
    · have he' := h.exception.trans he
      rcases hq : s.q.queue with _ | ⟨v, rest⟩
      · rw [AsyncQueue.setAwaitable_park he hq] at hinv ⊢
        rw [AsyncMultiConsumerQueue.setAwaitable_park he' (h.queue.trans hq)]
        refine .some ⟨hinv _ rfl, h.queue, h.exception, ?_, h.ticket, h.count,
          fun _ => h.born hborn, ?_, fun _ => ?_, h.pool, h.submitted, h.defined⟩
        · simp only [hcl, h.count]
          rfl
        · simp [AsyncMultiConsumerQueue.St.last, placeOf]
        · simpa [AsyncMultiConsumerQueue.St.last] using h.value hborn
      · rw [AsyncQueue.setAwaitable_value he hq] at hinv ⊢
        rw [AsyncMultiConsumerQueue.setAwaitable_value he' (h.queue.trans hq)]
        exact .some (h.bind hborn (hinv _ rfl))
    · rw [AsyncQueue.setAwaitable_failed he] at hinv ⊢
      rw [AsyncMultiConsumerQueue.setAwaitable_failed (h.exception.trans he)]
      refine .some ⟨hinv _ rfl, h.queue, h.exception, h.clients, h.ticket, h.count,
        fun hi => absurd rfl hi, ?_, fun hi => absurd rfl hi, h.pool, h.submitted, h.defined⟩
      simp [AsyncMultiConsumerQueue.St.last, placeOf, h.born hborn]
  · rw [if_neg hpc, if_neg (show ¬(m.awaits (m.count - 1)).pc = .unready from mt hpcs.mp hpc)]
    exact .none

theorem Sim.callback (h : Sim s m) :
    Option.Rel Sim (AsyncQueue.opStep s .callback)
      (AsyncMultiConsumerQueue.opStep m .callback) := by
  have hinv : ∀ s', AsyncQueue.step s (.callback s.awaits) = some s' → AsyncQueue.Inv s' :=
    fun s' => h.inv.callback
  have hpool := h.pool
  have hpl := h.place
  simp only [AsyncQueue.opStep, AsyncMultiConsumerQueue.opStep, AsyncQueue.step,
    AsyncMultiConsumerQueue.step] at hinv ⊢
  by_cases hp : s.pc = .parked
  · have hs := h.inv.shape
    rw [AsyncQueue.Shape, hp] at hs
    obtain ⟨hc, -, -, -, hpool'⟩ | ⟨hc, hv, hpool'⟩ := hs
    · rw [hpool'] at hpool
      rw [if_neg (by simp [hpool']), if_neg (by simp [hpool])]
      exact .none
    · rw [hpool', List.map_singleton, ← h.count] at hpool
      rw [placeOf, hp, hc] at hpl
      rw [if_pos (by simp [hpool'] : s.awaits ∈ s.pool)] at hinv ⊢
      rw [if_pos (by simp [hpool] : m.count - 1 ∈ m.pool)]
      have hlast : (m.awaits (m.count - 1)).pc = .submitted := hpl
      simp only [hp, and_self, if_true, hlast] at hinv ⊢
      refine .some ⟨hinv _ rfl, h.queue, h.exception, h.clients, h.ticket, h.count,
        fun _ => h.born (by simp [hp]), ?_, fun _ => ?_, ?_, h.submitted, h.defined⟩
      · simp [AsyncMultiConsumerQueue.St.last, placeOf]
      · simpa [AsyncMultiConsumerQueue.St.last] using h.value (by simp [hp])
      · simp [hpool, hpool']
  · obtain ⟨-, hpool', -⟩ := h.alone hp
    rw [hpool'] at hpool
    rw [if_neg (by simp [hpool']), if_neg (by simp [hpool])]
    exact .none

theorem Sim.awaitResume (h : Sim s m) :
    Option.Rel Sim (AsyncQueue.opStep s .awaitResume)
      (AsyncMultiConsumerQueue.opStep m .awaitResume) := by
  have hpcs := h.pc_iff.2.2.1
  have hinv : ∀ s', AsyncQueue.step s .awaitResume = some s' → AsyncQueue.Inv s' :=
    fun s' => h.inv.awaitResume
  simp only [AsyncQueue.opStep, AsyncMultiConsumerQueue.opStep, AsyncQueue.step,
    AsyncMultiConsumerQueue.step] at hinv ⊢
  by_cases hpc : s.pc = .ready
  · rw [if_pos hpc] at hinv ⊢
    rw [if_pos (show (m.awaits (m.count - 1)).pc = .ready from hpcs.mpr hpc)]
    have hborn : s.pc ≠ .idle := by simp [hpc]
    have hval : Corsl.awaitResume (m.awaits (m.count - 1)).value = Corsl.awaitResume s.value :=
      congrArg Corsl.awaitResume (h.value hborn)
    have hs := h.inv.shape
    rw [AsyncQueue.Shape, hpc] at hs
    -- the await is over, whatever it gave
    have key : ∀ t : AsyncQueue.St T, AsyncQueue.Inv t → t.q = s.q → t.ledger = s.ledger →
        t.awaits = s.awaits → t.pc = .idle → t.pool = s.pool → t.submitted = s.submitted →
        Sim t { m with
          awaits := update m.awaits (m.count - 1)
            { m.awaits (m.count - 1) with pc := .done } } := by
      intro t ht hq hl ha hi hp hsub
      refine ⟨ht, by rw [hq]; exact h.queue, by rw [hq]; exact h.exception, ?_, ?_, ?_,
        fun h => absurd hi h, ?_, fun h => absurd hi h, ?_, ?_, h.defined⟩
      · rw [hq, ha]; exact h.clients
      · rw [hl]; exact h.ticket
      · rw [ha]; exact h.count
      · simp [AsyncMultiConsumerQueue.St.last, placeOf, hi, ha, h.born hborn]
      · rw [hp]; exact h.pool
      · rw [hsub]; exact h.submitted
    rw [hval]
    cases hv : s.value with
    | monostate =>
      rw [hv] at hs
      exact absurd hs.2.1 (by simp)
    | exception e =>
      simp only [hv, Corsl.awaitResume] at hinv ⊢
      exact .some (key _ (hinv _ rfl) rfl rfl rfl rfl rfl rfl)
    | value v =>
      simp only [hv, Corsl.awaitResume] at hinv ⊢
      exact .some (key _ (hinv _ rfl) rfl rfl rfl rfl rfl rfl)
  · rw [if_neg hpc, if_neg (show ¬(m.awaits (m.count - 1)).pc = .ready from mt hpcs.mp hpc)]
    exact .none

/-- Every operation keeps the relation. -/
theorem Sim.step (h : Sim s m) (e : Op T) :
    Option.Rel Sim (AsyncQueue.opStep s e) (AsyncMultiConsumerQueue.opStep m e) := by
  cases e with
  | push v => exact .some (h.enqueue v)
  | emplace v => exact .some (h.enqueue v)
  | cancel =>
    obtain ⟨m', hm', hs⟩ := h.pushException .cancel .operationCancelled rfl
    simp only [AsyncMultiConsumerQueue.opStep, hm']
    exact .some hs
  | pushException e =>
    obtain ⟨m', hm', hs⟩ := h.pushException (.pushException (some e)) e rfl
    simp only [AsyncMultiConsumerQueue.opStep, hm']
    exact .some hs
  | clear => exact h.clear
  | next => exact h.next
  | awaitReady => exact h.awaitReady
  | awaitSuspend => exact h.awaitSuspend
  | callback => exact h.callback
  | awaitResume => exact h.awaitResume

/-- An await ends in the same way. -/
theorem Sim.ended (h : Sim s m) (e : Op T) :
    AsyncQueue.ended s e = AsyncMultiConsumerQueue.ended m e := by
  obtain ⟨-, hun, hre, -, -⟩ := h.pc_iff
  cases e with
  | awaitSuspend =>
    simp only [AsyncQueue.ended, AsyncMultiConsumerQueue.ended, hun, AsyncQueue.setAwaitable,
      AsyncMultiConsumerQueue.setAwaitable, h.exception, h.queue]
    cases s.q.exception with
    | some e => rfl
    | none => cases s.q.queue <;> rfl
  | awaitResume =>
    simp only [AsyncQueue.ended, AsyncMultiConsumerQueue.ended, hre]
    by_cases hpc : s.pc = .ready
    · rw [if_pos hpc, if_pos hpc, h.value (by simp [hpc])]
    · rw [if_neg hpc, if_neg hpc]
  | _ => rfl

/-- The same is seen of the two queues. -/
theorem Sim.observe (h : Sim s m) (l : List (Except ExceptionPtr (Item T))) :
    AsyncQueue.observe (s, l) = AsyncMultiConsumerQueue.observe (m, l) := by
  obtain ⟨-, -, -, hout, hsus⟩ := h.pc_iff
  simp only [AsyncQueue.observe, AsyncMultiConsumerQueue.observe, Observation.mk.injEq, true_and]
  refine ⟨?_, ?_, h.submitted.symm, ?_, ?_⟩
  · by_cases hpc : s.pc = .idle
    · -- a consumer without an await has nothing stored
      have hs := h.inv.shape
      rw [AsyncQueue.Shape, hpc] at hs
      rw [hout.mpr hpc, hs.2.1]
      rfl
    · rw [if_pos, h.value hpc]
      simpa using mt hout.mp hpc
  · rw [Bool.eq_iff_iff, decide_eq_true_iff, hsus]
  · simp only [AsyncQueue.size, AsyncMultiConsumerQueue.size, h.queue]
  · simp only [AsyncQueue.empty, AsyncMultiConsumerQueue.empty, h.queue]

end Steps

theorem lockstep (T : Type) : Sys.Lockstep (AsyncQueue.lone T) (AsyncMultiConsumerQueue.lone T)
    fun s m => Sim s.1 m.1 ∧ s.2 = m.2 :=
  Sys.Lockstep.logged ⟨Sim.init, fun _ _ e h => h.step e⟩ fun _ _ e h => h.ended e

end QueueSim

/-! ## Result -/

/-- **With one consumer the two queues are equal.** On every sequence of operations, from empty,
either both queues have run it and the same is seen of them, or in neither it can happen. -/
theorem observationally_equal (T : Type) (ops : List (Op T)) :
    Option.Rel (fun s m => AsyncQueue.observe s = AsyncMultiConsumerQueue.observe m)
      ((AsyncQueue.lone T).exec (AsyncQueue.lone T).init ops)
      ((AsyncMultiConsumerQueue.lone T).exec (AsyncMultiConsumerQueue.lone T).init ops) := by
  have h := (QueueSim.lockstep T).exec ops
  generalize (AsyncQueue.lone T).exec (AsyncQueue.lone T).init ops = a at h ⊢
  generalize (AsyncMultiConsumerQueue.lone T).exec (AsyncMultiConsumerQueue.lone T).init ops = b
    at h ⊢
  cases h with
  | none => exact .none
  | some h =>
    rename_i s m
    obtain ⟨hs, hl⟩ := h
    obtain ⟨s, l⟩ := s
    obtain ⟨m, l'⟩ := m
    cases hl
    exact .some (hs.observe l)

example : ((AsyncMultiConsumerQueue.lone Nat).exec (AsyncMultiConsumerQueue.lone Nat).init
    [.next, .awaitReady, .awaitSuspend, .cancel, .callback, .awaitResume]).map
      (fun m => (AsyncMultiConsumerQueue.observe m).submitted) =
    some [(0, .exception (some .operationCancelled))] := by decide

end Corsl
