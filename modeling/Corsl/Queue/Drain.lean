import Corsl.Queue.AsyncLemmas

/-!
# What `drain` relies on (`async_queue.h`)

`drain` takes the front of the queue for a parked consumer, if there is no exception. So each
operation that calls it has to leave a value or an exception there (`Fed`); outside the sections, a
parked consumer means an empty queue and no exception (`Relied`). A null exception that is pushed to
a parked consumer leaves neither (`drain_fed_fails`). Where none is, both hold in every run, and a
section that does push one breaks them (`drain_fed`).
-/

namespace Corsl

open Conc

namespace AsyncQueue

variable {T : Type}

/-- The queue that `push` and `emplace` leave to `drain`. -/
def stored (q : AsyncQueue T) (item : T) : AsyncQueue T :=
  if q.exception.isNone then { q with queue := q.queue ++ [item] } else q

theorem enqueue_eq (q : AsyncQueue T) (item : T) :
    (q.enqueue item).map Prod.snd = (q.stored item).drain := by
  simp only [enqueue, stored, Option.map_map]
  exact Option.map_id' ..

/-- The queue that `drain` finds, in the operations that call it. -/
def atDrain (s : St T) : Ev T → Option (AsyncQueue (Item T))
  | .push v | .emplace v => some (s.q.stored (s.ledger.next, v))
  | .cancel => some { s.q with exception := some .operationCancelled }
  | .pushException exception => some { s.q with exception }
  | _ => none

/-- These operations end in `drain`. -/
theorem step_atDrain {s : St T} {e : Ev T} {q : AsyncQueue (Item T)} (h : atDrain s e = some q) :
    ∃ t : St T, t.q = s.q ∧ step s e = some (t.drained q.drain) := by
  cases e with
  | push v | emplace v =>
    cases h
    refine ⟨s.offer v, rfl, ?_⟩
    rw [← enqueue_eq]
    rfl
  | cancel | pushException e =>
    cases h
    exact ⟨s, rfl, rfl⟩
  | _ => cases h

/-- `drain` takes the front of an empty queue. -/
theorem drain_eq_none {q : AsyncQueue T} :
    q.drain = none ↔ q.current ≠ none ∧ q.exception = none ∧ q.queue = [] := by
  obtain ⟨queue, current, exception⟩ := q
  cases current <;> cases exception <;> cases queue <;> simp [drain]

/-- If `drain` finds a parked consumer and no exception, then it finds a value. -/
def Fed (s : St T) (e : Ev T) : Prop :=
  ∀ q, atDrain s e = some q → q.current ≠ none → q.exception = none → q.queue ≠ []

/-- An operation is fed if it does not come to the front of an empty queue. -/
theorem fed_iff {s : St T} {e : Ev T} : Fed s e ↔ ∀ q, atDrain s e = some q → q.drain ≠ none := by
  refine forall₂_congr fun q _ => ?_
  simp only [ne_eq, drain_eq_none, not_and]

/-- A parked consumer means an empty queue and no exception. -/
def Relied (s : St T) : Prop := s.q.current ≠ none → s.q.queue = [] ∧ s.q.exception = none

theorem Inv.relied {s : St T} (h : Inv s) : Relied s := fun hc => by
  obtain hn | ⟨-, -, hq, he, -⟩ := h.current
  · exact absurd hn hc
  · exact ⟨hq, he⟩

theorem fed_of_nullUnparked {s : St T} {e : Ev T} (hok : NullUnparked s e) : Fed s e := by
  intro q hq hc he
  cases e with
  | push v | emplace v =>
    cases hq
    cases hexc : s.q.exception with
    | none => simp [stored, hexc]
    | some e => simp [stored, hexc] at he
  | cancel =>
    cases hq
    cases he
  | pushException e =>
    cases hq
    have he : e = none := he
    exact absurd (hok (he ▸ rfl)) hc
  | _ => cases hq

theorem nullUnparked_of_fed {s : St T} (h : Relied s) {e : Ev T} (hf : Fed s e) :
    NullUnparked s e := by
  rintro rfl
  by_contra hc
  exact hf _ rfl hc rfl (h hc).1

theorem inductive_relied : (sys T).Inductive NullUnparked Inv :=
  ⟨Inv.init, fun _ _ _ h hok hst => h.step hok hst⟩

/-! ## Results -/

/-- **`drain` never takes the front of an empty queue**, in every run where a null exception is
pushed only while no consumer is parked. Any other section breaks it. -/
theorem drain_fed {s : St T} (h : (sys T).ReachBy NullUnparked s) :
    s.undefined = false ∧ Relied s ∧
    ∀ e s', step s e = some s' → (Fed s e ∧ Relied s' ↔ NullUnparked s e) := by
  have hi := inductive_relied.reach h
  refine ⟨hi.defined, hi.relied, fun e s' hst => ⟨fun hf => nullUnparked_of_fed hi.relied hf.1,
    fun hok => ⟨fed_of_nullUnparked hok, (hi.step hok hst).relied⟩⟩⟩

/-- A null exception comes before the consumer, and makes no difference. -/
def nullRun : List (Ev Nat) :=
  [.pushException none, .push 17, .next, .awaitReady, .awaitResume, .next, .awaitReady,
    .awaitSuspend, .push 23, .pushException none, .callback 2, .awaitResume]

/-- `NullUnparked`, as a check. -/
def nullUnparkedCheck (s : St Nat) : Ev Nat → Bool
  | .pushException none => s.q.current = none
  | _ => true

theorem nullUnparked_of_check (s : St Nat) (e : Ev Nat) (h : nullUnparkedCheck s e = true) :
    NullUnparked s e := by
  rintro rfl
  simpa [nullUnparkedCheck] using h

theorem drain_fed_null :
    ((sys Nat).after nullRun).undefined = false ∧ Relied ((sys Nat).after nullRun) ∧
    ∀ e s', step ((sys Nat).after nullRun) e = some s' →
      (Fed ((sys Nat).after nullRun) e ∧ Relied s' ↔ NullUnparked ((sys Nat).after nullRun) e) :=
  drain_fed ((Sys.reachBy_meets rfl).mono nullUnparked_of_check)

/-- A null exception is pushed to a parked consumer. -/
theorem drain_fed_fails :
    ¬∀ s : St Nat, (sys Nat).Reach s → (∀ e, Fed s e) ∧ Relied s := by
  intro h
  have hs : (sys Nat).Reach ((sys Nat).after [.next, .awaitReady, .awaitSuspend]) :=
    Sys.reach_after rfl
  exact (h _ hs).1 (.pushException none) _ rfl (by decide) rfl rfl

end AsyncQueue

end Corsl
