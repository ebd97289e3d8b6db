import Mathlib.Data.List.Nodup
import Corsl.Queue.Async

/-!
# `async_queue` hands every value over exactly once, in order

Over every run of `AsyncQueue.sys` whose pushed exceptions are not null:

* `Inv`: a parked consumer (`current`) means an empty queue and no exception, so a section that
  ends in `drain` finds the value that it has just stored, or the exception that it has just set;
  where the consumer is decides what its value slot holds and which handles are in the pool
  (`Shape`); the ledger fits the queue.
* `exactly_once`: what was returned, what is handed over and what is stored are the accepted
  values without the cleared ones; a parking is answered by at most one submission, whose value is
  set by then.
-/

namespace Corsl

open Conc

namespace AsyncQueue

variable {T : Type}

/-! ## The sections -/

theorem drain_free {q : AsyncQueue T} (h : q.current = none) : q.drain = some (q, none) := by
  unfold drain; rw [h]

theorem enqueue_free {q : AsyncQueue T} (h : q.current = none) (v : T) :
    (q.enqueue v).map Prod.snd =
      some ({ q with queue := if q.exception.isNone then q.queue ++ [v] else q.queue }, none) := by
  obtain ⟨queue, current, exception⟩ := q
  cases h
  cases exception <;> rfl

/-- A value pushed while the consumer is parked goes to it, past the empty queue. -/
theorem enqueue_parked {q : AsyncQueue T} {c : Nat} (h : q.current = some c) (hq : q.queue = [])
    (he : q.exception = none) (v : T) :
    (q.enqueue v).map Prod.snd = some ({ q with current := none }, some ⟨c, .value v⟩) := by
  cases q
  cases h
  cases hq
  cases he
  rfl

theorem pushException_free {q : AsyncQueue T} (h : q.current = none) (e : ExceptionPtr) :
    q.pushException e = some ({ q with exception := e }, none) :=
  drain_free (q := { q with exception := e }) h

theorem pushException_parked {q : AsyncQueue T} {c : Nat} (h : q.current = some c)
    (e : Exception) : q.pushException (some e) =
      some ({ q with exception := some e, current := none }, some ⟨c, .exception (some e)⟩) := by
  cases q
  cases h
  rfl

theorem offer_free {s : St T} (h : s.q.exception = none) (v : T) :
    s.offer v = { s with ledger := s.ledger.accept v } := by
  unfold St.offer; rw [h]; rfl

theorem offer_failed {s : St T} {e : Exception} (h : s.q.exception = some e) (v : T) :
    s.offer v = { s with ledger := s.ledger.refuse } := by
  unfold St.offer; rw [h]; rfl

/-! ## The invariant -/

/-- The consumer's slot, its handle in the pool and the queue's `current`, by the place of the
consumer: a parked consumer waits in `current`, or has its outcome and is submitted. -/
def Shape (s : St T) : Prop :=
  match s.pc with
  | .idle | .called | .unready => s.q.current = none ∧ s.value = .monostate ∧ s.pool = []
  | .ready => s.q.current = none ∧ s.value.isSet = true ∧ s.pool = []
  | .parked =>
    (s.q.current = some s.awaits ∧ s.q.queue = [] ∧ s.q.exception = none ∧
      s.value = .monostate ∧ s.pool = []) ∨
    (s.q.current = none ∧ s.value.isSet = true ∧ s.pool = [s.awaits])

/-- The invariant (module doc). -/
structure Inv (s : St T) : Prop where
  defined : s.undefined = false
  shape : Shape s
  ledger : s.ledger.Ok s.q.queue
  taken : s.ledger.taken = s.returned ++ s.value.values
  parkings : s.parkings.Nodup
  parked_le : ∀ k ∈ s.parkings, k ≤ s.awaits
  fresh : s.pc = .called ∨ s.pc = .unready → s.awaits ∉ s.parkings
  parked : s.pc = .parked → s.awaits ∈ s.parkings
  once : (s.submitted.map Prod.fst).Nodup
  submitted : ∀ x ∈ s.submitted, x.1 ∈ s.parkings ∧ x.2.isSet = true ∧ s.q.current ≠ some x.1

theorem Inv.init : Inv ({} : St T) :=
  ⟨rfl, ⟨rfl, rfl, rfl⟩, Ledger.Ok.init, rfl, by simp, by simp, by simp, by simp, by simp, by simp⟩

/-- The consumer is not parked, or has its outcome: `current` is null. Else it waits. -/
theorem Inv.current {s : St T} (h : Inv s) : s.q.current = none ∨
    (s.pc = .parked ∧ s.q.current = some s.awaits ∧ s.q.queue = [] ∧ s.q.exception = none ∧
      s.value = .monostate ∧ s.pool = []) := by
  have hs := h.shape
  unfold Shape at hs
  split at hs
  · exact .inl hs.1
  · exact .inl hs.1
  · exact .inl hs.1
  · exact .inl hs.1
  · rename_i hp
    rcases hs with hs | hs
    · exact .inr ⟨hp, hs⟩
    · exact .inl hs.1

/-- A section that leaves the consumer alone, while `current` is null. -/
theorem Inv.queue {s : St T} (h : Inv s) (hc : s.q.current = none) {q : AsyncQueue (Item T)}
    {L : Ledger T} (hq : q.current = none) (hL : L.Ok q.queue) (ht : L.taken = s.ledger.taken) :
    Inv { s with q, ledger := L } := by
  refine ⟨h.defined, ?_, hL, ht.trans h.taken, h.parkings, h.parked_le, h.fresh, h.parked,
    h.once, fun x hx => ⟨(h.submitted x hx).1, (h.submitted x hx).2.1, by simp [hq]⟩⟩
  have hs := h.shape
  unfold Shape at hs ⊢
  cases hp : s.pc <;> simp only [hp, hc, hq, reduceCtorEq, false_and, false_or] at hs ⊢ <;> exact hs

/-- A section that wakes the parked consumer with the outcome `value`. -/
theorem Inv.wake {s : St T} (h : Inv s) (hp : s.pc = .parked) (hc : s.q.current = some s.awaits)
    (hpool : s.pool = []) {q : AsyncQueue (Item T)} {L : Ledger T} {value : Slot (Item T)}
    (hq : q.current = none) (hv : value.isSet = true)
    (hL : (value.values.foldl Ledger.take L).Ok q.queue)
    (ht : (value.values.foldl Ledger.take L).taken = s.ledger.taken ++ value.values)
    (hm : s.value = .monostate) :
    Inv (({ s with q, ledger := L } : St T).wake (some ⟨s.awaits, value⟩)) := by
  have hnew : s.awaits ∉ s.submitted.map Prod.fst := by
    intro hx
    obtain ⟨x, hx, he⟩ := List.mem_map.mp hx
    exact (h.submitted x hx).2.2 (by rw [hc, he])
  have htaken := h.taken
  simp only [hm, Slot.values_monostate, List.append_nil] at htaken
  simp only [St.wake, St.bind, if_true]
  refine ⟨h.defined, ?_, hL, by rw [ht, htaken], h.parkings, h.parked_le, ?_, fun _ => h.parked hp,
    ?_, fun x hx => ?_⟩
  · unfold Shape
    simp only [hp, hpool, List.nil_append]
    exact .inr ⟨hq, hv, trivial⟩
  · intro hpc
    simp [hp] at hpc
  · simpa using List.Nodup.concat hnew h.once
  · rcases List.mem_append.mp hx with hx | hx
    · exact ⟨(h.submitted x hx).1, (h.submitted x hx).2.1, by simp [hq]⟩
    · rw [List.mem_singleton.mp hx]
      exact ⟨h.parked hp, hv, by simp [hq]⟩

theorem Inv.enqueue {s : St T} (h : Inv s) (v : T) :
    Inv ((s.offer v).drained ((s.q.enqueue (s.ledger.next, v)).map Prod.snd)) := by
  rcases h.current with hc | ⟨hp, hc, hq, he, hm, hpool⟩
  · rw [enqueue_free hc]
    cases he : s.q.exception with
    | none =>
      simp only [Option.isNone_none, if_true, offer_free he]
      exact h.queue hc hc (h.ledger.accept v) rfl
    | some e =>
      simp only [Option.isNone_some, offer_failed he]
      exact h.queue hc hc h.ledger.refuse rfl
  · rw [enqueue_parked hc hq he]
    have hL : s.ledger.Ok [] := hq ▸ h.ledger
    rw [offer_free he]
    refine h.wake hp hc hpool rfl rfl ?_ rfl hm
    rw [hq]
    exact hL.accept_take v

theorem Inv.pushException {s : St T} (h : Inv s) (e : ExceptionPtr)
    (he : e = none → s.q.current = none) : Inv (s.drained (s.q.pushException e)) := by
  rcases h.current with hc | ⟨hp, hc, hq, -, hm, hpool⟩
  · rw [pushException_free hc]
    exact h.queue hc hc h.ledger rfl
  · cases e with
    | none =>
      rw [he rfl] at hc
      cases hc
    | some e =>
      rw [pushException_parked hc]
      refine h.wake hp hc hpool rfl rfl h.ledger ?_ hm
      simp

/-- The consumer's `await_ready` or `await_suspend` ends the await with a set slot. -/
theorem Inv.bind {s : St T} (h : Inv s) (hpc : s.pc = .called ∨ s.pc = .unready)
    {q : AsyncQueue (Item T)} {value : Slot (Item T)} (hq : q.current = none)
    (hv : value.isSet = true) (hL : (value.values.foldl Ledger.take s.ledger).Ok q.queue)
    (ht : (value.values.foldl Ledger.take s.ledger).taken = s.ledger.taken ++ value.values) :
    Inv { s.bind value with q, pc := .ready } := by
  have hs := h.shape
  have hm : s.value = .monostate ∧ s.pool = [] := by
    unfold Shape at hs
    rcases hpc with hpc | hpc <;> rw [hpc] at hs <;> exact hs.2
  have htaken := h.taken
  simp only [hm.1, Slot.values_monostate, List.append_nil] at htaken
  exact ⟨h.defined, ⟨hq, hv, hm.2⟩, hL, by simp only [St.bind, ht, htaken], h.parkings,
    h.parked_le, by simp, by simp, h.once,
    fun x hx => ⟨(h.submitted x hx).1, (h.submitted x hx).2.1, by simp [hq]⟩⟩

theorem Inv.awaitReady {s s' : St T} (h : Inv s) (hst : step s .awaitReady = some s') : Inv s' := by
  simp only [step] at hst
  split at hst
  · rename_i hpc
    have hs := h.shape
    unfold Shape at hs
    rw [hpc] at hs
    cases he : s.q.exception with
    | some e =>
      simp only [isReady, isReadySection, he, Option.isSome_some, if_true, Option.some.injEq] at hst
      subst hst
      exact h.bind (.inl hpc) hs.1 rfl h.ledger (by simp)
    | none =>
      cases hq : s.q.queue with
      | cons v rest =>
        simp only [isReady, isReadySection, he, hq, Option.isSome_none, Bool.false_eq_true,
          if_false, if_true, Option.some.injEq] at hst
        subst hst
        exact h.bind (.inl hpc) hs.1 rfl (hq ▸ h.ledger : s.ledger.Ok (v :: rest)).take rfl
      | nil =>
        simp only [isReady, isReadySection, he, hq, Option.isSome_none, Bool.false_eq_true,
          if_false, Option.some.injEq] at hst
        subst hst
        exact ⟨h.defined, hs, hq ▸ h.ledger, h.taken, h.parkings, h.parked_le,
          fun _ => h.fresh (.inl hpc), by simp, h.once, h.submitted⟩
  · cases hst

theorem Inv.awaitSuspend {s s' : St T} (h : Inv s) (hst : step s .awaitSuspend = some s') :
    Inv s' := by
  simp only [step] at hst
  split at hst
  · rename_i hpc
    have hs := h.shape
    unfold Shape at hs
    rw [hpc] at hs
    cases he : s.q.exception with
    | some e =>
      simp only [setAwaitable, he, Option.some.injEq] at hst
      subst hst
      exact ⟨h.defined, hs, h.ledger, h.taken, h.parkings, h.parked_le, by simp, by simp, h.once,
        h.submitted⟩
    | none =>
      cases hq : s.q.queue with
      | cons v rest =>
        simp only [setAwaitable, he, hq, Option.some.injEq] at hst
        subst hst
        exact h.bind (.inr hpc) hs.1 rfl (hq ▸ h.ledger : s.ledger.Ok (v :: rest)).take rfl
      | nil =>
        simp only [setAwaitable, he, hq, Option.some.injEq] at hst
        subst hst
        have hnew := h.fresh (.inr hpc)
        refine ⟨h.defined, .inl ⟨rfl, rfl, rfl, hs.2⟩, hq ▸ h.ledger, h.taken, ?_,
          fun k hk => ?_, by simp, fun _ => by simp, h.once, fun x hx => ?_⟩
        · simpa using List.Nodup.concat hnew h.parkings
        · rcases List.mem_append.mp hk with hk | hk
          · exact h.parked_le k hk
          · exact Nat.le_of_eq (List.mem_singleton.mp hk)
        · -- the new parking has no submission: it was not parked before
          obtain ⟨h1, h2, -⟩ := h.submitted x hx
          refine ⟨List.mem_append_left _ h1, h2, fun hc => hnew ?_⟩
          rw [Option.some.inj hc]
          exact h1
  · cases hst

theorem Inv.callback {s s' : St T} (h : Inv s) {handle : Nat}
    (hst : step s (.callback handle) = some s') : Inv s' := by
  simp only [step] at hst
  split at hst
  · rename_i hmem
    have hs := h.shape
    unfold Shape at hs
    -- only a parked consumer with its outcome has a handle in the pool
    obtain ⟨hpc, hc, hv, hpool⟩ : s.pc = .parked ∧ s.q.current = none ∧ s.value.isSet = true ∧
        s.pool = [s.awaits] := by
      split at hs
      · rw [hs.2.2] at hmem; cases hmem
      · rw [hs.2.2] at hmem; cases hmem
      · rw [hs.2.2] at hmem; cases hmem
      · rw [hs.2.2] at hmem; cases hmem
      · rename_i hp
        rcases hs with hs | hs
        · rw [hs.2.2.2.2] at hmem; cases hmem
        · exact ⟨hp, hs⟩
    have hh : handle = s.awaits := by simpa [hpool] using hmem
    simp only [hpc, hh, and_self, if_true, Option.some.injEq] at hst
    subst hst
    exact ⟨h.defined, ⟨hc, hv, by simp [hpool]⟩, h.ledger, h.taken, h.parkings, h.parked_le,
      by simp, by simp, h.once, h.submitted⟩
  · cases hst

theorem Inv.awaitResume {s s' : St T} (h : Inv s) (hst : step s .awaitResume = some s') :
    Inv s' := by
  simp only [step] at hst
  split at hst
  · rename_i hpc
    have hs := h.shape
    unfold Shape at hs
    rw [hpc] at hs
    obtain ⟨hc, hv, hpool⟩ := hs
    have htaken := h.taken
    cases hval : s.value with
    | monostate => rw [hval] at hv; cases hv
    | exception e =>
      simp only [Corsl.awaitResume, hval, Option.some.injEq] at hst
      subst hst
      rw [hval] at htaken
      exact ⟨h.defined, ⟨hc, rfl, hpool⟩, h.ledger, htaken, h.parkings, h.parked_le, by simp,
        by simp, h.once, h.submitted⟩
    | value v =>
      simp only [Corsl.awaitResume, hval, Option.some.injEq] at hst
      subst hst
      rw [hval] at htaken
      exact ⟨h.defined, ⟨hc, rfl, hpool⟩, h.ledger, by simpa using htaken, h.parkings, h.parked_le,
        by simp, by simp, h.once, h.submitted⟩
  · cases hst

theorem Inv.next {s s' : St T} (h : Inv s) (hst : step s .next = some s') : Inv s' := by
  simp only [step] at hst
  split at hst
  · rename_i hpc
    have hs := h.shape
    unfold Shape at hs
    rw [hpc] at hs
    cases hst
    have htaken := h.taken
    rw [hs.2.1] at htaken
    refine ⟨h.defined, ⟨hs.1, rfl, hs.2.2⟩, h.ledger, htaken, h.parkings,
      fun k hk => Nat.le_succ_of_le (h.parked_le k hk), fun _ hk => ?_, by simp, h.once,
      h.submitted⟩
    exact Nat.not_succ_le_self _ (h.parked_le _ hk)
  · cases hst

theorem Inv.clear {s s' : St T} (h : Inv s) (hst : step s .clear = some s') : Inv s' := by
  cases hst
  rcases h.current with hc | ⟨hp, hc, hq, he, hm, hpool⟩
  · exact h.queue hc hc h.ledger.drop rfl
  · -- a parked consumer: there is nothing to clear
    refine ⟨h.defined, ?_, h.ledger.drop, h.taken, h.parkings, h.parked_le, h.fresh, h.parked,
      h.once, h.submitted⟩
    unfold Shape
    simp only [hp]
    exact .inl ⟨hc, trivial, trivial, hm, hpool⟩

theorem Inv.step {s s' : St T} {e : Ev T} (h : Inv s) (hok : NullUnparked s e)
    (hst : step s e = some s') : Inv s' := by
  cases e with
  | push v => cases hst; exact h.enqueue v
  | emplace v => cases hst; exact h.enqueue v
  | cancel => cases hst; exact h.pushException (some .operationCancelled) nofun
  | pushException e => cases hst; exact h.pushException e fun he => hok (he ▸ rfl)
  | clear => exact h.clear hst
  | next => exact h.next hst
  | awaitReady => exact h.awaitReady hst
  | awaitSuspend => exact h.awaitSuspend hst
  | callback handle => exact h.callback hst
  | awaitResume => exact h.awaitResume hst

theorem step_inv {s s' : St T} {e : Ev T} (h : Inv s) (hok : NonNull s e)
    (hst : AsyncQueue.step s e = some s') : Inv s' := h.step (fun he => absurd he hok) hst

theorem inductive_inv : (sys T).Inductive NonNull Inv :=
  ⟨Inv.init, fun _ _ _ h hok hst => step_inv h hok hst⟩

/-! ## Results -/

/-- **Exactly once, in order.** What `await_resume` returned, then the value handed to the
consumer's awaitable, then the queue, are the values accepted in the order of their sections,
without those that were in the queue when a `clear` ran. A parking is answered by at most one
submission of its handle, after the awaitable's value is set. -/
theorem exactly_once {s : St T} (h : (sys T).ReachBy NonNull s) :
    s.returned ++ s.value.values ++ s.q.queue = s.ledger.kept ∧ s.value.values.length ≤ 1 ∧
    s.parkings.Nodup ∧ (s.submitted.map Prod.fst).Nodup ∧
    (∀ x ∈ s.submitted, x.1 ∈ s.parkings ∧ x.2.isSet = true) ∧ s.undefined = false := by
  have hi := inductive_inv.reach h
  refine ⟨?_, s.value.values_length_le, hi.parkings, hi.once,
    fun x hx => ⟨(hi.submitted x hx).1, (hi.submitted x hx).2.1⟩, hi.defined⟩
  rw [← hi.taken]
  exact hi.ledger.kept

/-- One producer and one consumer: a value taken at once, a value handed to a parked consumer,
and a value that is cleared. -/
def demo : List (Ev Nat) :=
  [.push 17, .next, .awaitReady, .awaitResume, .next, .awaitReady, .awaitSuspend, .push 23,
    .push 42, .clear, .callback 2]

theorem exactly_once_demo :
    let s := (sys Nat).after demo
    s.returned ++ s.value.values ++ s.q.queue = s.ledger.kept ∧ s.value.values.length ≤ 1 ∧
    s.parkings.Nodup ∧ (s.submitted.map Prod.fst).Nodup ∧
    (∀ x ∈ s.submitted, x.1 ∈ s.parkings ∧ x.2.isSet = true) ∧ s.undefined = false :=
  exactly_once (Sys.reachBy_after (by decide) (by simp [demo, NonNull]))

example : ((sys Nat).after demo).ledger.kept = [(0, 17), (1, 23)] := by decide

end AsyncQueue

end Corsl
