import Corsl.Queue.AsyncLemmas

/-!
# A section of `async_queue` that cannot submit its consumer

`drain` unlinks the parked awaitable, moves the outcome into it and pops the queue, and then calls
`resume_on_background`, which throws when `TrySubmitThreadpoolCallback` fails. The exception leaves
`push`, `emplace`, `cancel` or `push_exception`; nothing is put back.

* `sys`: the steps of the users of a queue, and the sections in which the submission fails
  (`Ev.fails`).
* `Stranded`: the consumer is parked, and neither `current` nor the pool knows it. No step changes
  that, so it is not resumed again and its outcome stays with it (`Abandoned`).
* `Intact`: what a failed operation should leave behind.
-/

namespace Corsl

open Conc

namespace AsyncQueue

namespace Unsubmitted

variable {T : Type}

/-- The atomic steps (module doc). -/
inductive Ev (T : Type) where
  | base (e : AsyncQueue.Ev T)
  /-- The section `e`, whose submission fails. -/
  | fails (e : AsyncQueue.Ev T)

/-- The state after a section that ends in `drain`, whose submission fails; `none` if it submits
nothing. -/
def unsubmitted (s : St T) :
    Option (AsyncQueue (Item T) × Option (Wake (Item T))) → Option (St T)
  | some (q, some w) =>
    if w.awaitable = s.awaits then some { s.bind w.value with q }
    else some { s with undefined := true }
  | _ => none

/-- One atomic step. -/
def step (s : St T) : Ev T → Option (St T)
  | .base e => AsyncQueue.step s e
  | .fails (.push v) =>
    unsubmitted (s.offer v) ((s.q.push (s.ledger.next, v)).map Prod.snd)
  | .fails (.emplace v) =>
    unsubmitted (s.offer v) ((s.q.emplace (s.ledger.next, v)).map Prod.snd)
  | .fails .cancel => unsubmitted s s.q.cancel
  | .fails (.pushException e) => unsubmitted s (s.q.pushException e)
  | .fails _ => none

/-- The users of one queue, with submissions that fail. -/
def sys (T : Type) : Sys (St T) (Ev T) := ⟨{}, step⟩

/-- The step is a `push` or an `emplace` whose submission fails. -/
def Ev.failsPush : Ev T → Prop
  | .fails (.push _) | .fails (.emplace _) => True
  | _ => False

/-- The value `x` is stored, was returned, or is bound to a consumer whose resumption is
submitted. -/
def Safe (s : St T) (x : Item T) : Prop :=
  x ∈ s.q.queue ∨ x ∈ s.returned ∨ (s.value = .value x ∧ (s.awaits ∈ s.pool ∨ s.pc = .ready))

/-- What a failed operation leaves as it was: the parked consumer, and the accepted values. -/
structure Intact (s s' : St T) : Prop where
  parked : s'.q.current = s.q.current
  kept : ∀ x ∈ s'.ledger.kept, Safe s' x

/-- Consumer `c` is parked and not known to anyone, and the accepted value `x` is with it. -/
structure Abandoned (s : St T) (c : Nat) (x : Item T) : Prop where
  parked : s.pc = .parked ∧ s.awaits = c
  unknown : s.q.current = none ∧ s.pool = []
  kept : x ∈ s.ledger.kept
  lost : ¬Safe s x

/-- The consumer is parked with the outcome `value`, and is not known to anyone. -/
structure Stranded (s : St T) (c : Nat) (value : Slot (Item T)) : Prop where
  parked : s.pc = .parked
  awaits : s.awaits = c
  current : s.q.current = none
  pool : s.pool = []
  slot : s.value = value
  ledger : s.ledger.Ok s.q.queue
  taken : s.ledger.taken = s.returned ++ value.values

section Steps

variable {s s' : St T} {c : Nat} {value : Slot (Item T)} {e : Ev T}

/-- A null exception sends `drain` to the front of the queue. -/
theorem pushException_null {q : AsyncQueue T} {c : Nat} (h : q.current = some c)
    (hq : q.queue = []) : q.pushException none = none := by
  cases q
  cases h
  cases hq
  rfl

/-- Where nobody is parked, nothing is submitted. -/
theorem step_fails_free (hc : s.q.current = none) (e : AsyncQueue.Ev T) :
    step s (.fails e) = none := by
  cases e with
  | push v =>
    show unsubmitted _ ((s.q.enqueue _).map Prod.snd) = none
    rw [enqueue_free hc]
    rfl
  | emplace v =>
    show unsubmitted _ ((s.q.enqueue _).map Prod.snd) = none
    rw [enqueue_free hc]
    rfl
  | cancel =>
    show unsubmitted s (s.q.pushException _) = none
    rw [pushException_free hc]
    rfl
  | pushException e =>
    show unsubmitted s (s.q.pushException e) = none
    rw [pushException_free hc]
    rfl
  | _ => rfl

/-- No step of the queue helps. -/
theorem Stranded.base {e : AsyncQueue.Ev T} (h : Stranded s c value)
    (hst : AsyncQueue.step s e = some s') : Stranded s' c value := by
  obtain ⟨hp, ha, hc, hpool, hv, hL, ht⟩ := h
  have henqueue : ∀ v, Stranded
      ((s.offer v).drained ((s.q.enqueue (s.ledger.next, v)).map Prod.snd)) c value := by
    intro v
    rw [enqueue_free hc]
    cases he : s.q.exception with
    | none =>
      simp only [Option.isNone_none, if_true, offer_free he]
      exact ⟨hp, ha, hc, hpool, hv, hL.accept v, ht⟩
    | some e =>
      simp only [Option.isNone_some, offer_failed he]
      exact ⟨hp, ha, hc, hpool, hv, hL.refuse, ht⟩
  have hexception : ∀ e, Stranded (s.drained (s.q.pushException e)) c value := by
    intro e
    rw [pushException_free hc]
    exact ⟨hp, ha, hc, hpool, hv, hL, ht⟩
  cases e with
  | push v => cases hst; exact henqueue v
  | emplace v => cases hst; exact henqueue v
  | cancel => cases hst; exact hexception _
  | pushException e => cases hst; exact hexception e
  | clear => cases hst; exact ⟨hp, ha, hc, hpool, hv, hL.drop, ht⟩
  | callback handle => simp [AsyncQueue.step, hpool] at hst
  | _ => simp [AsyncQueue.step, hp] at hst

theorem Stranded.step (h : Stranded s c value) (hst : step s e = some s') :
    Stranded s' c value := by
  cases e with
  | base e => exact h.base hst
  | fails e =>
    rw [step_fails_free h.current] at hst
    cases hst

/-- The value that a stranded consumer has is lost. -/
theorem Stranded.abandoned {x : Item T} (h : Stranded s c (.value x)) : Abandoned s c x := by
  have hkept := h.ledger.kept
  have hnodup := List.Nodup.of_map _ h.ledger.tickets
  rw [h.taken] at hkept hnodup
  refine ⟨⟨h.parked, h.awaits⟩, ⟨h.current, h.pool⟩, ?_, ?_⟩
  · rw [← hkept]
    simp
  · rw [List.append_assoc, List.nodup_append] at hnodup
    obtain ⟨-, htail, hdisj⟩ := hnodup
    rintro (hq | hr | ⟨-, hpool | hpc⟩)
    · exact (List.nodup_cons.mp htail).1 hq
    · exact hdisj x hr x (by simp) rfl
    · rw [h.pool] at hpool
      cases hpool
    · rw [h.parked] at hpc
      cases hpc

/-- A parked consumer whose submission fails is stranded. -/
theorem fails_strands {e : AsyncQueue.Ev T} (h : Inv s)
    (hst : step s (.fails e) = some s') :
    s.q.current = some s.awaits ∧ s'.q.current = none ∧
    ∃ value, Stranded s' s.awaits value ∧
      (Ev.failsPush (.fails e) → ∃ v, value = .value (s.ledger.next, v)) := by
  rcases h.current with hc | ⟨hp, hc, hq, he, hm, hpool⟩
  · rw [step_fails_free hc] at hst
    cases hst
  have htaken := h.taken
  rw [hm, Slot.values_monostate, List.append_nil] at htaken
  have hL : s.ledger.Ok [] := hq ▸ h.ledger
  have henqueue : ∀ v, unsubmitted (s.offer v)
      ((s.q.enqueue (s.ledger.next, v)).map Prod.snd) = some s' →
      s'.q.current = none ∧ Stranded s' s.awaits (.value (s.ledger.next, v)) := by
    intro v hst
    rw [enqueue_parked hc hq he, offer_free he] at hst
    simp only [unsubmitted, if_true] at hst
    cases hst
    refine ⟨rfl, hp, rfl, rfl, hpool, rfl, ?_, ?_⟩
    · show Ledger.Ok _ s.q.queue
      rw [hq]
      exact hL.accept_take v
    · show s.ledger.taken ++ _ = _
      rw [htaken]
      rfl
  have hexception : ∀ e, unsubmitted s (s.q.pushException (some e)) = some s' →
      s'.q.current = none ∧ Stranded s' s.awaits (.exception (some e)) := by
    intro e hst
    rw [pushException_parked hc] at hst
    simp only [unsubmitted, if_true] at hst
    cases hst
    exact ⟨rfl, hp, rfl, rfl, hpool, rfl, h.ledger, by simpa [St.bind] using htaken⟩
  cases e with
  | push v =>
    obtain ⟨h1, h2⟩ := henqueue v hst
    exact ⟨hc, h1, _, h2, fun _ => ⟨v, rfl⟩⟩
  | emplace v =>
    obtain ⟨h1, h2⟩ := henqueue v hst
    exact ⟨hc, h1, _, h2, fun _ => ⟨v, rfl⟩⟩
  | cancel =>
    obtain ⟨h1, h2⟩ := hexception _ hst
    exact ⟨hc, h1, _, h2, fun hf => hf.elim⟩
  | pushException e =>
    cases e with
    | none =>
      rw [step, pushException_null hc hq] at hst
      cases hst
    | some e =>
      obtain ⟨h1, h2⟩ := hexception e hst
      exact ⟨hc, h1, _, h2, fun hf => hf.elim⟩
  | _ => cases hst

/-- The steps without a failure, a null exception among them. -/
theorem base_inv {e : AsyncQueue.Ev T} (h : Inv s) (hst : AsyncQueue.step s e = some s')
    (hd : s'.undefined = false) : Inv s' := by
  by_cases hn : e = .pushException none
  · subst hn
    cases hst
    rcases h.current with hc | ⟨-, hc, hq, -⟩
    · rw [pushException_free hc]
      exact h.queue hc hc h.ledger rfl
    · rw [pushException_null hc hq] at hd
      cases hd
  · exact step_inv h hn hst

theorem drained_undefined (hu : s.undefined = true)
    (r : Option (AsyncQueue (Item T) × Option (Wake (Item T)))) :
    (s.drained r).undefined = true := by
  rcases r with - | ⟨q, - | w⟩
  · rfl
  · exact hu
  · simp only [St.drained, St.wake]
    split
    · exact hu
    · rfl

theorem base_undefined {e : AsyncQueue.Ev T} (hu : s.undefined = true)
    (hst : AsyncQueue.step s e = some s') : s'.undefined = true := by
  cases e with
  | push v => cases hst; exact drained_undefined (s := s.offer v) hu _
  | emplace v => cases hst; exact drained_undefined (s := s.offer v) hu _
  | cancel => cases hst; exact drained_undefined hu _
  | pushException e => cases hst; exact drained_undefined hu _
  | clear => cases hst; exact hu
  | next =>
    simp only [AsyncQueue.step] at hst
    split at hst <;> cases hst
    exact hu
  | _ =>
    simp only [AsyncQueue.step] at hst
    split at hst
    · split at hst <;> cases hst <;> first | exact hu | rfl
    · cases hst

theorem unsubmitted_undefined (hu : s.undefined = true)
    {r : Option (AsyncQueue (Item T) × Option (Wake (Item T)))}
    (hst : unsubmitted s r = some s') : s'.undefined = true := by
  rcases r with - | ⟨q, - | w⟩
  · cases hst
  · cases hst
  · simp only [unsubmitted] at hst
    split at hst <;> cases hst
    · exact hu
    · rfl

/-- Undefined behaviour stays on the record. -/
theorem step_undefined (hu : s.undefined = true) (hst : step s e = some s') :
    s'.undefined = true := by
  cases e with
  | base e => exact base_undefined hu hst
  | fails e =>
    cases e with
    | push v => exact unsubmitted_undefined (s := s.offer v) hu hst
    | emplace v => exact unsubmitted_undefined (s := s.offer v) hu hst
    | cancel => exact unsubmitted_undefined hu hst
    | pushException e => exact unsubmitted_undefined hu hst
    | _ => cases hst

/-- The queue is as without failures, or its consumer is stranded. -/
theorem reach_inv (hs : (sys T).Reach s) (hd : s.undefined = false) :
    Inv s ∨ ∃ c value, Stranded s c value := by
  induction hs with
  | init => exact .inl .init
  | @step s s' e _ _ hst ih =>
    have hd' : s.undefined = false := by
      by_contra hu
      rw [step_undefined (by simpa using hu) hst] at hd
      cases hd
    rcases ih hd' with hi | ⟨c, value, h⟩
    · cases e with
      | base e => exact .inl (base_inv hi hst hd)
      | fails e =>
        obtain ⟨-, -, value, h, -⟩ := fails_strands hi hst
        exact .inr ⟨_, value, h⟩
    · exact .inr ⟨c, value, h.step hst⟩

theorem Stranded.later {ok : St T → Ev T → Prop} (h : Stranded s c value)
    (hl : (sys T).Later ok s s') : Stranded s' c value := by
  induction hl with
  | refl => exact h
  | step e _ _ hst ih => exact ih.step hst

/-- A `push` or `emplace` that fails to submit abandons the consumer, with the value. -/
theorem push_abandons (hs : (sys T).Reach s) (hd : s.undefined = false) (he : e.failsPush)
    (hst : step s e = some s') : s.q.current = some s.awaits ∧ s'.q.current = none ∧
    ∃ x : Item T, x.1 = s.ledger.next ∧
      ∀ s'', (sys T).Later (fun _ _ => True) s' s'' → Abandoned s'' s.awaits x := by
  cases e with
  | base e => cases he
  | fails e =>
    rcases reach_inv hs hd with hi | ⟨c, value, h⟩
    · obtain ⟨hc, hc', value, h, hv⟩ := fails_strands hi hst
      obtain ⟨v, rfl⟩ := hv he
      exact ⟨hc, hc', _, rfl, fun s'' hl => (h.later hl).abandoned⟩
    · rw [step_fails_free h.current] at hst
      cases hst

end Steps

/-- The consumer waits. -/
def parked : List (Ev Nat) := [.base .next, .base .awaitReady, .base .awaitSuspend]

end Unsubmitted

end AsyncQueue

end Corsl
