import Corsl.Conc.Mailbox
import Corsl.Queue.Failure

/-!
# `async_queue` is a mailbox

What is seen of the queue from outside: the sections of `push`, `emplace`, `cancel`,
`push_exception` and `clear`, the calls of `next()`, and what each `co_await` of them returns or
throws (`seen`). In every run it is a history of a mailbox, which takes each call in one atomic
step: a parked awaitable is answered by the section that takes it off the queue, whenever its
coroutine is resumed. Submissions do not fail here; where one does is in `AsyncQueue.Unsubmitted`.
-/

namespace Corsl

open Conc Function

/-- What `await_resume` returns or throws. -/
def Slot.answer {T : Type} (value : Slot (Item T)) : Option (Except Exception T) :=
  match awaitResume value with
  | some (.ok v) => some (.ok v.2)
  | some (.error (some e)) => some (.error e)
  | some (.error none) | none => none

theorem Slot.isSet_ne {T : Type} {value : Slot T} (h : value.isSet = true) :
    value ≠ .monostate := by
  rintro rfl
  cases h

namespace AsyncQueue

variable {T : Type}

theorem isReady_value {q : AsyncQueue T} {v : T} {rest : List T} (h : q.exception = none)
    (hq : q.queue = v :: rest) : q.isReady = (true, .value v, { q with queue := rest }) := by
  cases q; cases h; cases hq; rfl

theorem isReady_empty {q : AsyncQueue T} (h : q.exception = none) (hq : q.queue = []) :
    q.isReady = (false, .monostate, q) := by
  cases q; cases h; cases hq; rfl

/-- What is seen of a step. -/
def seen (s : St T) : Ev T → List (Mailbox.Call Exception T)
  | .push v | .emplace v => [.put v]
  | .cancel => [.fail .operationCancelled]
  | .pushException e => e.toList.map .fail
  | .clear => [.clear]
  | .next => [.ask (s.awaits + 1)]
  | .awaitSuspend => s.q.exception.toList.map fun e => .got s.awaits (.error e)
  | .awaitResume => s.value.answer.toList.map (.got s.awaits)
  | .awaitReady | .callback _ => []

/-- Where the consumer is with its mailbox, in an await. -/
def St.sees (s : St T) : Option (Mailbox.Ask Exception T) :=
  match s.pc with
  | .idle => none
  | .called | .unready => some .asked
  | .parked => if s.q.current.isSome then some .asked else s.value.answer.map .answered
  | .ready => s.value.answer.map .answered

/-- The queue and the mailbox are at the same point. -/
structure Sees (s : St T) (a : Mailbox.St Exception T) : Prop where
  values : a.values = s.q.queue.map Prod.snd
  failed : a.failed = s.q.exception
  fresh : ∀ c, s.awaits < c → a.asks c = .silent
  ask : s.pc ≠ .idle → s.sees = some (a.asks s.awaits)

/-- Before it parks, the consumer is not known to the queue. -/
theorem Inv.unknown {s : St T} (h : Inv s) (hpc : s.pc = .called ∨ s.pc = .unready) :
    s.q.current = none := by
  obtain hc | ⟨hp, -⟩ := h.current
  · exact hc
  · obtain hpc | hpc := hpc <;> cases hpc.symm.trans hp

section Steps

variable {s s' : St T} {a : Mailbox.St Exception T} {l : List (Mailbox.Call Exception T)}

theorem Sees.init : Sees ({} : St T) {} := by
  constructor <;> simp

theorem Sees.asked (h : Sees s a) (hc : s.pc = .called ∨ s.pc = .unready) :
    a.asks s.awaits = .asked := by
  have := h.ask (by obtain hc | hc := hc <;> simp [hc])
  unfold St.sees at this
  obtain hc | hc := hc <;> rw [hc] at this <;> exact (Option.some.inj this).symm

/-- A parked consumer, which waits in `current`. -/
theorem Sees.waits (h : Sees s a) (hp : s.pc = .parked) (hc : s.q.current = some s.awaits) :
    a.asks s.awaits = .asked := by
  have := h.ask (by simp [hp])
  simp only [St.sees, hp, hc, Option.isSome_some, if_true] at this
  exact (Option.some.inj this).symm

/-- A section that leaves the consumer alone. -/
theorem Sees.queue (h : Sees s a) {q : AsyncQueue (Item T)} (L : Ledger T) {values : List T}
    {failed : Option Exception} (hv : values = q.queue.map Prod.snd) (hf : failed = q.exception)
    (hc : q.current = s.q.current) :
    Sees { s with q, ledger := L } { a with values, failed } := by
  refine ⟨hv, hf, h.fresh, fun hp => ?_⟩
  rw [← h.ask hp]
  simp only [St.sees, hc]

/-- The awaitable of the consumer has its outcome. -/
theorem Sees.bind (h : Sees s a) {o : Except Exception T} {values : List T}
    (hv : values = s'.q.queue.map Prod.snd) (hf : s'.q.exception = s.q.exception)
    (hn : s'.awaits = s.awaits) (hc : s'.q.current = none) (ho : s'.value.answer = some o)
    (hp : s'.pc = .parked ∨ s'.pc = .ready) :
    Sees s' { a with values, asks := update a.asks s.awaits (.answered o) } := by
  refine ⟨hv, h.failed.trans hf.symm, fun c hlt => ?_, fun _ => ?_⟩
  · rw [hn] at hlt
    exact (update_of_ne (Nat.ne_of_gt hlt) _ _).trans (h.fresh c hlt)
  · obtain hp | hp := hp <;> simp [St.sees, hp, hc, ho, hn]

/-- `push` and `emplace`. -/
theorem Sees.enqueue (h : Sees s a) (hi : Inv s) (v : T) :
    ∃ a', (Mailbox.history Exception T).Leads (a, l) (a', l ++ [.put v]) ∧
      Sees ((s.offer v).drained ((s.q.enqueue (s.ledger.next, v)).map Prod.snd)) a' := by
  obtain hc | ⟨hp, hc, hq, he, -, -⟩ := hi.current
  · rw [enqueue_free hc]
    refine ⟨_, Mailbox.leads_put v, h.queue _ ?_ h.failed rfl⟩
    cases he : s.q.exception <;> simp [Mailbox.stored, h.failed, h.values, he]
  · rw [enqueue_parked hc hq he, offer_free he]
    have hf : a.failed = none := h.failed.trans he
    have hv : Mailbox.stored a.failed a.values v = v :: [] := by
      simp [Mailbox.stored, hf, h.values, hq]
    refine ⟨_, (Mailbox.leads_put v).trans
      (Mailbox.leads_value (s := { a with values := Mailbox.stored a.failed a.values v })
        (c := s.awaits) (h.waits hp hc) hf hv), ?_⟩
    refine h.bind (o := .ok v) ?_ ?_ ?_ ?_ ?_ (.inl ?_) <;>
      simp [St.drained, St.wake, St.bind, Slot.answer, Corsl.awaitResume, hp, hq]

/-- `push_exception` and `cancel`. -/
theorem Sees.pushException (h : Sees s a) (hi : Inv s) (e : Exception) :
    ∃ a', (Mailbox.history Exception T).Leads (a, l) (a', l ++ [.fail e]) ∧
      Sees (s.drained (s.q.pushException (some e))) a' := by
  obtain hc | ⟨hp, hc, -, -, -, -⟩ := hi.current
  · rw [pushException_free hc]
    exact ⟨_, Mailbox.leads_fail e, h.queue s.ledger h.values rfl rfl⟩
  · rw [pushException_parked hc]
    refine ⟨_, (Mailbox.leads_fail e).trans (Mailbox.leads_error (s := { a with failed := some e })
      (c := s.awaits) (h.waits hp hc) rfl), ?_⟩
    have h' : Sees { s with q := { s.q with exception := some e } } { a with failed := some e } :=
      h.queue s.ledger h.values rfl rfl
    refine h'.bind (o := .error e) ?_ ?_ ?_ ?_ ?_ (.inl ?_) <;>
      simp [St.drained, St.wake, St.bind, Slot.answer, Corsl.awaitResume, hp, h.values]

/-- `await_ready` finds the exception. -/
theorem Sees.fails (h : Sees s a) (hc : s.q.current = none) (e : Exception) :
    Sees { s.bind (.exception (some e)) with pc := .ready }
      { a with asks := update a.asks s.awaits (.answered (.error e)) } :=
  h.bind h.values rfl rfl hc rfl (.inr rfl)

/-- `await_ready` or `await_suspend` finds a value. -/
theorem Sees.pops (h : Sees s a) (hc : s.q.current = none) (v : Item T) (rest : List (Item T)) :
    Sees { s.bind (.value v) with q := { s.q with queue := rest }, pc := .ready }
      { a with
        values := rest.map Prod.snd, asks := update a.asks s.awaits (.answered (.ok v.2)) } :=
  h.bind rfl rfl rfl hc rfl (.inr rfl)

/-- `await_ready` -/
theorem Sees.awaitReady (h : Sees s a) (hi : Inv s) (hst : step s .awaitReady = some s') :
    ∃ a', (Mailbox.history Exception T).Leads (a, l) (a', l) ∧ Sees s' a' := by
  simp only [step] at hst
  split at hst
  · rename_i hpc
    have hask := h.asked (.inl hpc)
    have hc := hi.unknown (.inl hpc)
    cases he : s.q.exception with
    | some e =>
      rw [isReady_failed he] at hst
      cases hst
      exact ⟨_, Mailbox.leads_error hask (h.failed.trans he), h.fails hc e⟩
    | none =>
      cases hq : s.q.queue with
      | cons v rest =>
        rw [isReady_value he hq] at hst
        cases hst
        have hv : a.values = v.2 :: rest.map Prod.snd := by
          rw [h.values, hq]
          rfl
        exact ⟨_, Mailbox.leads_value hask (h.failed.trans he) hv, h.pops hc v rest⟩
      | nil =>
        rw [isReady_empty he hq] at hst
        cases hst
        exact ⟨a, .refl, h.values, h.failed, h.fresh, fun _ => by simp [St.sees, hask]⟩
  · cases hst

/-- and `await_suspend`. -/
theorem Sees.awaitSuspend (h : Sees s a) (hi : Inv s) (hst : step s .awaitSuspend = some s') :
    ∃ a', (Mailbox.history Exception T).Leads (a, l) (a', l ++ seen s .awaitSuspend) ∧
      Sees s' a' := by
  simp only [step] at hst
  split at hst
  · rename_i hpc
    have hask := h.asked (.inr hpc)
    have hc := hi.unknown (.inr hpc)
    cases he : s.q.exception with
    | some e =>
      rw [setAwaitable_failed he] at hst
      cases hst
      have hseen : seen s .awaitSuspend = [.got s.awaits (.error e)] := by simp [seen, he]
      rw [hseen]
      refine ⟨_, (Mailbox.leads_error hask (h.failed.trans he)).trans
        (Mailbox.leads_take (update_self ..)), h.values, h.failed, fun c hlt => ?_, by simp⟩
      have hne : c ≠ s.awaits := Nat.ne_of_gt hlt
      exact (update_of_ne hne _ _).trans ((update_of_ne hne _ _).trans (h.fresh c hlt))
    | none =>
      have hseen : l ++ seen s .awaitSuspend = l := by simp [seen, he]
      rw [hseen]
      cases hq : s.q.queue with
      | cons v rest =>
        rw [setAwaitable_value he hq] at hst
        cases hst
        have hv : a.values = v.2 :: rest.map Prod.snd := by
          rw [h.values, hq]
          rfl
        exact ⟨_, Mailbox.leads_value hask (h.failed.trans he) hv, h.pops hc v rest⟩
      | nil =>
        rw [setAwaitable_park he hq] at hst
        cases hst
        exact ⟨a, .refl, h.values, h.failed, h.fresh, fun _ => by simp [St.sees, hask]⟩
  · cases hst

/-- `await_resume`. -/
theorem Sees.awaitResume (h : Sees s a) (hi' : Inv s') (hst : step s .awaitResume = some s') :
    ∃ a', (Mailbox.history Exception T).Leads (a, l) (a', l ++ seen s .awaitResume) ∧
      Sees s' a' := by
  simp only [step] at hst
  split at hst
  · rename_i hpc
    have hsees := h.ask (by simp [hpc])
    simp only [St.sees, hpc] at hsees
    obtain ⟨o, ho, hask⟩ := Option.map_eq_some_iff.mp hsees
    have hseen : seen s .awaitResume = [.got s.awaits o] := by simp [seen, ho]
    rw [hseen]
    have hfresh : ∀ c, s.awaits < c → update a.asks s.awaits .gone c = .silent := fun c hlt =>
      (update_of_ne (Nat.ne_of_gt hlt) _ _).trans (h.fresh c hlt)
    split at hst
    · cases hst
      cases hi'.defined
    · cases hst
      exact ⟨_, Mailbox.leads_take hask.symm, h.values, h.failed, hfresh, by simp⟩
    · cases hst
      exact ⟨_, Mailbox.leads_take hask.symm, h.values, h.failed, hfresh, by simp⟩
  · cases hst

/-- The pool resumes the consumer. -/
theorem Sees.callback (h : Sees s a) (hi : Inv s) (hi' : Inv s') {handle : Nat}
    (hst : step s (.callback handle) = some s') : Sees s' a := by
  simp only [step] at hst
  split at hst
  · rename_i hmem
    split at hst <;> cases hst
    · rename_i hpc
      have hc : s.q.current = none := by
        obtain hc | ⟨-, -, -, -, -, hpool⟩ := hi.current
        · exact hc
        · rw [hpool] at hmem
          cases hmem
      refine ⟨h.values, h.failed, h.fresh, fun _ => ?_⟩
      rw [← h.ask (by simp [hpc.1])]
      simp [St.sees, hpc.1, hc]
    · cases hi'.defined
  · cases hst

/-- Each step of the queue, as the mailbox takes it. -/
theorem Sees.step {e : Ev T} (h : Sees s a) (hi : Inv s) (hok : NonNull s e)
    (hst : step s e = some s') :
    ∃ a', (Mailbox.history Exception T).Leads (a, l) (a', l ++ seen s e) ∧ Sees s' a' := by
  have hi' := step_inv hi hok hst
  cases e with
  | push v =>
    cases hst
    exact h.enqueue hi v
  | emplace v =>
    cases hst
    exact h.enqueue hi v
  | cancel =>
    cases hst
    exact h.pushException hi .operationCancelled
  | pushException e =>
    cases e with
    | none => exact absurd rfl hok
    | some e =>
      cases hst
      exact h.pushException hi e
  | clear =>
    cases hst
    exact ⟨_, Mailbox.leads_clear, h.queue _ rfl rfl rfl⟩
  | next =>
    simp only [AsyncQueue.step] at hst
    split at hst <;> cases hst
    refine ⟨_, Mailbox.leads_ask (h.fresh _ (Nat.lt_succ_self _)), h.values, h.failed,
      fun c hlt => ?_, fun _ => by simp [St.sees]⟩
    exact (update_of_ne (Nat.ne_of_gt hlt) _ _).trans (h.fresh c (Nat.lt_of_succ_lt hlt))
  | awaitReady =>
    obtain ⟨a', hl, ha⟩ := h.awaitReady hi hst (l := l)
    exact ⟨a', by simpa [seen] using hl, ha⟩
  | awaitSuspend => exact h.awaitSuspend hi hst
  | callback handle => exact ⟨a, by simpa [seen] using Sys.Later.refl, h.callback hi hi' hst⟩
  | awaitResume => exact h.awaitResume hi' hst

/-- The steps of the consumer, and of the pool that resumes it. -/
def own (s : St T) (e : Ev T) : Prop :=
  e = .awaitReady ∨ e = .awaitSuspend ∨ e = .callback s.awaits ∨ e = .awaitResume

/-- An await that has its outcome returns. -/
theorem returns (hpc : s.pc = .ready) (hv : s.value ≠ .monostate) :
    ∃ s', (sys T).Later own s s' ∧ s'.pc = .idle := by
  cases hval : s.value with
  | monostate => exact absurd hval hv
  | exception e =>
    have hst : AsyncQueue.step s .awaitResume =
        some { s with pc := .idle, value := .monostate } := by
      simp [AsyncQueue.step, hpc, hval, Corsl.awaitResume]
    exact ⟨_, .head (S := sys T) _ (.inr (.inr (.inr rfl))) hst .refl, rfl⟩
  | value v =>
    have hst : AsyncQueue.step s .awaitResume =
        some { s with pc := .idle, value := .monostate, returned := s.returned ++ [v] } := by
      simp [AsyncQueue.step, hpc, hval, Corsl.awaitResume]
    exact ⟨_, .head (S := sys T) _ (.inr (.inr (.inr rfl))) hst .refl, rfl⟩

/-- One step of the consumer, and it has its outcome. -/
theorem returns_after (e : Ev T) (t : St T) (ho : own s e) (hst : AsyncQueue.step s e = some t)
    (hpc : t.pc = .ready) (hv : t.value ≠ .monostate) :
    ∃ s', (sys T).Later own s s' ∧ s'.pc = .idle := by
  obtain ⟨s', hl, hd⟩ := returns hpc hv
  exact ⟨s', .head (S := sys T) e ho hst hl, hd⟩

/-- The consumer of a queue that has a value or an exception gets it by itself. -/
theorem Inv.gets (h : Inv s) (hpc : s.pc ≠ .idle)
    (hq : s.q.exception ≠ none ∨ s.q.queue ≠ [] ∨ s.value ≠ .monostate) :
    ∃ s', (sys T).Later own s s' ∧ s'.pc = .idle := by
  have hs := h.shape
  unfold Shape at hs
  cases hp : s.pc with
  | idle => exact absurd hp hpc
  | called =>
    rw [hp] at hs
    cases he : s.q.exception with
    | some e =>
      refine returns_after .awaitReady { s.bind (.exception (some e)) with pc := .ready }
        (.inl rfl) ?_ rfl (by simp [St.bind])
      simp only [AsyncQueue.step, hp, isReady_failed he]
      rfl
    | none =>
      obtain ⟨v, rest, hv⟩ := List.exists_cons_of_ne_nil
        ((hq.resolve_left (by simp [he])).resolve_right (by simp [hs.2.1]))
      refine returns_after .awaitReady
        { s.bind (.value v) with q := { s.q with queue := rest }, pc := .ready } (.inl rfl) ?_ rfl
        (by simp [St.bind])
      simp only [AsyncQueue.step, hp, isReady_value he hv]
      rfl
  | unready =>
    rw [hp] at hs
    cases he : s.q.exception with
    | some e =>
      have hst : AsyncQueue.step s .awaitSuspend = some { s with pc := .idle } := by
        simp [AsyncQueue.step, hp, setAwaitable_failed he]
      exact ⟨_, .head (S := sys T) _ (.inr (.inl rfl)) hst .refl, rfl⟩
    | none =>
      obtain ⟨v, rest, hv⟩ := List.exists_cons_of_ne_nil
        ((hq.resolve_left (by simp [he])).resolve_right (by simp [hs.2.1]))
      refine returns_after .awaitSuspend
        { s.bind (.value v) with q := { s.q with queue := rest }, pc := .ready } (.inr (.inl rfl))
        ?_ rfl (by simp [St.bind])
      simp only [AsyncQueue.step, hp, setAwaitable_value he hv]
      rfl
  | parked =>
    rw [hp] at hs
    obtain ⟨-, hqe, hee, hm, -⟩ | ⟨-, hv, hpool⟩ := hs
    · exact absurd hqe ((hq.resolve_left (by simp [hee])).resolve_right (by simp [hm]))
    · refine returns_after (.callback s.awaits) { s with pool := [], pc := .ready }
        (.inr (.inr (.inl rfl))) ?_ rfl (Slot.isSet_ne hv)
      simp [AsyncQueue.step, hp, hpool]
  | ready =>
    rw [hp] at hs
    exact returns hp (Slot.isSet_ne hs.2.1)

end Steps

/-- The queue as a mailbox: what was seen of it is `l`. -/
structure Mails (s : St T) (l : List (Mailbox.Call Exception T)) : Prop where
  history : ∃ a, (Mailbox.history Exception T).Reach (a, l) ∧ Sees s a
  /-- Who asks waits only for a value or an exception. -/
  gets : s.pc ≠ .idle → (s.q.exception ≠ none ∨ s.q.queue ≠ [] ∨ s.value ≠ .monostate) →
    ∃ s', (sys T).Later own s s' ∧ s'.pc = .idle

theorem simulates : Sys.Simulates ((sys T).logged seen) (fun s e => NonNull s.1 e)
    (Mailbox.history Exception T) (fun s a => (Inv s.1 ∧ Sees s.1 a.1) ∧ a.2 = s.2) where
  init := ⟨⟨inductive_inv.init, .init⟩, rfl⟩
  step := by
    rintro ⟨s, l⟩ e s' ⟨a, l'⟩ ⟨⟨hi, h⟩, rfl⟩ hok hst
    obtain ⟨hst, hl⟩ := Sys.logged_step.mp hst
    obtain ⟨a', hla, ha⟩ := h.step hi hok hst (l := l')
    exact ⟨(a', l' ++ seen s e), hla, ⟨inductive_inv.step s e s'.1 hi hok hst, ha⟩, hl.symm⟩

/-- What is seen of the queue is seen of a mailbox, and its consumer gets what is there. -/
theorem queue_mails {s : St T} {l : List (Mailbox.Call Exception T)}
    (hs : ((sys T).logged seen).ReachBy (fun s e => NonNull s.1 e) (s, l)) : Mails s l := by
  obtain ⟨⟨a, l'⟩, ha, ⟨hi, h⟩, rfl⟩ := simulates.reach hs
  exact ⟨⟨a, ha, h⟩, hi.gets⟩

theorem queue_mails_demo :
    Mails (((sys Nat).logged seen).after demo).1 (((sys Nat).logged seen).after demo).2 ∧
      (((sys Nat).logged seen).after demo).2 =
        [.put 17, .ask 1, .got 1 (.ok 17), .ask 2, .put 23, .put 42, .clear] := by
  have hs : ((sys Nat).logged seen).ReachBy (fun s e => NonNull s.1 e)
      (((sys Nat).logged seen).after demo) := Sys.reachBy_after rfl (by simp [demo, NonNull])
  exact ⟨queue_mails hs, rfl⟩

end AsyncQueue

end Corsl
