import Corsl.Queue.Mailbox
import Corsl.Queue.MultiLemmas

/-!
# `async_multi_consumer_queue` is a mailbox

What is seen of the queue from outside (`seen`) is in every run a history of a mailbox, any number
of consumers at a time: an awaitable that is parked is answered by the section that takes it off the
list of waiters, whenever its outcome is stored and its coroutine is resumed. Submissions do not
fail here; where one does is in `AsyncMultiConsumerQueue.Unsubmitted`.
-/

namespace Corsl

open Conc Function

namespace AsyncMultiConsumerQueue

variable {T : Type}

/-- What is seen of a step. -/
def seen (s : St T) : Ev T → List (Mailbox.Call Exception T)
  | .push v | .emplace v => [.put v]
  | .cancel => [.fail .operationCancelled]
  | .pushException e => e.toList.map .fail
  | .clear => [.clear]
  | .next => [.ask s.count]
  | .awaitSuspend c => s.q.exception.toList.map fun e => .got c (.error e)
  | .awaitResume c => (s.awaits c).value.answer.toList.map (.got c)
  | .setException _ | .resume _ | .awaitReady _ | .callback _ => []

/-- Where await `c` is with its mailbox. -/
def St.sees (s : St T) (c : Nat) : Option (Mailbox.Ask Exception T) :=
  match (s.awaits c).pc with
  | .unborn => some .silent
  | .called | .unready | .waiting => some .asked
  | .leaving b => (s.broadcasts b).exception.map fun e => .answered (.error e)
  | .submitted | .ready => (s.awaits c).value.answer.map .answered
  | .done => some .gone

/-- The queue and the mailbox are at the same point. -/
structure Sees (s : St T) (a : Mailbox.St Exception T) : Prop where
  values : a.values = s.q.queue.map Prod.snd
  failed : a.failed = s.q.exception
  asks : ∀ c, s.sees c = some (a.asks c)
  stored : ∀ b c rest, (s.broadcasts b).todo = c :: rest → (s.broadcasts b).stored = true →
    (s.awaits c).value = .exception (s.broadcasts b).exception

section Steps

variable {s s' : St T} {a a' : Mailbox.St Exception T} {l : List (Mailbox.Call Exception T)}
  {c : Nat}

theorem Sees.init : Sees ({} : St T) {} := by
  constructor <;> simp [St.sees]

theorem Sees.asked (h : Sees s a) (hc : (s.awaits c).pc = .called ∨ (s.awaits c).pc = .unready ∨
    (s.awaits c).pc = .waiting) : a.asks c = .asked := by
  have := h.asks c
  unfold St.sees at this
  obtain hc | hc | hc := hc <;> rw [hc] at this <;> exact (Option.some.inj this).symm

/-- A step of await `c`, outside of broadcasts. -/
theorem Sees.one (h : Sees s a) (hp : Places s) (hb : s'.broadcasts = s.broadcasts)
    (ho : ∀ d, d ≠ c → s'.awaits d = s.awaits d) (hl : ∀ b, (s.awaits c).pc ≠ .leaving b)
    (hv : a'.values = s'.q.queue.map Prod.snd) (hf : a'.failed = s'.q.exception)
    (ha : ∀ d, d ≠ c → a'.asks d = a.asks d) (hc : s'.sees c = some (a'.asks c)) : Sees s' a' := by
  refine ⟨hv, hf, fun d => ?_, fun b d rest hd hs => ?_⟩
  · by_cases hdc : d = c
    · rw [hdc, hc]
    · rw [ha d hdc, ← h.asks d]
      simp only [St.sees, ho d hdc, hb]
  · rw [hb] at hd hs ⊢
    have hdc : d ≠ c := fun he => by
      subst he
      exact hl b ((hp.leaving b d).mp (by simp [hd]))
    rw [ho d hdc]
    exact h.stored b d rest hd hs

/-- `push` and `emplace`. -/
theorem Sees.enqueue (h : Sees s a) (hi : Inv s) (v : T) :
    ∃ a', (Mailbox.history Exception T).Leads (a, l) (a', l ++ [.put v]) ∧
      Sees (s.enqueue v (s.q.enqueue (s.ledger.next, v))) a' := by
  unfold St.enqueue
  cases he : s.q.exception with
  | some e =>
    rw [enqueue_failed (by simp [he])]
    refine ⟨_, Mailbox.leads_put v, ?_⟩
    have hf : a.failed = some e := h.failed.trans he
    refine ⟨?_, h.failed, h.asks, h.stored⟩
    simpa [Mailbox.stored, hf, St.wake] using h.values
  | none =>
    have hf : a.failed = none := h.failed.trans he
    cases hc : s.q.clients with
    | nil =>
      rw [enqueue_store he hc]
      refine ⟨_, Mailbox.leads_put v, ?_, h.failed, h.asks, h.stored⟩
      simp [Mailbox.stored, hf, h.values, St.wake]
    | cons c rest =>
      rw [enqueue_hand he hc]
      have hq : s.q.queue = [] := (hi.stored.waiters (by simp [hc])).1
      have hpc : (s.awaits c).pc = .waiting := (hi.places.waiting c).mp (by simp [hc])
      have hv : Mailbox.stored a.failed a.values v = v :: [] := by
        simp [Mailbox.stored, hf, h.values, hq]
      refine ⟨_, (Mailbox.leads_put v).trans
        (Mailbox.leads_value (s := { a with values := Mailbox.stored a.failed a.values v })
          (c := c) (h.asked (.inr (.inr hpc))) hf hv), ?_⟩
      refine h.one (c := c) hi.places rfl (fun d hd => ?_) (by simp [hpc]) ?_ h.failed
        (fun d hd => update_of_ne hd _ _) ?_
      · simp [St.wake, St.settle, St.submit, hd]
      · simp [St.wake, St.settle, St.submit, hq]
      · simp [St.sees, St.wake, St.settle, St.submit, Slot.answer, awaitResume]

/-- `push_exception` and `cancel` take the waiters, who are told of the exception. -/
theorem Sees.broadcast (h : Sees s a) (hi : Inv s) (e : Exception) :
    ∃ a', (Mailbox.history Exception T).Leads (a, l) (a', l ++ [.fail e]) ∧
      Sees (s.broadcast (some e) (s.q.pushException (some e))) a' := by
  have hasked : ∀ c ∈ s.q.clients, a.asks c = .asked := fun c hc =>
    h.asked (.inr (.inr ((hi.places.waiting c).mp hc)))
  refine ⟨_, (Mailbox.leads_fail e).trans (Mailbox.leads_errors (s := { a with failed := some e })
    hi.places.clients hasked rfl), h.values, rfl, fun c => ?_, fun b c rest hb hs => ?_⟩
  · by_cases hc : c ∈ s.q.clients
    · simp [St.sees, St.broadcast, pushException, hc]
    · have hne : ∀ b, (s.awaits c).pc = .leaving b → b ≠ s.calls := by
        rintro b hb rfl
        have := (hi.places.leaving s.calls c).mpr hb
        rw [hi.places.calls _ (Nat.le_refl _)] at this
        cases this
      refine Eq.trans ?_ ((h.asks c).trans (by simp only [if_neg hc]))
      simp only [St.sees, St.broadcast, pushException, hc, if_false]
      cases hpc : (s.awaits c).pc with
      | leaving b => simp only [update_of_ne (hne b hpc)]
      | _ => rfl
  · by_cases hbc : b = s.calls
    · simp [St.broadcast, hbc] at hs
    · simp only [St.broadcast, update_of_ne hbc] at hb hs ⊢
      have hc : c ∉ s.q.clients := fun hc => by
        have := (hi.places.waiting c).mp hc
        rw [(hi.places.leaving b c).mp (by simp [hb])] at this
        cases this
      simpa [pushException, hc] using h.stored b c rest hb hs

/-- A broadcast stores the exception in the first of its awaitables, -/
theorem Sees.setException (h : Sees s a) (hi : Inv s) {b : Nat} {rest : List Nat}
    (hb : (s.broadcasts b).todo = c :: rest) :
    Sees { s.settle c (.exception (s.broadcasts b).exception) (s.awaits c).pc with
      broadcasts := update s.broadcasts b { s.broadcasts b with stored := true } } a := by
  have hpc : (s.awaits c).pc = .leaving b := (hi.places.leaving b c).mp (by simp [hb])
  have hex : ∀ k, (update s.broadcasts b { s.broadcasts b with stored := true } k).exception =
      (s.broadcasts k).exception := update_proj Broadcast.exception rfl
  refine ⟨h.values, h.failed, fun d => ?_, fun k d rest' hd hs => ?_⟩
  · rw [← h.asks d]
    by_cases hdc : d = c
    · simp [St.sees, St.settle, hdc, hpc]
    · simp only [St.sees, St.settle, update_of_ne hdc, hex]
  · by_cases hk : k = b
    · subst hk
      simp only [update_self, hb, List.cons.injEq] at hd
      simp [St.settle, hd.1.symm]
    · simp only [update_of_ne hk] at hd hs ⊢
      have hdc : d ≠ c := fun he => by
        have := (hi.places.leaving k d).mp (by simp [hd])
        rw [he, hpc] at this
        exact hk (Pc.leaving.inj this).symm
      simpa [St.settle, hdc] using h.stored k d rest' hd hs

/-- and submits it. -/
theorem Sees.resume (h : Sees s a) (hi : Inv s) {b : Nat} {rest : List Nat}
    (hb : (s.broadcasts b).todo = c :: rest) (hst : (s.broadcasts b).stored = true) :
    Sees { s.submit c with
      broadcasts := update s.broadcasts b { s.broadcasts b with todo := rest, stored := false } }
      a := by
  have hpc : (s.awaits c).pc = .leaving b := (hi.places.leaving b c).mp (by simp [hb])
  have hex : ∀ k, (update s.broadcasts b
      { s.broadcasts b with todo := rest, stored := false } k).exception =
      (s.broadcasts k).exception := update_proj Broadcast.exception rfl
  refine ⟨h.values, h.failed, fun d => ?_, fun k d rest' hd hs => ?_⟩
  · rw [← h.asks d]
    by_cases hdc : d = c
    · subst hdc
      obtain ⟨e, he⟩ := Option.isSome_iff_exists.mp (hi.settled.exceptions b (by simp [hb]))
      simp [St.sees, St.submit, hpc, h.stored b d rest hb hst, he, Slot.answer, awaitResume]
    · simp only [St.sees, St.submit, update_of_ne hdc, hex]
  · by_cases hk : k = b
    · subst hk
      simp at hs
    · simp only [update_of_ne hk] at hd hs ⊢
      have hdc : d ≠ c := fun he => by
        have := (hi.places.leaving k d).mp (by simp [hd])
        rw [he, hpc] at this
        exact hk (Pc.leaving.inj this).symm
      simpa [St.submit, hdc] using h.stored k d rest' hd hs

/-- `await_ready` finds the exception. -/
theorem Sees.fails (h : Sees s a) (hp : Places s) (hpc : (s.awaits c).pc = .called)
    (e : Exception) : Sees (s.settle c (.exception (some e)) .ready)
      { a with asks := update a.asks c (.answered (.error e)) } := by
  refine h.one (c := c) hp rfl (fun d hd => update_of_ne hd _ _) (by simp [hpc]) h.values h.failed
    (fun d hd => update_of_ne hd _ _) ?_
  simp [St.sees, St.settle, Slot.answer, Corsl.awaitResume]

/-- `await_ready` or `await_suspend` finds a value. -/
theorem Sees.pops (h : Sees s a) (hp : Places s)
    (hpc : (s.awaits c).pc = .called ∨ (s.awaits c).pc = .unready) (v : Item T)
    (rest : List (Item T)) :
    Sees { s.settle c (.value v) .ready with q := { s.q with queue := rest } }
      { a with values := rest.map Prod.snd, asks := update a.asks c (.answered (.ok v.2)) } := by
  have hl : ∀ b, (s.awaits c).pc ≠ .leaving b := by
    obtain hpc | hpc := hpc <;> simp [hpc]
  refine h.one (c := c) hp rfl (fun d hd => update_of_ne hd _ _) hl rfl h.failed
    (fun d hd => update_of_ne hd _ _) ?_
  simp [St.sees, St.settle, Slot.answer, Corsl.awaitResume]

/-- `await_ready` -/
theorem Sees.awaitReady (h : Sees s a) (hp : Places s) (hst : step s (.awaitReady c) = some s') :
    ∃ a', (Mailbox.history Exception T).Leads (a, l) (a', l) ∧ Sees s' a' := by
  simp only [step] at hst
  split at hst
  · rename_i hpc
    have hask := h.asked (.inl hpc)
    cases he : s.q.exception with
    | some e =>
      rw [isReady_failed he] at hst
      cases hst
      exact ⟨_, Mailbox.leads_error hask (h.failed.trans he), h.fails hp hpc e⟩
    | none =>
      cases hq : s.q.queue with
      | cons v rest =>
        rw [isReady_value he hq] at hst
        cases hst
        have hv : a.values = v.2 :: rest.map Prod.snd := by
          rw [h.values, hq]
          rfl
        exact ⟨_, Mailbox.leads_value hask (h.failed.trans he) hv, h.pops hp (.inl hpc) v rest⟩
      | nil =>
        rw [isReady_empty he hq] at hst
        cases hst
        refine ⟨a, .refl, h.one (c := c) hp rfl (fun d hd => update_of_ne hd _ _) (by simp [hpc])
          h.values h.failed (fun _ _ => rfl) ?_⟩
        simp [St.sees, hask]
  · cases hst

/-- and `await_suspend`. -/
theorem Sees.awaitSuspend (h : Sees s a) (hp : Places s)
    (hst : step s (.awaitSuspend c) = some s') :
    ∃ a', (Mailbox.history Exception T).Leads (a, l) (a', l ++ seen s (.awaitSuspend c)) ∧
      Sees s' a' := by
  simp only [step] at hst
  split at hst
  · rename_i hpc
    have hask := h.asked (.inr (.inl hpc))
    cases he : s.q.exception with
    | some e =>
      rw [setAwaitable_failed he] at hst
      cases hst
      have hseen : seen s (.awaitSuspend c) = [.got c (.error e)] := by simp [seen, he]
      rw [hseen]
      refine ⟨_, (Mailbox.leads_error hask (h.failed.trans he)).trans
        (Mailbox.leads_take (update_self ..)), ?_⟩
      refine h.one (c := c) hp rfl (fun d hd => update_of_ne hd _ _) (by simp [hpc]) h.values
        h.failed (fun d hd => (update_of_ne hd _ _).trans (update_of_ne hd _ _)) ?_
      simp [St.sees]
    | none =>
      have hseen : l ++ seen s (.awaitSuspend c) = l := by simp [seen, he]
      rw [hseen]
      cases hq : s.q.queue with
      | cons v rest =>
        rw [setAwaitable_value he hq] at hst
        cases hst
        have hv : a.values = v.2 :: rest.map Prod.snd := by
          rw [h.values, hq]
          rfl
        exact ⟨_, Mailbox.leads_value hask (h.failed.trans he) hv, h.pops hp (.inr hpc) v rest⟩
      | nil =>
        rw [setAwaitable_park he hq] at hst
        cases hst
        refine ⟨a, .refl, h.one (c := c) hp rfl (fun d hd => update_of_ne hd _ _) (by simp [hpc])
          h.values h.failed (fun _ _ => rfl) ?_⟩
        simp [St.sees, hask]
  · cases hst

/-- `await_resume`. -/
theorem Sees.awaitResume (h : Sees s a) (hi : Inv s) (hi' : Inv s')
    (hst : step s (.awaitResume c) = some s') :
    ∃ a', (Mailbox.history Exception T).Leads (a, l) (a', l ++ seen s (.awaitResume c)) ∧
      Sees s' a' := by
  simp only [step] at hst
  split at hst
  · rename_i hpc
    obtain ⟨o, ho⟩ : ∃ o, (s.awaits c).value.answer = some o := by
      have := h.asks c
      simp only [St.sees, hpc] at this
      obtain ⟨o, ho, -⟩ := Option.map_eq_some_iff.mp this
      exact ⟨o, ho⟩
    have hask : a.asks c = .answered o := by
      have := h.asks c
      simp only [St.sees, hpc, ho] at this
      exact (Option.some.inj this).symm
    have hseen : seen s (.awaitResume c) = [.got c o] := by simp [seen, ho]
    rw [hseen]
    split at hst
    · rename_i hn
      cases hst
      cases hi'.settled.defined
    · cases hst
      refine ⟨_, Mailbox.leads_take hask, ?_⟩
      refine h.one (c := c) hi.places rfl (fun d hd => update_of_ne hd _ _) (by simp [hpc]) h.values
        h.failed (fun d hd => update_of_ne hd _ _) ?_
      simp [St.sees]
  · cases hst

/-- Each step of the queue, as the mailbox takes it. -/
theorem Sees.step {e : Ev T} (h : Sees s a) (hi : Inv s) (hok : NonNull s e)
    (hst : step s e = some s') :
    ∃ a', (Mailbox.history Exception T).Leads (a, l) (a', l ++ seen s e) ∧ Sees s' a' := by
  have hi' := inductive_inv.step s e s' hi hok hst
  cases e with
  | push v =>
    cases hst
    exact h.enqueue hi v
  | emplace v =>
    cases hst
    exact h.enqueue hi v
  | cancel =>
    cases hst
    exact h.broadcast hi .operationCancelled
  | pushException e =>
    cases e with
    | none => exact absurd rfl hok
    | some e =>
      cases hst
      exact h.broadcast hi e
  | setException b =>
    simp only [AsyncMultiConsumerQueue.step] at hst
    split at hst
    · cases hst
    · rename_i c rest hb
      split at hst <;> cases hst
      exact ⟨a, by simpa [seen] using Sys.Later.refl, h.setException hi hb⟩
  | resume b =>
    simp only [AsyncMultiConsumerQueue.step] at hst
    split at hst
    · cases hst
    · rename_i c rest hb
      split at hst <;> cases hst
      rename_i hs
      exact ⟨a, by simpa [seen] using Sys.Later.refl, h.resume hi hb hs⟩
  | clear =>
    simp only [AsyncMultiConsumerQueue.step, AsyncMultiConsumerQueue.clear] at hst
    split at hst <;> cases hst
    exact ⟨_, Mailbox.leads_clear, rfl, rfl, h.asks, h.stored⟩
  | next =>
    cases hst
    have hpc := hi.places.unborn s.count (Nat.le_refl _)
    have hask : a.asks s.count = .silent := by
      have := h.asks s.count
      simp only [St.sees, hpc] at this
      exact (Option.some.inj this).symm
    refine ⟨_, Mailbox.leads_ask hask, ?_⟩
    refine h.one (c := s.count) hi.places rfl (fun d hd => update_of_ne hd _ _) (by simp [hpc])
      h.values h.failed (fun d hd => update_of_ne hd _ _) ?_
    simp [St.sees]
  | awaitReady c =>
    obtain ⟨a', hl, ha⟩ := h.awaitReady hi.places hst (l := l)
    exact ⟨a', by simpa [seen] using hl, ha⟩
  | awaitSuspend c => exact h.awaitSuspend hi.places hst
  | callback c =>
    simp only [AsyncMultiConsumerQueue.step] at hst
    split at hst
    · split at hst <;> cases hst
      · rename_i hpc
        refine ⟨a, by simpa [seen] using Sys.Later.refl, ?_⟩
        refine h.one (c := c) hi.places rfl (fun d hd => update_of_ne hd _ _) (by simp_all)
          h.values h.failed (fun _ _ => rfl) ?_
        rw [← h.asks c]
        simp_all [St.sees]
      · cases hi'.settled.defined
    · cases hst
  | awaitResume c => exact h.awaitResume hi hi' hst

/-- The steps of the coroutine of await `c`. -/
def own (c : Nat) (_ : St T) (e : Ev T) : Prop :=
  e = .awaitReady c ∨ e = .awaitSuspend c ∨ e = .awaitResume c

/-- An await that has its outcome returns. -/
theorem returns (hpc : (s.awaits c).pc = .ready) (hv : (s.awaits c).value ≠ .monostate) :
    ∃ s', (sys T).Later (own c) s s' ∧ (s'.awaits c).pc = .done := by
  obtain ⟨o, ho⟩ := Option.ne_none_iff_exists'.mp (mt awaitResume_eq_none.mp hv)
  have hst : AsyncMultiConsumerQueue.step s (.awaitResume c) =
      some { s with awaits := update s.awaits c { s.awaits c with pc := .done } } := by
    simp [AsyncMultiConsumerQueue.step, hpc, ho]
  exact ⟨_, .head (S := sys T) _ (.inr (.inr rfl)) hst .refl, by simp⟩

/-- Who asks a queue that has a value or an exception gets it by itself. -/
theorem Stored.gets (h : Stored s) (hp : Places s)
    (hpc : (s.awaits c).pc = .called ∨ (s.awaits c).pc = .unready ∨ (s.awaits c).pc = .waiting)
    (hq : s.q.exception ≠ none ∨ s.q.queue ≠ []) :
    ∃ s', (sys T).Later (own c) s s' ∧ (s'.awaits c).pc = .done := by
  have one : ∀ (e : Ev T) (t : St T), own c s e → AsyncMultiConsumerQueue.step s e = some t →
      (t.awaits c).pc = .ready → (t.awaits c).value ≠ .monostate →
      ∃ s', (sys T).Later (own c) s s' ∧ (s'.awaits c).pc = .done := by
    intro e t ho hst hr hv
    obtain ⟨s', hl, hd⟩ := returns hr hv
    exact ⟨s', .head (S := sys T) e ho hst hl, hd⟩
  obtain hpc | hpc | hpc := hpc
  · cases he : s.q.exception with
    | some e =>
      refine one (.awaitReady c) (s.settle c (.exception (some e)) .ready) (.inl rfl) ?_ ?_ ?_
      · simp only [AsyncMultiConsumerQueue.step, hpc, isReady_failed he]
        rfl
      · simp [St.settle]
      · simp [St.settle]
    | none =>
      obtain ⟨v, rest, hv⟩ := List.exists_cons_of_ne_nil (hq.resolve_left (by simp [he]))
      refine one (.awaitReady c)
        { s.settle c (.value v) .ready with q := { s.q with queue := rest } } (.inl rfl) ?_ ?_ ?_
      · simp [AsyncMultiConsumerQueue.step, hpc, isReady_value he hv]
      · simp [St.settle]
      · simp [St.settle]
  · cases he : s.q.exception with
    | some e =>
      have hst : AsyncMultiConsumerQueue.step s (.awaitSuspend c) = some { s with
          outcomes := s.outcomes ++ [(c, .exception (some e))]
          awaits := update s.awaits c { s.awaits c with pc := .done } } := by
        simp [AsyncMultiConsumerQueue.step, hpc, setAwaitable_failed he]
      exact ⟨_, .head (S := sys T) _ (.inr (.inl rfl)) hst .refl, by simp⟩
    | none =>
      obtain ⟨v, rest, hv⟩ := List.exists_cons_of_ne_nil (hq.resolve_left (by simp [he]))
      refine one (.awaitSuspend c)
        { s.settle c (.value v) .ready with q := { s.q with queue := rest } } (.inr (.inl rfl))
        ?_ ?_ ?_
      · simp [AsyncMultiConsumerQueue.step, hpc, setAwaitable_value he hv]
      · simp [St.settle]
      · simp [St.settle]
  · have hw := h.waiters fun hn => by
      have := (hp.waiting c).mpr hpc
      rw [hn] at this
      cases this
    exact absurd hw.1 (hq.resolve_left (by simp [hw.2]))

end Steps

/-- The queue as a mailbox: what was seen of it is `l`. -/
structure Mails (s : St T) (l : List (Mailbox.Call Exception T)) : Prop where
  history : ∃ a, (Mailbox.history Exception T).Reach (a, l) ∧ Sees s a
  /-- Who asks waits only for a value or an exception. -/
  gets : ∀ c, ((s.awaits c).pc = .called ∨ (s.awaits c).pc = .unready ∨
      (s.awaits c).pc = .waiting) → s.q.exception ≠ none ∨ s.q.queue ≠ [] →
    ∃ s', (sys T).Later (own c) s s' ∧ (s'.awaits c).pc = .done

theorem simulates : Sys.Simulates ((sys T).logged seen) (fun s e => NonNull s.1 e)
    (Mailbox.history Exception T) (fun s a => (Inv s.1 ∧ Sees s.1 a.1) ∧ a.2 = s.2) where
  init := ⟨⟨inductive_inv.init, .init⟩, rfl⟩
  step := by
    rintro ⟨s, l⟩ e s' ⟨a, l'⟩ ⟨⟨hi, h⟩, rfl⟩ hok hst
    obtain ⟨hst, hl⟩ := Sys.logged_step.mp hst
    obtain ⟨a', hla, ha⟩ := h.step hi hok hst (l := l')
    exact ⟨(a', l' ++ seen s e), hla, ⟨inductive_inv.step s e s'.1 hi hok hst, ha⟩, hl.symm⟩

/-- What is seen of the queue, any number of consumers see of a mailbox. -/
theorem multi_queue_mails {s : St T} {l : List (Mailbox.Call Exception T)}
    (hs : ((sys T).logged seen).ReachBy (fun s e => NonNull s.1 e) (s, l)) : Mails s l := by
  obtain ⟨⟨a, l'⟩, ha, ⟨hi, h⟩, rfl⟩ := simulates.reach hs
  exact ⟨⟨a, ha, h⟩, fun c hpc hq => hi.stored.gets hi.places hpc hq⟩

theorem multi_queue_mails_demo :
    Mails (((sys Nat).logged seen).after demo).1 (((sys Nat).logged seen).after demo).2 ∧
      (((sys Nat).logged seen).after demo).2 =
        [.ask 0, .ask 1, .put 17, .fail .operationCancelled, .put 23,
          .got 1 (.error .operationCancelled), .clear, .put 42] := by
  have hs : ((sys Nat).logged seen).ReachBy (fun s e => NonNull s.1 e)
      (((sys Nat).logged seen).after demo) := Sys.reachBy_after rfl (by simp [demo, NonNull])
  exact ⟨multi_queue_mails hs, rfl⟩

end AsyncMultiConsumerQueue

end Corsl
