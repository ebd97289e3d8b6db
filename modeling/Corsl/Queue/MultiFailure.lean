import Corsl.Queue.Failure

/-!
# The queue with many consumers stays failed until `clear`

As `Queue.Failure`, for `async_multi_consumer_queue`, and the result about both queues
(`failed_until_clear`). A broadcast wakes its waiters outside of the lock, so an await that it has
taken has the outcome before the broadcast stores it (`Coming`): no other step gives it one.
-/

namespace Corsl

open Conc Function Sys

variable {T : Type}

namespace AsyncMultiConsumerQueue

/-- The exception that a section sets. -/
def Ev.sets : Ev T → ExceptionPtr
  | .cancel => some .operationCancelled
  | .pushException e => e
  | _ => none

/-- The exception most recently set by the steps `es`. -/
def lastSet (es : List (Ev T)) : ExceptionPtr := es.foldl (fun e ev => ev.sets.or e) none

/-- The step is no `clear`, and sets no null exception. -/
def Ev.keeps (e : Ev T) : Prop := e ≠ .clear ∧ e ≠ .pushException none

/-- A step of a broadcast, of the pool or of a consumer that has its outcome. -/
def Ev.serves : Ev T → Prop
  | .setException _ | .resume _ | .callback _ | .awaitResume _ => True
  | _ => False

/-- The await that ends in a step, and what it returns, or throws. -/
def ends (s : St T) : Ev T → List (Nat × Except ExceptionPtr (Item T))
  | .awaitSuspend c =>
    if (s.awaits c).pc = .unready then
      match (s.q.setAwaitable c).1 with
      | .throws e => [(c, .error (some e))]
      | _ => []
    else []
  | .awaitResume c =>
    if (s.awaits c).pc = .ready then
      (Corsl.awaitResume (s.awaits c).value).toList.map (Prod.mk c)
    else []
  | _ => []

/-- The system, and how its awaits end. -/
def history (T : Type) : Sys (St T × List (Nat × Except ExceptionPtr (Item T))) (Ev T) :=
  (sys T).logged ends

/-- Await `c` ends with `r`, whatever runs. -/
def EndsWith (s : St T × List (Nat × Except ExceptionPtr (Item T))) (c : Nat)
    (r : Except ExceptionPtr (Item T)) : Prop :=
  (history T).Ends (fun s => NonNull s.1) (fun _ => Ev.serves) s c r

/-- What holds at `s'` in a window that began with the section `ev` in `s`. `e` is the exception
most recently set. -/
structure Failed (s : St T × List (Nat × Except ExceptionPtr (Item T))) (ev : Ev T)
    (s' : St T × List (Nat × Except ExceptionPtr (Item T))) (e : ExceptionPtr) : Prop where
  exception : s'.1.q.exception = e
  queue : s'.1.q.queue = s.1.q.queue
  bound_eq : s'.1.bound = s.1.bound
  awaitReady : ∀ c t, (history T).step s' (.awaitReady c) = some t → EndsWith t c (.error e)
  awaitSuspend : ∀ c t, (history T).step s' (.awaitSuspend c) = some t → EndsWith t c (.error e)
  parked : ∀ c ∈ s.1.q.clients, EndsWith s' c (.error ev.sets)
  bound : ∀ x ∈ s.1.bound, EndsWith s' x.1 (.ok x.2)

/-! ## One await -/

/-- The outcome `value` is stored for the await `c`, or will be stored by the broadcast that has
taken it. -/
def Coming (s : St T) (c : Nat) (value : Slot (Item T)) : Prop :=
  match (s.awaits c).pc with
  | .leaving b => value = .exception (s.broadcasts b).exception ∧
    ((s.broadcasts b).stored = true → (s.broadcasts b).todo.head? = some c →
      (s.awaits c).value = value)
  | .submitted | .ready => (s.awaits c).value = value
  | _ => False

/-- The await `c` has the outcome `value`, or has ended with it. -/
def Due (s : St T × List (Nat × Except ExceptionPtr (Item T))) (c : Nat)
    (value : Slot (Item T)) : Prop :=
  (Coming s.1 c value ∧ results s.2 c = []) ∨
  ((s.1.awaits c).pc = .done ∧ ∃ r, Corsl.awaitResume value = some r ∧ results s.2 c = [r])

/-- The awaits that have ended are done. -/
def Over (s : St T × List (Nat × Except ExceptionPtr (Item T))) : Prop :=
  ∀ x ∈ s.2, (s.1.awaits x.1).pc = .done

section Steps

variable {s s' : St T} {l : List (Nat × Except ExceptionPtr (Item T))} {c : Nat}
  {value : Slot (Item T)}

theorem Over.fresh (h : Over (s, l)) (hpc : (s.awaits c).pc ≠ .done) : results l c = [] := by
  rw [results_eq_nil]
  intro x hx hc
  exact hpc (hc ▸ h x hx)

/-- The await that ends in a step. -/
theorem fst_of_ends {e : Ev T} {x : Nat × Except ExceptionPtr (Item T)} (hx : x ∈ ends s e) :
    ((s.awaits x.1).pc = .unready ∧ e = .awaitSuspend x.1) ∨
    ((s.awaits x.1).pc = .ready ∧ e = .awaitResume x.1) := by
  cases e with
  | awaitSuspend c =>
    simp only [ends] at hx
    split at hx
    · rename_i hpc
      split at hx
      · rw [List.mem_singleton.mp hx]
        exact .inl ⟨hpc, rfl⟩
      · cases hx
    · cases hx
  | awaitResume c =>
    simp only [ends] at hx
    split at hx
    · rename_i hpc
      obtain ⟨r, -, rfl⟩ := List.mem_map.mp hx
      exact .inr ⟨hpc, rfl⟩
    · cases hx
  | _ => cases hx

theorem coming_leaving {b : Nat} (hpc : (s.awaits c).pc = .leaving b) :
    Coming s c value ↔ value = .exception (s.broadcasts b).exception ∧
      ((s.broadcasts b).stored = true → (s.broadcasts b).todo.head? = some c →
        (s.awaits c).value = value) := by
  unfold Coming
  rw [hpc]

theorem coming_sent (hpc : (s.awaits c).pc = .submitted ∨ (s.awaits c).pc = .ready) :
    Coming s c value ↔ (s.awaits c).value = value := by
  unfold Coming
  obtain hpc | hpc := hpc <;> rw [hpc]

theorem Coming.listed (h : Coming s c value) : (∃ b, (s.awaits c).pc = .leaving b) ∨
    (s.awaits c).pc = .submitted ∨ (s.awaits c).pc = .ready := by
  unfold Coming at h
  cases hpc : (s.awaits c).pc <;> simp [hpc] at h ⊢

/-- A step that is not one of the await, nor of the broadcast that has taken it. -/
theorem Coming.keep (h : Coming s c value) (ha : s'.awaits c = s.awaits c)
    (hb : ∀ b, (s.awaits c).pc = .leaving b → s'.broadcasts b = s.broadcasts b) :
    Coming s' c value := by
  obtain ⟨b, hpc⟩ | hpc := h.listed
  · rw [coming_leaving hpc] at h
    rw [coming_leaving (by rw [ha, hpc]), ha, hb b hpc]
    exact h
  · rw [coming_sent hpc] at h
    rw [coming_sent (by rw [ha]; exact hpc), ha]
    exact h

/-- A push does not touch an await that does not wait. -/
theorem enqueue_awaits (hp : Places s) (hpc : (s.awaits c).pc ≠ .waiting) (v : T) :
    (s.enqueue v (s.q.enqueue (s.ledger.next, v))).awaits c = s.awaits c ∧
      (s.enqueue v (s.q.enqueue (s.ledger.next, v))).broadcasts = s.broadcasts := by
  unfold St.enqueue
  rcases Option.eq_none_or_eq_some s.q.exception with he | ⟨e, he⟩
  · rcases hc : s.q.clients with _ | ⟨d, rest⟩
    · rw [enqueue_store he hc]
      exact ⟨rfl, rfl⟩
    · have hd : (s.awaits d).pc = .waiting := (hp.waiting d).mp (by simp [hc])
      have hcd : c ≠ d := by
        rintro rfl
        exact hpc hd
      rw [enqueue_hand he hc]
      simp [St.wake, St.settle, St.submit, hcd]
  · rw [enqueue_failed (by simp [he])]
    exact ⟨rfl, rfl⟩

theorem Coming.broadcast (h : Coming s c value) (hp : Places s) (e : ExceptionPtr) :
    Coming (s.broadcast e (s.q.pushException e)) c value := by
  have hl := h.listed
  have hnot : c ∉ s.q.clients := by
    rw [hp.waiting]
    rcases hl with ⟨b, hl⟩ | hl | hl <;> simp [hl]
  refine h.keep (by simp [St.broadcast, pushException, hnot]) fun b hb => ?_
  refine update_of_ne ?_ ..
  rintro rfl
  have hm := (hp.leaving _ c).mpr hb
  rw [hp.calls _ (Nat.le_refl _)] at hm
  cases hm

/-- A step of broadcast `b` on another awaitable. -/
theorem Coming.behind (h : Coming s c value) {b : Nat} (ha : s'.awaits c = s.awaits c)
    (ho : ∀ b', b' ≠ b → s'.broadcasts b' = s.broadcasts b')
    (he : (s'.broadcasts b).exception = (s.broadcasts b).exception)
    (hs : (s'.broadcasts b).stored = true → (s'.broadcasts b).todo.head? ≠ some c) :
    Coming s' c value := by
  by_cases hpc : (s.awaits c).pc = .leaving b
  · rw [coming_leaving hpc] at h
    rw [coming_leaving (by rw [ha, hpc]), he]
    exact ⟨h.1, fun hst hhd => absurd hhd (hs hst)⟩
  · refine h.keep ha fun b' hb' => ho b' ?_
    rintro rfl
    exact hpc hb'

/-- The broadcast stores the exception in the first of its awaitables. -/
theorem Coming.setException (h : Coming s c value) (hp : Places s) {b : Nat}
    (hst : step s (.setException b) = some s') : Coming s' c value := by
  simp only [step] at hst
  split at hst
  · cases hst
  · rename_i d rest hb
    split at hst
    · cases hst
    · cases hst
      by_cases hcd : c = d
      · subst hcd
        have hpc : (s.awaits c).pc = .leaving b := (hp.leaving b c).mp (by simp [hb])
        rw [coming_leaving hpc] at h
        rw [coming_leaving (b := b) (by simp [St.settle, hpc])]
        simp [St.settle, h.1]
      · refine h.behind (b := b) (by simp [St.settle, hcd]) (fun b' hb' => by simp [hb'])
          (by simp) fun _ => ?_
        simpa [hb] using Ne.symm hcd

/-- It submits the first of its awaitables. -/
theorem Coming.resume (h : Coming s c value) (hp : Places s) {b : Nat}
    (hst : step s (.resume b) = some s') : Coming s' c value := by
  simp only [step] at hst
  split at hst
  · cases hst
  · rename_i d rest hb
    split at hst
    · rename_i hstored
      cases hst
      by_cases hcd : c = d
      · subst hcd
        have hpc : (s.awaits c).pc = .leaving b := (hp.leaving b c).mp (by simp [hb])
        rw [coming_leaving hpc] at h
        rw [coming_sent (.inl (by simp [St.submit]))]
        simpa [St.submit] using h.2 hstored (by simp [hb])
      · exact h.behind (b := b) (by simp [St.submit, hcd]) (fun b' hb' => by simp [hb'])
          (by simp) (by simp)
    · cases hst

/-- Every step keeps a coming outcome, but the `await_resume` that gives it. -/
theorem Coming.step (h : Coming s c value) (hp : Places s) {e : Ev T}
    (he : e ≠ .awaitResume c) (hst : AsyncMultiConsumerQueue.step s e = some s') :
    Coming s' c value := by
  have hl := h.listed
  have hnot : (s.awaits c).pc ≠ .unborn ∧ (s.awaits c).pc ≠ .called ∧
      (s.awaits c).pc ≠ .unready ∧ (s.awaits c).pc ≠ .waiting := by
    obtain ⟨b, hl⟩ | hl | hl := hl <;> simp [hl]
  obtain ⟨hunborn, hcalled, hunready, hwaiting⟩ := hnot
  cases e with
  | push v =>
    cases hst
    obtain ⟨h1, h2⟩ := enqueue_awaits hp hwaiting v
    exact h.keep h1 fun b _ => by rw [AsyncMultiConsumerQueue.push, h2]
  | emplace v =>
    cases hst
    obtain ⟨h1, h2⟩ := enqueue_awaits hp hwaiting v
    exact h.keep h1 fun b _ => by rw [AsyncMultiConsumerQueue.emplace, h2]
  | cancel =>
    cases hst
    exact h.broadcast hp _
  | pushException e =>
    cases hst
    exact h.broadcast hp e
  | setException b => exact h.setException hp hst
  | resume b => exact h.resume hp hst
  | clear =>
    obtain ⟨x, -, rfl⟩ := Option.map_eq_some_iff.mp hst
    exact h.keep rfl fun _ _ => rfl
  | next =>
    cases hst
    have hc : c ≠ s.count := by
      rintro rfl
      exact hunborn (hp.unborn _ (Nat.le_refl _))
    exact h.keep (by simp [hc]) fun _ _ => rfl
  | awaitReady d =>
    simp only [AsyncMultiConsumerQueue.step] at hst
    split at hst
    · rename_i hd
      have hcd : c ≠ d := by
        rintro rfl
        exact hcalled hd
      split at hst <;> cases hst <;>
        exact h.keep (by simp [St.settle, hcd]) fun _ _ => rfl
    · cases hst
  | awaitSuspend d =>
    simp only [AsyncMultiConsumerQueue.step] at hst
    split at hst
    · rename_i hd
      have hcd : c ≠ d := by
        rintro rfl
        exact hunready hd
      split at hst <;> cases hst <;>
        exact h.keep (by simp [St.settle, hcd]) fun _ _ => rfl
    · cases hst
  | callback d =>
    simp only [AsyncMultiConsumerQueue.step] at hst
    split at hst
    · split at hst
      · rename_i hd
        cases hst
        by_cases hcd : c = d
        · subst hcd
          rw [coming_sent (.inl hd)] at h
          rw [coming_sent (.inr (by simp))]
          simpa using h
        · exact h.keep (by simp [hcd]) fun _ _ => rfl
      · cases hst
        exact h.keep rfl fun _ _ => rfl
    · cases hst
  | awaitResume d =>
    have hcd : c ≠ d := by
      rintro rfl
      exact he rfl
    simp only [AsyncMultiConsumerQueue.step] at hst
    split at hst
    · split at hst
      · cases hst
        exact h.keep rfl fun _ _ => rfl
      · cases hst
        exact h.keep (by simp [hcd]) fun _ _ => rfl
    · cases hst

/-- An await that is done stays so. -/
theorem done_move (hp : Places s) (hm : Move s s') (hpc : (s.awaits c).pc = .done) :
    (s'.awaits c).pc = .done := by
  -- the await `d` of the step is at another place
  have hne : ∀ {d : Nat}, (s.awaits d).pc ≠ .done → c ≠ d := by
    rintro d hd rfl
    exact hd hpc
  cases hm with
  | hand v d rest _ hc =>
    have hd := hne (d := d) (by rw [(hp.waiting d).mp (by simp [hc])]; simp)
    simpa [St.settle, St.submit, hd] using hpc
  | broadcast e =>
    have hnot : c ∉ s.q.clients := by rw [hp.waiting, hpc]; simp
    simpa [St.broadcast, pushException, hnot] using hpc
  | setException b d rest hb _ =>
    have hd := hne (d := d) (by rw [(hp.leaving b d).mp (by simp [hb])]; simp)
    simpa [St.settle, hd] using hpc
  | resume b d rest hb _ =>
    have hd := hne (d := d) (by rw [(hp.leaving b d).mp (by simp [hb])]; simp)
    simpa [St.submit, hd] using hpc
  | next =>
    have hd := hne (d := s.count) (by rw [hp.unborn _ (Nat.le_refl _)]; simp)
    simpa [hd] using hpc
  | failed d e hd _ => simpa [St.settle, hne (d := d) (by simp [hd])] using hpc
  | pop d v rest hd _ _ =>
    have hd := hne (d := d) (by rcases hd with hd | hd <;> simp [hd])
    simpa [St.settle, hd] using hpc
  | unready d hd => simpa [hne (d := d) (by simp [hd])] using hpc
  | throws d e hd _ => simpa [hne (d := d) (by simp [hd])] using hpc
  | park d hd _ _ => simpa [hne (d := d) (by simp [hd])] using hpc
  | callback d hd _ => simpa [hne (d := d) (by simp [hd])] using hpc
  | awaitResume d hd => simpa [hne (d := d) (by simp [hd])] using hpc
  | _ => exact hpc

/-- `await_resume` gives the outcome. -/
theorem awaitResume_ends {r : Except ExceptionPtr (Item T)} (hpc : (s.awaits c).pc = .ready)
    (hr : Corsl.awaitResume (s.awaits c).value = some r) :
    ∃ s', AsyncMultiConsumerQueue.step s (.awaitResume c) = some s' ∧ (s'.awaits c).pc = .done ∧
      ends s (.awaitResume c) = [(c, r)] := by
  refine ⟨{ s with awaits := update s.awaits c { s.awaits c with pc := .done } }, ?_, ?_, ?_⟩
  · simp [AsyncMultiConsumerQueue.step, hpc, hr]
  · simp
  · simp [ends, hpc, hr]

theorem Over.step (h : Inv s) (ho : Over (s, l)) {e : Ev T} (hok : NonNull s e)
    (hst : AsyncMultiConsumerQueue.step s e = some s') : Over (s', l ++ ends s e) := by
  intro x hx
  obtain hx | hx := List.mem_append.mp hx
  · exact done_move h.places (step_move hok hst) (ho x hx)
  · obtain ⟨hpc, rfl⟩ | ⟨hpc, rfl⟩ := fst_of_ends hx
    · -- `set_awaitable` threw
      simp only [AsyncMultiConsumerQueue.step, hpc, if_true] at hst
      simp only [ends, hpc, if_true] at hx
      split at hst <;> rename_i hset <;> simp only [hset] at hx
      · cases hst
        simp
      · cases hx
      · cases hx
    · obtain ⟨r, hr, -⟩ : ∃ r, Corsl.awaitResume (s.awaits x.1).value = some r ∧ True := by
        simp only [ends, hpc, if_true] at hx
        obtain ⟨r, hr, -⟩ := List.mem_map.mp hx
        exact ⟨r, by simpa using hr, trivial⟩
      obtain ⟨s'', hst', hdone, -⟩ := awaitResume_ends hpc hr
      rw [hst] at hst'
      cases hst'
      exact hdone

/-- What has its outcome keeps it, and ends with it. -/
theorem Due.step (h : Inv s) (hd : Due (s, l) c value) (hset : value.isSet = true) {e : Ev T}
    (hok : NonNull s e) (hst : AsyncMultiConsumerQueue.step s e = some s') :
    Due (s', l ++ ends s e) c value := by
  obtain ⟨hc, hres⟩ | ⟨hpc, r, hr, hres⟩ := hd
  · by_cases he : e = .awaitResume c
    · subst he
      have hpc : (s.awaits c).pc = .ready := by
        simp only [AsyncMultiConsumerQueue.step] at hst
        split at hst
        · assumption
        · cases hst
      have hv : (s.awaits c).value = value := (coming_sent (.inr hpc)).mp hc
      obtain ⟨r, hr⟩ : ∃ r, Corsl.awaitResume value = some r := by
        rw [← Option.ne_none_iff_exists', Ne, awaitResume_eq_none]
        rintro rfl
        cases hset
      obtain ⟨s'', hst', hdone, hends⟩ := awaitResume_ends hpc (hv ▸ hr)
      rw [hst] at hst'
      cases hst'
      refine .inr ⟨hdone, r, hr, ?_⟩
      rw [results_append, show results l c = [] from hres, hends]
      exact results_self _ _
    · refine .inl ⟨hc.step h.places he hst, ?_⟩
      rw [results_append, show results l c = [] from hres, List.nil_append, results_eq_nil]
      rintro x hx rfl
      obtain ⟨hun, -⟩ | ⟨-, rfl⟩ := fst_of_ends hx
      · obtain ⟨b, hl⟩ | hl | hl := hc.listed <;> simp [hun] at hl
      · exact he rfl
  · refine .inr ⟨done_move h.places (step_move hok hst) hpc, r, hr, ?_⟩
    have hnil : results (ends s e) c = [] := by
      rw [results_eq_nil]
      rintro x hx rfl
      simp only at hpc
      obtain ⟨hx, -⟩ | ⟨hx, -⟩ := fst_of_ends hx <;> simp [hpc] at hx
    rw [results_append, hnil, List.append_nil]
    exact hres

/-- The values that have been bound are due. -/
def Values (s : St T × List (Nat × Except ExceptionPtr (Item T))) : Prop :=
  ∀ c v, (c, .value v) ∈ s.1.outcomes → Due s c (.value v)

/-- A step binds a value to an await by its resumption, or as the result of a section. -/
theorem outcomes_move (hm : Move s s') {v : Item T} (hx : (c, .value v) ∈ s'.outcomes) :
    (c, .value v) ∈ s.outcomes ∨ ((s'.awaits c).value = .value v ∧
      ((s'.awaits c).pc = .submitted ∨ (s'.awaits c).pc = .ready)) := by
  cases hm with
  | hand w d rest _ _ =>
    obtain hx | hx := List.mem_append.mp hx
    · exact .inl hx
    · cases List.mem_singleton.mp hx
      exact .inr (by simp [St.settle, St.submit])
  | setException b d rest _ _ =>
    obtain hx | hx := List.mem_append.mp hx
    · exact .inl hx
    · cases List.mem_singleton.mp hx
  | failed d e _ _ =>
    obtain hx | hx := List.mem_append.mp hx
    · exact .inl hx
    · cases List.mem_singleton.mp hx
  | pop d w rest _ _ _ =>
    obtain hx | hx := List.mem_append.mp hx
    · exact .inl hx
    · cases List.mem_singleton.mp hx
      exact .inr (by simp [St.settle])
  | throws d e _ _ =>
    obtain hx | hx := List.mem_append.mp hx
    · exact .inl hx
    · cases List.mem_singleton.mp hx
  | _ => exact .inl hx

theorem Values.step (h : Inv s) (ho : Over (s, l)) (hv : Values (s, l)) {e : Ev T}
    (hok : NonNull s e) (hst : AsyncMultiConsumerQueue.step s e = some s') :
    Values (s', l ++ ends s e) := by
  intro c v hx
  obtain hx | ⟨hval, hpc⟩ := outcomes_move (step_move hok hst) hx
  · exact (hv c v hx).step h rfl hok hst
  · refine .inl ⟨(coming_sent hpc).mpr hval, (ho.step h hok hst).fresh ?_⟩
    rcases hpc with hpc | hpc <;> simp [hpc]

/-- The invariant of the histories. -/
structure Known (s : St T × List (Nat × Except ExceptionPtr (Item T))) : Prop where
  inv : Inv s.1
  outcomes : Over s
  values : Values s

theorem inductive_known : (history T).Inductive (fun s => NonNull s.1) Known := by
  refine ⟨⟨inductive_inv.init, by simp [Over, history, logged], ?_⟩, ?_⟩
  · simp [Values, history, logged, sys]
  · rintro ⟨s, l⟩ e ⟨s', l'⟩ ⟨hi, ho, hv⟩ hok hst
    obtain ⟨h1, h2⟩ := logged_step.mp hst
    simp only at h1 h2
    rw [h2]
    exact ⟨inductive_inv.step s e s' hi hok h1, ho.step hi hok h1, hv.step hi ho hok h1⟩

/-- The steps that are left for an await that has its outcome. -/
def left (s : St T) (c : Nat) : Nat :=
  match (s.awaits c).pc with
  | .leaving b => 2 * (s.broadcasts b).todo.idxOf c + (if (s.broadcasts b).stored then 3 else 4)
  | .submitted => 2
  | .ready => 1
  | _ => 0

theorem left_leaving {b : Nat} (hpc : (s.awaits c).pc = .leaving b) :
    left s c = 2 * (s.broadcasts b).todo.idxOf c +
      (if (s.broadcasts b).stored then 3 else 4) := by
  unfold left
  rw [hpc]

/-- The broadcast that has taken an await can go on. -/
theorem serve_leaving (hp : Places s) {b : Nat} (hpc : (s.awaits c).pc = .leaving b) :
    ∃ e s', Ev.serves e ∧ AsyncMultiConsumerQueue.step s e = some s' ∧ left s' c < left s c := by
  have hmem := (hp.leaving b c).mpr hpc
  rcases hb : (s.broadcasts b).todo with _ | ⟨d, rest⟩
  · rw [hb] at hmem
    cases hmem
  · cases hst : (s.broadcasts b).stored with
    | false =>
      refine ⟨.setException b, _, trivial, by simp [AsyncMultiConsumerQueue.step, hb, hst]; rfl, ?_⟩
      rw [left_leaving hpc, left_leaving (b := b)]
      · simp [hst, hb]
      · by_cases hcd : c = d
        · subst hcd
          simpa [St.settle] using hpc
        · simpa [St.settle, hcd] using hpc
    | true =>
      refine ⟨.resume b, _, trivial, by simp [AsyncMultiConsumerQueue.step, hb, hst]; rfl, ?_⟩
      rw [left_leaving hpc, hst]
      by_cases hcd : c = d
      · -- it is submitted
        subst hcd
        simp [left, St.submit]
      · rw [left_leaving (b := b) (by simpa [St.submit, hcd] using hpc), hb,
          List.idxOf_cons_ne _ (Ne.symm hcd)]
        simp
        omega

/-- An await that has its outcome ends with it. -/
theorem Due.ends {s : St T × List (Nat × Except ExceptionPtr (Item T))}
    (hd : Due s c value) (hs : (history T).ReachBy (fun s => NonNull s.1) s)
    {r : Except ExceptionPtr (Item T)} (hr : Corsl.awaitResume value = some r) :
    EndsWith s c r := by
  have hset : value.isSet = true := by
    cases value with
    | monostate => cases hr
    | _ => rfl
  refine Ends.of_measure (I := Known) (P := fun s => Due s c value) (μ := fun s => left s.1 c)
    (fun s hs => inductive_known.reach hs) ?_ ?_ ?_ hs hd
  · intro s e hv
    cases e <;> simp_all [Ev.serves, NonNull]
  · rintro ⟨s, l⟩ e ⟨s', l'⟩ ⟨hi, -, -⟩ hd hok hst
    obtain ⟨h1, h2⟩ := logged_step.mp hst
    simp only at h1 h2
    rw [h2]
    exact hd.step hi hset hok h1
  · rintro ⟨s, l⟩ ⟨hi, -, -⟩ hd
    obtain ⟨hc, hres⟩ | ⟨-, r', hr', hres⟩ := hd
    · refine .inr ⟨hres, ?_⟩
      simp only at hc
      obtain ⟨b, hpc⟩ | hpc := hc.listed
      · obtain ⟨e, s', hv, hst, hlt⟩ := serve_leaving hi.places hpc
        exact ⟨e, _, hv, logged_of_step hst l, hlt⟩
      · have hval := (coming_sent hpc).mp hc
        obtain hpc | hpc := hpc
        · have hst : AsyncMultiConsumerQueue.step s (.callback c) = some { s with
              pool := s.pool.erase c
              awaits := update s.awaits c { s.awaits c with pc := .ready } } := by
            simp [AsyncMultiConsumerQueue.step, (hi.places.pooled c).mpr hpc, hpc]
          exact ⟨.callback c, _, trivial, logged_of_step hst l, by simp [left, hpc]⟩
        · obtain ⟨s', hst, hdone, -⟩ := awaitResume_ends hpc (hval ▸ hr)
          exact ⟨.awaitResume c, _, trivial, logged_of_step hst l, by simp [left, hpc, hdone]⟩
    · rw [hr] at hr'
      cases hr'
      exact .inl hres

/-! ## The window -/

theorem bound_exception {e : ExceptionPtr} (h : s'.outcomes = s.outcomes ++ [(c, .exception e)]) :
    s'.bound = s.bound := by
  rw [bound_settle h]
  simp

/-- A step in a window, or its first section. -/
theorem step_failed {e : Ev T} (hk : e.keeps)
    (hst : AsyncMultiConsumerQueue.step s e = some s')
    (he : (e.sets.or s.q.exception).isSome = true) :
    s'.q.exception = e.sets.or s.q.exception ∧ s'.q.queue = s.q.queue ∧ s'.bound = s.bound := by
  cases e with
  | cancel =>
    cases hst
    exact ⟨rfl, rfl, rfl⟩
  | pushException e =>
    cases e with
    | none => exact absurd rfl hk.2
    | some e =>
      cases hst
      exact ⟨rfl, rfl, rfl⟩
  | clear => exact absurd rfl hk.1
  | push v =>
    obtain ⟨e, he⟩ := Option.isSome_iff_exists.mp he
    have he : s.q.exception = some e := he
    cases hst
    rw [push, enqueue_failed (by simp [he])]
    exact ⟨rfl, rfl, rfl⟩
  | emplace v =>
    obtain ⟨e, he⟩ := Option.isSome_iff_exists.mp he
    have he : s.q.exception = some e := he
    cases hst
    rw [emplace, enqueue_failed (by simp [he])]
    exact ⟨rfl, rfl, rfl⟩
  | setException b =>
    simp only [AsyncMultiConsumerQueue.step] at hst
    split at hst
    · cases hst
    · split at hst
      · cases hst
      · cases hst
        exact ⟨rfl, rfl, bound_exception rfl⟩
  | resume b =>
    simp only [AsyncMultiConsumerQueue.step] at hst
    split at hst
    · cases hst
    · split at hst
      · cases hst
        exact ⟨rfl, rfl, rfl⟩
      · cases hst
  | next =>
    cases hst
    exact ⟨rfl, rfl, rfl⟩
  | awaitReady c =>
    obtain ⟨e, he⟩ := Option.isSome_iff_exists.mp he
    simp only [AsyncMultiConsumerQueue.step, isReady_failed he] at hst
    split at hst <;> cases hst
    exact ⟨rfl, rfl, bound_exception rfl⟩
  | awaitSuspend c =>
    obtain ⟨e, he⟩ := Option.isSome_iff_exists.mp he
    simp only [AsyncMultiConsumerQueue.step, setAwaitable_failed he] at hst
    split at hst <;> cases hst
    exact ⟨rfl, rfl, bound_exception rfl⟩
  | callback c =>
    simp only [AsyncMultiConsumerQueue.step] at hst
    split at hst
    · split at hst <;> cases hst <;> exact ⟨rfl, rfl, rfl⟩
    · cases hst
  | awaitResume c =>
    simp only [AsyncMultiConsumerQueue.step] at hst
    split at hst
    · split at hst <;> cases hst <;> exact ⟨rfl, rfl, rfl⟩
    · cases hst

/-- The sections of an await in a window give it the exception. -/
theorem due_awaitReady (ho : Over (s, l)) {e : Exception} (he : s.q.exception = some e)
    (hst : AsyncMultiConsumerQueue.step s (.awaitReady c) = some s') :
    Due (s', l ++ AsyncMultiConsumerQueue.ends s (.awaitReady c)) c (.exception (some e)) := by
  simp only [AsyncMultiConsumerQueue.step, isReady_failed he] at hst
  split at hst
  · rename_i hpc
    cases hst
    refine .inl ⟨(coming_sent (.inr (by simp [St.settle]))).mpr (by simp [St.settle]), ?_⟩
    simpa [AsyncMultiConsumerQueue.ends] using ho.fresh (by simp [hpc])
  · cases hst

theorem due_awaitSuspend (ho : Over (s, l)) {e : Exception} (he : s.q.exception = some e)
    (hst : AsyncMultiConsumerQueue.step s (.awaitSuspend c) = some s') :
    Due (s', l ++ AsyncMultiConsumerQueue.ends s (.awaitSuspend c)) c (.exception (some e)) := by
  simp only [AsyncMultiConsumerQueue.step, setAwaitable_failed he] at hst
  split at hst
  · rename_i hpc
    cases hst
    refine .inr ⟨by simp, _, rfl, ?_⟩
    rw [results_append, ho.fresh (by simp [hpc])]
    simp only [AsyncMultiConsumerQueue.ends, hpc, if_true, setAwaitable_failed he]
    exact results_self _ _
  · cases hst

/-- The section of `push_exception` takes the await that waits. -/
theorem due_parked (hp : Places s) (ho : Over (s, l)) (hc : c ∈ s.q.clients) (e : ExceptionPtr) :
    Due (s.broadcast e (s.q.pushException e), l) c (.exception e) := by
  have hpc : ((s.broadcast e (s.q.pushException e)).awaits c).pc = .leaving s.calls := by
    simp [St.broadcast, pushException, hc]
  refine .inl ⟨(coming_leaving hpc).mpr (by simp [St.broadcast]), ho.fresh ?_⟩
  rw [(hp.waiting c).mp hc]
  simp

end Steps

/-- What the steps of a window keep. -/
theorem window {s s' : St T × List (Nat × Except ExceptionPtr (Item T))} {ev : Ev T}
    {es : List (Ev T)} (hi : Inv s.1) (hev : ev.sets.isSome = true)
    (hk : ∀ e ∈ ev :: es, e.keeps) (he : (history T).exec s (ev :: es) = some s') :
    (lastSet (ev :: es)).isSome = true ∧ s'.1.q.exception = lastSet (ev :: es) ∧
      s'.1.q.queue = s.1.q.queue ∧ s'.1.bound = s.1.bound := by
  let J (a : ExceptionPtr) (t : St T × List (Nat × Except ExceptionPtr (Item T))) : Prop :=
    Inv t.1 ∧ a.isSome = true ∧ t.1.q.exception = a ∧ t.1.q.queue = s.1.q.queue ∧
      t.1.bound = s.1.bound
  obtain ⟨s₁, hst, he₁⟩ := Option.bind_eq_some_iff.mp he
  have hk₁ := hk ev (by simp)
  have hst₁ := (logged_step.mp hst).1
  have hJ : J ev.sets s₁ := by
    obtain ⟨h1, h2, h3⟩ := step_failed hk₁ hst₁ (by simp [hev])
    obtain ⟨x, hx⟩ := Option.isSome_iff_exists.mp hev
    refine ⟨inductive_inv.step _ _ _ hi hk₁.2 hst₁, hev, ?_, h2, h3⟩
    rw [h1, hx]
    rfl
  have hstep : ∀ a t (e : Ev T) t', J a t → e.keeps → (history T).step t e = some t' →
      J (e.sets.or a) t' := by
    rintro a t e t' ⟨hi, ha, hexc, hq, ht⟩ hke hst
    have hst' := (logged_step.mp hst).1
    have hsome : (e.sets.or a).isSome = true := by simp [ha]
    obtain ⟨h1, h2, h3⟩ := step_failed hke hst' (by rw [hexc]; exact hsome)
    exact ⟨inductive_inv.step _ _ _ hi hke.2 hst', hsome, by rw [h1, hexc], h2.trans hq,
      h3.trans ht⟩
  have hrun : J (es.foldl (fun a ev => ev.sets.or a) ev.sets) s' :=
    exec_foldl hstep hJ (fun e he => hk e (by simp [he])) he₁
  have hlast : lastSet (ev :: es) = es.foldl (fun a ev => ev.sets.or a) ev.sets := by
    simp [lastSet]
  rw [hlast]
  exact hrun.2

/-- **In every window.** -/
theorem failed {s s' : St T × List (Nat × Except ExceptionPtr (Item T))} {ev : Ev T}
    {es : List (Ev T)} (hs : (history T).ReachBy (fun s => NonNull s.1) s)
    (hev : ev.sets.isSome = true) (hk : ∀ e ∈ ev :: es, e.keeps)
    (he : (history T).exec s (ev :: es) = some s') : Failed s ev s' (lastSet (ev :: es)) := by
  obtain ⟨hi, ho, hvals⟩ := inductive_known.reach hs
  obtain ⟨hlast, hexc, hqueue, hbound⟩ := window hi hev hk he
  have hlater : (history T).Later (fun s => NonNull s.1) s s' :=
    exec_later he fun _ e he => (hk e he).2
  have hs' := hs.later hlater
  have ho' := (inductive_known.reach hs').outcomes
  obtain ⟨x, hx⟩ := Option.isSome_iff_exists.mp hlast
  rw [hx] at hexc ⊢
  refine ⟨hexc, hqueue, hbound, fun c t ht => ?_, fun c t ht => ?_, fun c hc => ?_, fun y hy => ?_⟩
  · obtain ⟨h1, h2⟩ := logged_step.mp ht
    have hdue : Due t c (.exception (some x)) := by
      have := due_awaitReady ho' hexc h1
      rw [← h2] at this
      exact this
    exact hdue.ends (hs'.step _ (by simp [NonNull]) ht) rfl
  · obtain ⟨h1, h2⟩ := logged_step.mp ht
    have hdue : Due t c (.exception (some x)) := by
      have := due_awaitSuspend ho' hexc h1
      rw [← h2] at this
      exact this
    exact hdue.ends (hs'.step _ (by simp [NonNull]) ht) rfl
  · -- the first section is that of an exception
    obtain ⟨s₁, hst, he₁⟩ := Option.bind_eq_some_iff.mp he
    have hlater₁ : (history T).Later (fun s => NonNull s.1) s₁ s' :=
      exec_later he₁ fun _ e he => (hk e (by simp [he])).2
    have hs₁ := hs.step ev (hk ev (by simp)).2 hst
    obtain ⟨h1, h2⟩ := logged_step.mp hst
    have hdue : Due s₁ c (.exception ev.sets) := by
      obtain ⟨s₁, l₁⟩ := s₁
      cases ev with
      | cancel =>
        cases h1
        rw [show l₁ = _ from h2, show AsyncMultiConsumerQueue.ends s.1 .cancel = [] from rfl,
          List.append_nil]
        exact due_parked hi.places ho hc _
      | pushException e =>
        cases h1
        rw [show l₁ = _ from h2,
          show AsyncMultiConsumerQueue.ends s.1 (.pushException e) = [] from rfl, List.append_nil]
        exact due_parked hi.places ho hc e
      | _ => cases hev
    exact (hdue.ends hs₁ rfl).later hlater₁
  · obtain ⟨z, hz, hzy⟩ := List.mem_flatMap.mp hy
    obtain ⟨v, hv, rfl⟩ := List.mem_map.mp hzy
    have hdue : Due s z.1 (.value v) := by
      refine hvals z.1 v ?_
      obtain ⟨c, value⟩ := z
      cases value <;> simp at hv
      rw [hv]
      exact hz
    exact (hdue.ends hs rfl).later hlater

/-- A consumer that has a value, and one that waits. -/
def before : List (Ev Nat) :=
  [.push 17, .next, .awaitReady 0, .next, .awaitReady 1, .awaitSuspend 1]

/-- The one that waits gets the first exception, and one that comes later the second. -/
def during : List (Ev Nat) :=
  [.push 23, .setException 0, .cancel, .resume 0, .next, .awaitReady 2, .emplace 42, .callback 1]

end AsyncMultiConsumerQueue

/-! ## Result -/

/-- **A queue stays failed until `clear`**, in every run of either queue in which no null exception
is set. -/
theorem failed_until_clear (T : Type) :
    (∀ s s' (ev : AsyncQueue.Ev T) (es : List (AsyncQueue.Ev T)),
      (AsyncQueue.history T).ReachBy (fun s => AsyncQueue.NonNull s.1) s →
      ev.sets.isSome = true → (∀ e ∈ ev :: es, e.keeps) →
      (AsyncQueue.history T).exec s (ev :: es) = some s' →
      AsyncQueue.Failed s ev s' (AsyncQueue.lastSet (ev :: es))) ∧
    (∀ s s' (ev : AsyncMultiConsumerQueue.Ev T) (es : List (AsyncMultiConsumerQueue.Ev T)),
      (AsyncMultiConsumerQueue.history T).ReachBy (fun s => AsyncMultiConsumerQueue.NonNull s.1) s →
      ev.sets.isSome = true → (∀ e ∈ ev :: es, e.keeps) →
      (AsyncMultiConsumerQueue.history T).exec s (ev :: es) = some s' →
      AsyncMultiConsumerQueue.Failed s ev s' (AsyncMultiConsumerQueue.lastSet (ev :: es))) :=
  ⟨fun _ _ _ _ hs hev hk he => AsyncQueue.failed hs hev hk he,
    fun _ _ _ _ hs hev hk he => AsyncMultiConsumerQueue.failed hs hev hk he⟩

theorem failed_until_clear_demo :
    AsyncQueue.Failed ((AsyncQueue.history Nat).after AsyncQueue.before)
      (.pushException (some (.other 7)))
      ((AsyncQueue.history Nat).after
        (AsyncQueue.before ++ .pushException (some (.other 7)) :: AsyncQueue.during))
      (some .operationCancelled) ∧
    AsyncMultiConsumerQueue.Failed
      ((AsyncMultiConsumerQueue.history Nat).after AsyncMultiConsumerQueue.before)
      (.pushException (some (.other 7)))
      ((AsyncMultiConsumerQueue.history Nat).after (AsyncMultiConsumerQueue.before ++
        .pushException (some (.other 7)) :: AsyncMultiConsumerQueue.during))
      (some .operationCancelled) :=
  ⟨(failed_until_clear Nat).1 _ _ (.pushException (some (.other 7))) AsyncQueue.during
      (Sys.reachBy_after rfl (by simp [AsyncQueue.before, AsyncQueue.NonNull])) rfl
      (by simp [AsyncQueue.during, AsyncQueue.Ev.keeps]) rfl,
    (failed_until_clear Nat).2 _ _ (.pushException (some (.other 7)))
      AsyncMultiConsumerQueue.during (Sys.reachBy_after rfl
        (by simp [AsyncMultiConsumerQueue.before, AsyncMultiConsumerQueue.NonNull])) rfl
      (by simp [AsyncMultiConsumerQueue.during, AsyncMultiConsumerQueue.Ev.keeps]) rfl⟩

example : ((AsyncMultiConsumerQueue.history Nat).after (AsyncMultiConsumerQueue.before ++
    .pushException (some (.other 7)) :: AsyncMultiConsumerQueue.during ++
    [.clear, .awaitResume 2, .awaitResume 0, .awaitResume 1])).2 =
      [(2, .error (some .operationCancelled)), (0, .ok (0, 17)),
        (1, .error (some (.other 7)))] := by
  rfl

end Corsl
