import Corsl.Queue.MultiUnsubmitted
import Corsl.Shared.Lemmas

/-!
# A continuation of a shared future that is not submitted

`start()` moves the continuations into a local vector, outside of the lock, and submits them one by
one. `resume_on_background` throws when `TrySubmitThreadpoolCallback` fails; nobody catches the
exception in `start()`, the promise of a `fire_and_forget` drops it, and the vector is destroyed.

* `sys`: the steps of a shared future, and the one in which a submission of the loop fails
  (`Ev.startFails`).
* `Remembered`: each continuation is still in one of the two lists, or was submitted.
* `Forgotten`: the coroutine is over, and a continuation was not submitted. No step changes that:
  nobody starts the coroutine again, and nobody else suspends.

`broadcast_remembers` is about this loop and the one of `async_multi_consumer_queue`.
-/

namespace Corsl

open Conc Function

namespace Shared

namespace Unsubmitted

variable {T : Type} {kind : Future.Kind}

/-- The atomic steps (module doc). -/
inductive Ev (T : Type) where
  | base (e : Shared.Ev T)
  | startFails

/-- One atomic step. -/
def step (kind : Future.Kind) (s : St T) : Ev T → Option (St T)
  | .base e => Shared.step kind s e
  | .startFails =>
    match s.start with
    | .publishing (_ :: _) => some { s with start := .done }
    | _ => none

/-- A shared future, with submissions that fail. -/
def sys (kind : Future.Kind) (T : Type) : Sys (St T) (Ev T) := ⟨{}, step kind⟩

/-- The history of the failures. -/
def note (_ : St T) : Ev T → List Unit
  | .startFails => [()]
  | .base _ => []

/-- A shared future, with the history of the failures. -/
def history (kind : Future.Kind) (T : Type) : Sys (St T × List Unit) (Ev T) :=
  (sys kind T).logged note

/-- Each continuation is on a list, or was submitted; none was twice. -/
structure Remembered (s : St T) : Prop where
  held : ∀ w ∈ s.appended, w ∈ s.start.rest ∨ w ∈ s.impl.continuations ∨ w ∈ s.submitted
  once : s.submitted.Nodup

/-- `start()` is over, and a continuation was not submitted. -/
structure Forgotten (s : St T) : Prop where
  start : s.start = .done
  mode : s.impl.mode = .ready
  continuations : s.impl.continuations = []
  unready : ∀ w, (s.waiters w).pc ≠ .unready
  waiter : ∃ w ∈ s.appended, w ∉ s.submitted
  once : s.submitted.Nodup

section Steps

variable {s s' : St T}

theorem Inv.remembered (h : Inv kind s) : Remembered s := by
  have hn := h.listed.nodup
  rw [h.listed.appended] at hn
  refine ⟨fun w hw => ?_, (List.nodup_append.mp hn).1⟩
  rw [h.listed.appended] at hw
  simp only [List.mem_append] at hw
  tauto

/-- A failure forgets a continuation. -/
theorem Inv.forgotten {w : Nat} {rest : List Nat} (h : Inv kind s)
    (hs : s.start = .publishing (w :: rest)) : Forgotten { s with start := .done } := by
  have hmode : s.start.mode = .ready := by
    rw [hs]
    rfl
  have hready : s.impl.mode = .ready := h.started.mode.trans hmode
  have ha := h.listed.appended
  have hn := h.listed.nodup
  rw [ha] at hn
  simp only [hs, StartPc.rest] at ha hn
  refine ⟨rfl, hready, h.listed.closed hmode, fun v hv => h.started.unready v hv hready,
    ⟨w, ?_, fun hw => ?_⟩, (List.nodup_append.mp hn).1⟩
  · show w ∈ s.appended
    rw [ha]
    simp
  · exact (List.nodup_append.mp hn).2.2 w hw w (by simp) rfl

/-- A step that leaves the lists and the coroutine alone, in which nobody suspends. -/
theorem Forgotten.keep (h : Forgotten s) (hs : s'.start = s.start) (hi : s'.impl = s.impl)
    (hw : ∀ w, (s'.waiters w).pc = .unready → (s.waiters w).pc = .unready)
    (ha : s'.appended = s.appended) (hsub : s'.submitted = s.submitted) : Forgotten s' :=
  ⟨hs.trans h.start, hi ▸ h.mode, hi ▸ h.continuations, fun w hp => h.unready w (hw w hp),
    by rw [ha, hsub]; exact h.waiter, hsub ▸ h.once⟩

theorem Forgotten.get (h : Forgotten s) (hg : s.get = some s') : Forgotten s' := by
  unfold St.get at hg
  split at hg
  · cases hg
  · split at hg
    · split at hg <;> cases hg <;> exact h.keep rfl rfl (fun _ hw => hw) rfl rfl
    · cases hg
      exact h.keep rfl rfl (fun _ hw => hw) rfl rfl

theorem Forgotten.setPc (h : Forgotten s) {w : Nat} {pc : WaiterPc} (hpc : pc ≠ .unready) :
    Forgotten (s.setPc w pc) := by
  refine h.keep rfl rfl (fun v hv => ?_) rfl rfl
  simp only [St.setPc, update_apply] at hv
  split at hv
  · exact absurd hv hpc
  · exact hv

theorem Forgotten.setThread (h : Forgotten s) {w : Nat} {thread : ThreadPc} :
    Forgotten (s.setThread w thread) := by
  refine h.keep rfl rfl (fun v hv => ?_) rfl rfl
  have : ((s.setThread w thread).waiters v).pc = (s.waiters v).pc :=
    update_proj Waiter.pc (by rfl) v
  exact this ▸ hv

theorem Forgotten.setOwn (h : Forgotten s) {w : Nat} {own : Future.St Unit} :
    Forgotten (s.setOwn w own) := by
  refine h.keep rfl rfl (fun v hv => ?_) rfl rfl
  have : ((s.setOwn w own).waiters v).pc = (s.waiters v).pc := update_proj Waiter.pc (by rfl) v
  exact this ▸ hv

theorem Forgotten.waiter_step (h : Forgotten s) {w : Nat} (hst : waiterStep s w = some s') :
    Forgotten s' := by
  unfold waiterStep at hst
  split at hst
  · split at hst
    · cases hst
    · simp only [SharedFutureImpl.awaitReady, h.mode, if_true] at hst
      cases hst
      exact h.setPc (by simp)
  · rename_i hw
    exact absurd hw (h.unready w)
  · cases hst
    exact h.setPc (by simp)
  · obtain ⟨t, ht, rfl⟩ := Option.map_eq_some_iff.mp hst
    exact (h.get ht).setPc (by simp)
  · cases hst

theorem Forgotten.own_step (h : Forgotten s) {w : Nat} {e : Future.Ev Unit}
    (hst : ownStep s w e = some s') : Forgotten s' := by
  unfold ownStep at hst
  split at hst
  · have hnext : (Future.step .coroutine (s.waiters w).own e).map (s.setOwn w) = some s' := by
      dsimp only at hst
      split at hst
      all_goals first | exact hst | cases hst | skip
      all_goals
        split at hst
        · exact hst
        · cases hst
    obtain ⟨t, -, rfl⟩ := Option.map_eq_some_iff.mp hnext
    exact h.setOwn
  · cases hst

/-- No step makes up for it. -/
theorem Forgotten.step {e : Ev T} (h : Forgotten s) (hst : step kind s e = some s') :
    Forgotten s' := by
  cases e with
  | startFails =>
    simp only [Unsubmitted.step, h.start] at hst
    cases hst
  | base e =>
    change Shared.step kind s e = some s' at hst
    cases e with
    | inner e =>
      simp only [Shared.step] at hst
      split at hst
      · obtain ⟨t, -, rfl⟩ := Option.map_eq_some_iff.mp hst
        exact h.keep rfl rfl (fun _ hw => hw) rfl rfl
      · cases hst
    | coAwait w =>
      simp only [Shared.step] at hst
      split at hst <;> cases hst
      exact h.setPc (by simp)
    | wait w isGet =>
      simp only [Shared.step] at hst
      split at hst
      · split at hst <;> cases hst <;> exact (h.setPc (by simp)).setThread
      · cases hst
    | waiter w => exact h.waiter_step hst
    | own w e => exact h.own_step hst
    | leave w =>
      simp only [Shared.step] at hst
      split at hst
      · split at hst <;> cases hst
        exact h.setThread
      · cases hst
    | read w =>
      simp only [Shared.step] at hst
      split at hst
      · obtain ⟨t, ht, rfl⟩ := Option.map_eq_some_iff.mp hst
        exact (h.get ht).setThread
      · cases hst
    | start =>
      simp only [Shared.step, startStep, h.start] at hst
      cases hst

/-- The run is as one without failures, or a continuation is forgotten. -/
theorem reach_inv {s : St T × List Unit} (hs : (history kind T).Reach s) :
    (s.2 = [] ∧ Inv kind s.1) ∨ (s.2 ≠ [] ∧ Forgotten s.1) := by
  refine hs.logged_induction (I := fun _ => True)
    (J := fun s => (s.2 = [] ∧ Inv kind s.1) ∨ (s.2 ≠ [] ∧ Forgotten s.1))
    (fun _ _ => trivial) (.inl ⟨rfl, .init⟩) ?_
  intro s e s' l _ hj _ hst
  rcases hj with ⟨hl, hi⟩ | ⟨hl, hf⟩
  · cases e with
    | base e => exact .inl ⟨by simpa [note] using hl, hi.move (step_move hst)⟩
    | startFails =>
      simp only [sys, step] at hst
      split at hst <;> cases hst
      rename_i w rest hs
      exact .inr ⟨by simp [note], Inv.forgotten hi hs⟩
  · exact .inr ⟨by simp only at hl; simp [hl], hf.step hst⟩

/-- The loop forgets a continuation if and only if a submission failed. -/
theorem remembered_iff {s : St T × List Unit} (hs : (history kind T).Reach s) :
    Remembered s.1 ↔ s.2 = [] := by
  rcases reach_inv hs with ⟨hl, hi⟩ | ⟨hl, hf⟩
  · exact iff_of_true (Inv.remembered hi) hl
  · refine iff_of_false (fun h => ?_) hl
    obtain ⟨w, hw, hn⟩ := hf.waiter
    rcases h.held w hw with hr | hc | hs
    · rw [hf.start] at hr
      cases hr
    · rw [hf.continuations] at hc
      cases hc
    · exact hn hs

/-- The rest of the loop submits everyone whom it has moved out. -/
theorem loop_submits (h : Inv kind s) : ∃ s',
    (sys kind T).Later (fun _ e => e = .base .start) s s' ∧ s.submitted <+: s'.submitted ∧
    ∀ w ∈ s.start.rest, w ∈ s'.submitted := by
  generalize hl : s.start.rest = rest
  induction rest generalizing s with
  | nil => exact ⟨s, .refl, List.prefix_rfl, by simp⟩
  | cons w rest ih =>
    have hs : s.start = .publishing (w :: rest) := by
      cases hst : s.start <;> rw [hst] at hl <;> simp only [StartPc.rest, reduceCtorEq] at hl
      rw [hl]
    have hw : (s.waiters w).pc = .parked := (h.listed.parked w).mpr (by simp [hl])
    have hst : Shared.step kind s .start = some { s.setPc w .queued with
        submitted := s.submitted ++ [w], start := .publishing rest } := by
      simp only [Shared.step, startStep, hs, St.submit, hw, if_true]
    obtain ⟨t, ht, hsub, hrest⟩ := ih (h.move (step_move hst)) rfl
    refine ⟨t, .trans (.step _ .refl rfl hst) ht, (List.prefix_append _ _).trans hsub, ?_⟩
    intro v hv
    rcases List.mem_cons.mp hv with rfl | hv
    · exact hsub.subset (by simp)
    · exact hrest v hv

end Steps

/-- Two coroutines suspend, and `start()` has moved them out. -/
def published : List (Ev Nat) :=
  ([.coAwait 0, .waiter 0, .waiter 0, .coAwait 1, .waiter 1, .waiter 1, .start, .start,
    .inner .lock, .inner (.set (.value 7)), .inner .complete, .inner .complete, .inner .complete,
    .start, .start, .start] : List (Shared.Ev Nat)).map .base

end Unsubmitted

end Shared

/-- **A broadcast forgets no waiter unless a submission fails**, in every run, and then it does: of
those that a loop has taken, each is still on its list or was submitted, and nobody twice, if and
only if no submission of the loop has failed. The rest of a loop submits whoever is on its list. -/
theorem broadcast_remembers (kind : Future.Kind) (T : Type) :
    (∀ s, (AsyncMultiConsumerQueue.Unsubmitted.history T).Reach s → ∀ b,
      (AsyncMultiConsumerQueue.Unsubmitted.Remembered s b ↔ .failed b ∉ s.2) ∧
      ∃ s', (AsyncMultiConsumerQueue.Unsubmitted.sys T).Later
          (AsyncMultiConsumerQueue.Unsubmitted.loops b) s.1 s' ∧
        ∀ c ∈ (s.1.broadcasts b).todo, c ∈ s'.submissions.map Prod.fst) ∧
    (∀ s, (Shared.Unsubmitted.history kind T).Reach s →
      (Shared.Unsubmitted.Remembered s.1 ↔ s.2 = []) ∧
      (s.2 = [] → ∃ s', (Shared.Unsubmitted.sys kind T).Later (fun _ e => e = .base .start) s.1 s' ∧
        ∀ w ∈ s.1.start.rest, w ∈ s'.submitted)) := by
  refine ⟨fun s hs b => ⟨AsyncMultiConsumerQueue.Unsubmitted.remembered_iff hs b, ?_⟩,
    fun s hs => ⟨Shared.Unsubmitted.remembered_iff hs, fun hl => ?_⟩⟩
  · obtain ⟨s', hl, -, h⟩ := AsyncMultiConsumerQueue.Unsubmitted.loop_submits s.1 b
    exact ⟨s', hl, h⟩
  · rcases Shared.Unsubmitted.reach_inv hs with ⟨-, hi⟩ | ⟨hn, -⟩
    · obtain ⟨s', hl, -, h⟩ := Shared.Unsubmitted.loop_submits hi
      exact ⟨s', hl, h⟩
    · exact absurd hl hn

/-- A `cancel` that fails to submit the first of two waiters, and a result whose first of two
continuations is not submitted. -/
theorem broadcast_remembers_failed :
    ¬AsyncMultiConsumerQueue.Unsubmitted.Remembered
      ((AsyncMultiConsumerQueue.Unsubmitted.history Nat).after
        AsyncMultiConsumerQueue.Unsubmitted.cancelled) 0 ∧
    ¬Shared.Unsubmitted.Remembered ((Shared.Unsubmitted.history .coroutine Nat).after
      (Shared.Unsubmitted.published ++ [.startFails])).1 := by
  refine ⟨fun h => ?_, fun h => ?_⟩
  · have := (((broadcast_remembers .coroutine Nat).1 _ (Sys.reach_after rfl) 0).1.mp h)
    revert this
    decide
  · have := (((broadcast_remembers .coroutine Nat).2 _ (Sys.reach_after rfl)).1.mp h)
    revert this
    decide

/-- Not every broadcast remembers its waiters. -/
theorem broadcast_forgets :
    ¬((∀ s, (AsyncMultiConsumerQueue.Unsubmitted.history Nat).Reach s → ∀ b,
        AsyncMultiConsumerQueue.Unsubmitted.Remembered s b) ∧
      (∀ s, (Shared.Unsubmitted.history .coroutine Nat).Reach s →
        Shared.Unsubmitted.Remembered s.1)) := by
  rintro ⟨h, -⟩
  have := (h ((AsyncMultiConsumerQueue.Unsubmitted.history Nat).after
    AsyncMultiConsumerQueue.Unsubmitted.cancelled) (Sys.reach_after rfl) 0).held 1
  revert this
  decide

end Corsl
