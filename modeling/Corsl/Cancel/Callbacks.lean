import Corsl.Cancel.Threading

/-!
# A callback is run once, and not after its subscription

`RunsStep s e u`: the step `e` is one of `run()` of subscription `u`. These are the section that
lowers `completed`, in a call of `cancel`, and the submission; the start on a thread of the pool;
and what the thread does from there to the release of the lock in the last section.

The last section raises `completed` and releases the lock. In between the destructor cannot see
`completed`, since it takes the lock for that (`Leaving`).
-/

namespace Corsl

open Conc Function

namespace Cancel

/-- The subscription whose `run()` the call is in, or comes to next. -/
def CancelPc.runs? : CancelPc → Option Nat
  | .callbacks _ (u :: _) _ | .submit _ u _ _ => some u
  | _ => none

/-- The destructor of the subscription ends by `subDone`. -/
theorem gone_of_step {s s' : St} {e : Ev} (hst : step s e = some s') {u : Nat}
    (h : (s'.subs u).phase = .gone) : (s.subs u).phase = .gone ∨ e = .subDone u := by
  by_cases ho : Obj.sub u ∈ e.touches
  · cases step_move hst with
    | source hm => cases hm <;> simp [Ev.touches] at ho
    | token hm => cases hm <;> simp [Ev.touches] at ho
    | sub hm =>
      cases hm with
      | done v =>
        simp only [Ev.touches, List.mem_singleton, Obj.sub.injEq] at ho
        exact .inr (ho ▸ rfl)
      | _ => simp_all [Ev.touches]
    | call k he => subst he; simp [Ev.touches] at ho
  · rw [(same_of_step hst ho).1] at h
    exact .inl h

/-- A subscription that a call runs is alive. -/
theorem Inv.live_of_runs {s : St} (hi : Inv s) {k u : Nat}
    (h : (s.calls k).pc.runs? = some u) : (s.subs u).phase = .live := by
  cases hpc : (s.calls k).pc with
  | callbacks t subs todo =>
    rw [hpc] at h
    cases subs with
    | nil => cases h
    | cons v subs =>
      cases h
      have hu := hi.current.subs k t (by simp [hpc, CancelPc.at?]) u
        (by simp [hpc, CancelPc.subsTodo])
      exact ((hi.registered.sub t u).mp hu).1
  | submit t v subs todo =>
    rw [hpc] at h
    cases h
    have hu := hi.current.subAt k t u (by simp [hpc, CancelPc.at?]) (by simp [hpc, CancelPc.sub?])
    exact ((hi.registered.sub t u).mp hu).1
  | _ => simp [hpc, CancelPc.runs?] at h

theorem pending_of_callback {s s' : St} {u : Nat} (hst : step s (.callback u) = some s') :
    0 < (s.subs u).pending := by
  cases step_move hst with
  | source hm => cases hm
  | token hm => cases hm
  | call _ he => cases he
  | sub hm => cases hm; assumption

theorem running_of_complete {s s' : St} {u : Nat} (hst : step s (.complete u) = some s') :
    0 < (s.subs u).running := by
  cases step_move hst with
  | source hm => cases hm
  | token hm => cases hm
  | call _ he => cases he
  | sub hm => cases hm; assumption

/-- The destructor has not returned while `run()` is submitted or in `f`. -/
theorem AtStage.not_gone {s : St} {u : Nat} {g : Stage} (h : AtStage s u g) (hset : Settled s)
    (hg : g.counts.1 = false) : (s.subs u).phase ≠ .gone := by
  intro hgone
  rw [← h.completed, hset.gone u hgone] at hg
  cases hg

/-- The last step of a destructor is in the section of the subscription's lock. -/
theorem lock_of_subDone {s : St} {task : Task} {k' u : Nat}
    (he : task.event s k' = some (.subDone u)) : task.lock s = some (.sub u) := by
  cases Task.acts he with
  | subDone _ hp => simp only [Task.lock]

namespace Threads

variable {s s' : St} {e : Ev}

/-- The step is one of `run()` of subscription `u` (module doc). -/
def RunsStep (s : St) (e : Ev) (u : Nat) : Prop :=
  (∃ i, e = .run i u) ∨ (s.threads e.thread).callback = some u ∨
    ∃ k rest, (s.threads e.thread).task = .cancel (k :: rest) ∧
      (s.base.calls k).pc.runs? = some u

/-- Between the two last steps of `run()` (module doc). -/
def Leaving (s : St) : Prop :=
  ∀ i l u, (s.threads i).place = .acted l → (s.threads i).task = .finish u →
    (s.base.subs u).phase ≠ .gone

/-- While a thread is in the section of a subscription's lock, no other thread's step ends the
destructor. -/
theorem Inv.gone_inside (hi : Inv s) (h : Turn s e s') {i u : Nat} (hie : i ≠ e.thread)
    (hheld : i ∈ s.held (.sub u)) (hgone : (s'.base.subs u).phase = .gone) :
    (s.base.subs u).phase = .gone := by
  have hadvance : ∀ {e' : Option Cancel.Ev} {base : Cancel.St}, Advances s.base e' base →
      (base.subs u).phase = .gone → e' ≠ some (.subDone u) → (s.base.subs u).phase = .gone := by
    intro e' base ha hg hne
    cases ha with
    | same => exact hg
    | step e' _ hst => exact (gone_of_step hst hg).resolve_right fun he => hne (congrArg some he)
  cases h with
  | begin j op base hidle hallowed ha => exact hadvance ha hgone (by cases op <;> simp [Op.event])
  | act j k' base hp htask hlock htakes ha =>
    refine hadvance ha hgone fun he => ?_
    rw [lock_of_subDone he] at hlock
    cases hlock
  | inside j k' l base hp hw hne ha =>
    refine hadvance ha hgone fun he => hie ?_
    have hlock := ((hi.fits j).locked l hp).2
    rw [lock_of_subDone he] at hlock
    cases hlock
    refine hi.held.one u i j hheld (((hi.held.roster _).mem j).mpr ?_)
    simp [hp, Place.holds]
  | finish j k' v l base hp htask hst =>
    simp only [St.place, wakeOne_base] at hgone
    exact (gone_of_step hst hgone).resolve_right (by simp)
  | run j v base hidle hcb hst => exact (gone_of_step hst hgone).resolve_right (by simp)
  | acquire | sleep | release | wake | ret => exact hgone

theorem Leaving.step (hl : Leaving s) (hi : Inv s) (hset : Settled s.base)
    (hstage : Staged s.base) (h : Turn s e s') : Leaving s' := by
  intro i l u hp htask hgone
  by_cases hie : i = e.thread
  · subst hie
    cases h with
    | begin i op base hidle hallowed ha =>
      simp only [Ev.thread, St.assign, update_self, (hi.fits i).idle hidle] at hp
      cases hp
    | acquire i l' hp' hlock hfree =>
      simp only [Ev.thread, St.place, update_self] at hp
      cases hp
    | act i k' base hp' ht hlock htakes ha =>
      simp only [Ev.thread, St.assign, update_self, hp'] at hp
      cases hp
    | sleep i k' v hp' ht hc =>
      simp only [Ev.thread, St.place, update_self] at hp
      cases hp
    | inside i k' l' base hp' hw hne ha =>
      simp only [Ev.thread, St.place, update_self] at htask
      exact hne u htask
    | finish i k' v l' base hp' ht hst =>
      simp only [Ev.thread, place_task, wakeOne_task] at htask
      rw [ht] at htask
      cases htask
      simp only [St.place, wakeOne_base] at hgone
      -- `run()` is still in `f` before the step, so the destructor has not seen `completed`
      obtain ⟨g, hg⟩ := hstage u
      have := hg.running_of_pos (running_of_complete hst)
      subst this
      exact hg.not_gone hset rfl ((gone_of_step hst hgone).resolve_right (by simp))
    | release i l' callback hp' hcb =>
      simp only [Ev.thread, St.assign, update_self] at hp
      cases hp
    | wake i v hp' ht =>
      simp only [Ev.thread, St.place, update_self] at hp
      cases hp
    | run i v base hidle hcb hst =>
      simp only [Ev.thread, St.assign, update_self, hidle] at htask
      cases htask
    | ret i v hidle hcb =>
      simp only [Ev.thread, St.assign, update_self, (hi.fits i).idle hidle] at hp
      cases hp
  · obtain ⟨heq, -⟩ | ⟨-, heq⟩ := hi.others h hie
    · rw [heq] at hp htask
      have hin := ((hi.fits i).acted l hp).2
      rw [htask] at hin
      cases (hin : l = .sub u)
      refine hl i _ u hp htask (hi.gone_inside h hie (((hi.held.roster _).mem i).mpr ?_) hgone)
      simp [hp, Place.holds]
    · rw [heq] at hp
      cases hp

theorem reach_leaving (h : sys.Reach s) : Leaving s := by
  refine h.rec_on (I := fun s => Inv s ∧ Settled s.base ∧ Staged s.base)
    (fun _ h => ⟨reach_inv h, reach_settled (reach_base h), reach_staged (reach_base h)⟩) ?_ ?_
  · intro i l u hp
    cases hp
  · exact fun _ _ _ hi hl _ hst => hl.step hi.1 hi.2.1 hi.2.2 (step_turn hst)

/-- A thread in `run()` of a subscription is on one that its destructor has not left. -/
theorem callback_alive (h : sys.Reach s) {i u : Nat} (hc : (s.threads i).callback = some u) :
    (s.base.subs u).phase ≠ .gone := by
  intro hgone
  have hi := reach_inv h
  cases hr : (s.threads i).running with
  | some v =>
    have hv : v = u := by
      unfold Thread.running at hr
      split at hr
      · cases hr
      · rw [hc] at hr
        exact (Option.some.inj hr).symm
    subst hv
    obtain ⟨g, hg⟩ := reach_staged (reach_base h) v
    have := hg.running_of_pos ((hi.running.live_iff v).mpr ⟨i, hr⟩)
    subst this
    exact hg.not_gone (reach_settled (reach_base h)) rfl hgone
  | none =>
    unfold Thread.running at hr
    split at hr
    · rename_i l v hp htask
      have hv := (hi.fits i).finish v htask
      rw [hc] at hv
      cases hv
      exact reach_leaving h i l u hp htask hgone
    · rw [hc] at hr
      cases hr

/-- A callback is called once at most, not for a subscription whose constructor threw, and no step
of `run()` comes after the destructor of the subscription. -/
theorem callback_once (h : sys.Reach s) (u : Nat) :
    (s.base.subs u).invoked ≤ 1 ∧
    ((s.base.subs u).phase = .threw → (s.base.subs u).invoked = 0) ∧
    ∀ e s', RunsStep s e u → step s e = some s' → (s.base.subs u).phase ≠ .gone := by
  have hb := reach_base h
  have hset := reach_settled hb
  obtain ⟨g, hg⟩ := reach_staged hb u
  refine ⟨?_, fun hp => ?_, fun e s' hrun hst hgone => ?_⟩
  · rw [hg.invoked]
    cases g <;> simp [Stage.counts]
  · have := hg.before_of_runs (hset.early u (by rw [hp]; rfl))
    rw [hg.invoked, this]
    rfl
  · obtain ⟨i, rfl⟩ | hc | ⟨k, rest, htask, hk⟩ := hrun
    · cases step_turn hst with
      | run i u base hidle hcb hst' =>
        have := hg.pending_of_pos (pending_of_callback hst')
        subst this
        exact hg.not_gone hset rfl hgone
    · exact callback_alive h hc hgone
    · have hlive := (Cancel.reach_inv hb).live_of_runs hk
      rw [hlive] at hgone
      cases hgone

/-- Thread 0 makes a subscription and cancels, thread 1 runs the callback, and thread 2 destroys the
subscription in the meantime, and sleeps until `run()` is over. -/
def destroyRun : List Ev :=
  [.begin 0 (.newSource 0), .begin 0 (.tokenCtor 0 0 none), .acquire 0, .act 0 0, .release 0,
    .act 0 0, .acquire 0, .act 0 0, .release 0, .begin 0 (.subCtor 0 0), .act 0 0, .acquire 0,
    .act 0 0, .release 0, .begin 0 (.cancel 0 0), .act 0 0, .act 0 0, .act 0 0, .acquire 0,
    .act 0 0, .release 0, .act 0 0, .act 0 0, .act 0 0, .act 0 0, .run 1 0,
    .begin 2 (.subDtor 0), .acquire 2, .act 2 0, .release 2, .acquire 2, .act 2 0, .ret 1,
    .acquire 1, .act 1 0, .release 1, .acquire 2, .act 2 0, .release 2]

theorem callback_once_destroyed :
    ((sys.after destroyRun).base.subs 0).invoked ≤ 1 ∧
    (((sys.after destroyRun).base.subs 0).phase = .threw →
      ((sys.after destroyRun).base.subs 0).invoked = 0) ∧
    ∀ e s', RunsStep (sys.after destroyRun) e 0 → step (sys.after destroyRun) e = some s' →
      ((sys.after destroyRun).base.subs 0).phase ≠ .gone :=
  callback_once (Sys.reach_after rfl) 0

end Threads

end Cancel

end Corsl
