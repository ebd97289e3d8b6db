import Corsl.Cancel.Subscriptions

/-!
# The run of a callback

`Stage`: a subscription's `run()` is not called, is before its submission, is submitted, is in `f`,
or is over. Each stage says what the fields of the subscription are (`Stage.counts`), and
`submitting` that a call of `cancel` is in the middle of its `run()`. `Staged` is the invariant:
each step leaves the stage alone or moves it on by one.

`Settled` says in which phases of the subscription `run()` has not been called or is over, and
`Promised` that the promise of the token's coroutine is cancelled before a callback is run.
-/

namespace Corsl

open Conc Function

namespace Cancel

/-- Where the `run()` of a subscription is (module doc). -/
inductive Stage where
  | before | submitting | pending | running | finished
  deriving DecidableEq, Repr

/-- `completed`, and the numbers of runs that are submitted, in `f`, called, and of calls of `f`. -/
def Stage.counts : Stage → Bool × Nat × Nat × Nat × Nat
  | .before => (true, 0, 0, 0, 0)
  | .submitting => (false, 0, 0, 1, 0)
  | .pending => (false, 1, 0, 1, 0)
  | .running => (false, 0, 1, 1, 1)
  | .finished => (true, 0, 0, 1, 1)

def Subscription.counts (u : Subscription) : Bool × Nat × Nat × Nat × Nat :=
  (u.completed, u.pending, u.running, u.runs, u.invoked)

/-- A call of `cancel` is before the submission of `run()`. -/
def Submits (s : St) (u : Nat) : Prop := ∃ k, (s.calls k).pc.sub? = some u

/-- The `run()` of subscription `u` is at `g`. -/
structure AtStage (s : St) (u : Nat) (g : Stage) : Prop where
  counts : (s.subs u).counts = g.counts
  submits : Submits s u ↔ g = .submitting

def Staged (s : St) : Prop := ∀ u, ∃ g, AtStage s u g

section Stages

variable {s s' : St} {u : Nat} {g : Stage}

theorem AtStage.completed (h : AtStage s u g) : (s.subs u).completed = g.counts.1 :=
  congrArg (fun c => c.1) h.counts

theorem AtStage.pending (h : AtStage s u g) : (s.subs u).pending = g.counts.2.1 :=
  congrArg (fun c => c.2.1) h.counts

theorem AtStage.running (h : AtStage s u g) : (s.subs u).running = g.counts.2.2.1 :=
  congrArg (fun c => c.2.2.1) h.counts

theorem AtStage.runs (h : AtStage s u g) : (s.subs u).runs = g.counts.2.2.2.1 :=
  congrArg (fun c => c.2.2.2.1) h.counts

theorem AtStage.invoked (h : AtStage s u g) : (s.subs u).invoked = g.counts.2.2.2.2 :=
  congrArg (fun c => c.2.2.2.2) h.counts

theorem AtStage.before_of_runs (h : AtStage s u g) (hr : (s.subs u).runs = 0) : g = .before := by
  rw [h.runs] at hr
  cases g <;> first | rfl | cases hr

theorem AtStage.pending_of_pos (h : AtStage s u g) (hp : 0 < (s.subs u).pending) :
    g = .pending := by
  rw [h.pending] at hp
  cases g <;> first | rfl | cases hp

theorem AtStage.running_of_pos (h : AtStage s u g) (hp : 0 < (s.subs u).running) :
    g = .running := by
  rw [h.running] at hp
  cases g <;> first | rfl | cases hp

/-- The counts of the subscription, and who submits it, stay. -/
theorem AtStage.keep (h : AtStage s u g) (hc : (s'.subs u).counts = (s.subs u).counts)
    (hs : Submits s' u ↔ Submits s u) : AtStage s' u g :=
  ⟨hc.trans h.counts, hs.trans h.submits⟩

theorem submits_congr (h : ∀ k, (s'.calls k).pc.sub? = (s.calls k).pc.sub?) (u : Nat) :
    Submits s' u ↔ Submits s u := by
  unfold Submits
  simp only [h]

theorem Staged.keep (h : Staged s) (hc : ∀ u, (s'.subs u).counts = (s.subs u).counts)
    (hs : ∀ k, (s'.calls k).pc.sub? = (s.calls k).pc.sub?) : Staged s' := fun u =>
  (h u).imp fun _ hg => hg.keep (hc u) (submits_congr hs u)

/-- The stage of subscription `u` changes to `g'`. -/
theorem Staged.set (h : Staged s) {v : Subscription} (g' : Stage)
    (hsubs : s'.subs = update s.subs u v) (hv : v.counts = g'.counts)
    (hs : Submits s' u ↔ g' = .submitting) (hne : ∀ w, w ≠ u → (Submits s' w ↔ Submits s w)) :
    Staged s' := by
  intro w
  by_cases hw : w = u
  · subst hw
    exact ⟨g', by rw [hsubs, update_self, hv], hs⟩
  · refine (h w).imp fun _ hg => hg.keep ?_ (hne w hw)
    rw [hsubs, update_of_ne hw]

theorem Staged.init : Staged ({} : St) := fun _ =>
  ⟨.before, rfl, ⟨fun ⟨_, hk⟩ => absurd hk (by simp [CancelPc.sub?]), nofun⟩⟩

/-- Who submits what, after a step of one call. -/
theorem submits_update {k : Nat} {c : Call} (hcalls : s'.calls = update s.calls k c)
    (h : (s.calls k).pc.sub? ≠ some u) (hc : c.pc.sub? ≠ some u) : Submits s' u ↔ Submits s u := by
  unfold Submits
  rw [hcalls]
  refine exists_congr fun k' => ?_
  by_cases hk : k' = k
  · rw [hk, update_self]
    exact iff_of_false hc h
  · rw [update_of_ne hk]

/-- A call that submits a subscription is at its token. -/
theorem Inv.at_of_submits (hi : Inv s) {k : Nat} (hk : (s.calls k).pc.sub? = some u) :
    (s.calls k).pc.at? = some (s.subs u).token := by
  cases hpc : (s.calls k).pc with
  | submit t u' subs todo =>
    have hu := hi.current.subAt k t u (by simp [hpc, CancelPc.at?]) hk
    rw [CancelPc.at?, ((hi.registered.sub t u).mp hu).2]
  | _ => simp [hpc, CancelPc.sub?] at hk

/-- A subscription is submitted by one call. -/
theorem Inv.submits_unique (hi : Inv s) {k k' : Nat} (hk : (s.calls k).pc.sub? = some u)
    (hk' : (s.calls k').pc.sub? = some u) : k = k' := by
  have hl := (hi.current.lock _ k).mpr (hi.at_of_submits hk)
  rw [(hi.current.lock _ k').mpr (hi.at_of_submits hk')] at hl
  exact (Option.some.inj hl).symm

theorem Staged.sub {e : Ev} (h : Staged s) (hi : Inv s) (hm : SubMove s e s') : Staged s' := by
  have hsubmits : ∀ w, Submits s' w ↔ Submits s w :=
    submits_congr fun k => by rw [hm.frame.calls]
  cases hm with
  | begin v t ht hp =>
    refine h.keep (update_proj Subscription.counts ?_) fun _ => rfl
    rw [hi.born.sub v hp]
    rfl
  | callback v hp =>
    obtain ⟨g, hg⟩ := h v
    have := hg.pending_of_pos hp
    subst this
    refine h.set .running rfl ?_ ((hsubmits v).trans (hg.submits.trans ?_)) fun w _ => hsubmits w
    · simp [Subscription.counts, Stage.counts, hg.pending, hg.running, hg.completed, hg.runs,
        hg.invoked]
    · simp
  | complete v hp =>
    obtain ⟨g, hg⟩ := h v
    have := hg.running_of_pos hp
    subst this
    refine h.set .finished rfl ?_ ((hsubmits v).trans (hg.submits.trans ?_)) fun w _ => hsubmits w
    · simp [Subscription.counts, Stage.counts, hg.pending, hg.running, hg.runs, hg.invoked]
    · simp
  | _ => exact h.keep (update_proj Subscription.counts rfl) fun _ => rfl

theorem Staged.call {k : Nat} (h : Staged s) (hi : Inv s) (hr : Runs s)
    (hm : CallMove s k (s.calls k).body s') : Staged s' := by
  -- a call that submits nothing before and after
  have hquiet : ∀ {c : Call}, s'.calls = update s.calls k c → s'.subs = s.subs →
      (s.calls k).pc.sub? = none → c.pc.sub? = none → Staged s' := by
    intro c hcalls hsubs hk hc u
    refine (h u).imp fun _ hg => hg.keep (by rw [hsubs]) (submits_update hcalls ?_ ?_)
    · simp [hk]
    · simp [hc]
  cases hm with
  | run t u subs todo hpc =>
    obtain ⟨g, hg⟩ := h u
    have := hg.before_of_runs (hr.todo k t (by simp [hpc, CancelPc.at?]) u
      (by simp [hpc, CancelPc.toRun]))
    subst this
    refine h.set .submitting rfl ?_ ?_ fun w hw => submits_update rfl ?_ ?_
    · simp [Subscription.counts, Stage.counts, hg.pending, hg.running, hg.runs, hg.invoked]
    · exact ⟨fun _ => rfl, fun _ => ⟨k, by simp [St.goto, CancelPc.sub?]⟩⟩
    · simp [hpc, CancelPc.sub?]
    · simpa [CancelPc.sub?] using hw.symm
  | submit t u subs todo hpc =>
    have hk : (s.calls k).pc.sub? = some u := by simp [hpc, CancelPc.sub?]
    obtain ⟨g, hg⟩ := h u
    have := hg.submits.mp ⟨k, hk⟩
    subst this
    refine h.set .pending rfl ?_ ⟨fun hs => ?_, by simp⟩ fun w hw =>
      submits_update rfl ?_ ?_
    · simp [Subscription.counts, Stage.counts, hg.pending, hg.running, hg.runs, hg.invoked,
        hg.completed]
    · obtain ⟨k', hk'⟩ := hs
      by_cases hkk : k' = k
      · simp [hkk, St.goto, CancelPc.sub?] at hk'
      · simp only [St.goto, update_of_ne hkk] at hk'
        exact absurd (hi.submits_unique hk' hk) hkk
    · rw [hk]; simpa using hw.symm
    · simp [CancelPc.sub?]
  | again hpc => exact hquiet rfl rfl (by simp [hpc, CancelPc.sub?]) rfl
  | enter hpc => exact hquiet rfl rfl (by simp [hpc, CancelPc.sub?]) rfl
  | tokensDone hpc => exact hquiet rfl rfl (by simp [hpc, CancelPc.sub?]) rfl
  | token t todo hpc => exact hquiet rfl rfl (by simp [hpc, CancelPc.sub?]) rfl
  | noPromise t todo hpc => exact hquiet rfl rfl (by simp [hpc, CancelPc.sub?]) rfl
  | promise t p todo hpc => exact hquiet rfl rfl (by simp [hpc, CancelPc.sub?]) rfl
  | tokenDone t todo hpc => exact hquiet rfl rfl (by simp [hpc, CancelPc.sub?]) rfl
  | relatedDone hpc => exact hquiet rfl rfl (by simp [hpc, CancelPc.sub?]) rfl
  | skip c todo hpc => exact hquiet rfl rfl (by simp [hpc, CancelPc.sub?]) rfl
  | nestedDone c k' todo hpc => exact hquiet rfl rfl (by simp [hpc, CancelPc.sub?]) rfl

theorem Staged.move {e : Ev} (h : Staged s) (hi : Inv s) (hr : Runs s) (hm : Move s e s') :
    Staged s' := by
  cases hm with
  | source hm =>
    have hf := hm.frame hi.born.body
    refine h.keep (fun u => by rw [hf.subs]) fun k => ?_
    exact (hf.calls k).pc_eq CancelPc.sub? rfl fun _ _ _ => rfl
  | token hm => exact h.keep (fun u => by rw [hm.frame.subs]) fun k => by rw [hm.frame.calls]
  | sub hm => exact h.sub hi hm
  | call k _ hm => exact h.call hi hr hm

theorem reach_staged (h : sys.Reach s) : Staged s := by
  refine h.rec_on (I := fun s => Inv s ∧ Runs s) (fun _ h => ⟨reach_inv h, reach_runs h⟩) .init ?_
  exact fun _ _ _ hi h _ hst => h.move hi.1 hi.2 (step_move hst)

/-- The number of runs does not become smaller. -/
theorem runs_le {e : Ev} (hi : Inv s) (hst : step s e = some s') (u : Nat) :
    (s.subs u).runs ≤ (s'.subs u).runs := by
  cases step_move hst with
  | source hm => exact Nat.le_of_eq (by rw [(hm.frame hi.born.body).subs])
  | token hm => exact Nat.le_of_eq (by rw [hm.frame.subs])
  | sub hm => exact Nat.le_of_eq (hm.runs hi.born.sub u).1.symm
  | call k _ hm =>
    rcases hm.runs u with hr | ⟨_, _, _, -, -, hr⟩
    · exact Nat.le_of_eq hr.symm
    · omega

/-! ## The run goes on -/

theorem submit_step {k : Nat} (h : (s.calls k).pc.sub? = some u) :
    ∃ s', step s (.call k) = some s' ∧ 0 < (s'.subs u).pending := by
  cases hpc : (s.calls k).pc with
  | submit t v subs todo =>
    obtain rfl : v = u := by simpa [hpc, CancelPc.sub?] using h
    exact ⟨_, by simp [step, callStep, hpc]; rfl, by simp⟩
  | _ => simp [hpc, CancelPc.sub?] at h

theorem callback_step (h : 0 < (s.subs u).pending) :
    ∃ s', step s (.callback u) = some s' ∧ 0 < (s'.subs u).running :=
  ⟨_, by simp [step, sourceStep, tokenStep, subStep, h]; rfl, by simp⟩

theorem complete_step (h : 0 < (s.subs u).running) :
    ∃ s', step s (.complete u) = some s' ∧ (s'.subs u).completed = true :=
  ⟨_, by simp [step, sourceStep, tokenStep, subStep, h]; rfl, by simp⟩

/-- The call comes to a callback that is on its list. -/
theorem later_submits_of_mem {k t : Nat} {subs todo : List Nat}
    (hpc : (s.calls k).pc = .callbacks t subs todo) (hu : u ∈ subs) :
    ∃ s', sys.Later (fun _ e => e = .call k) s s' ∧ (s'.calls k).pc.sub? = some u := by
  induction subs generalizing s with
  | nil => cases hu
  | cons v subs ih =>
    have hrun : ∃ s', step s (.call k) = some s' ∧ (s'.calls k).pc = .submit t v subs todo :=
      ⟨_, by simp [step, callStep, hpc]; rfl, by simp [St.goto]⟩
    obtain ⟨s₁, hst, hpc₁⟩ := hrun
    rcases List.mem_cons.mp hu with rfl | hu
    · exact ⟨s₁, .step (.call k) .refl rfl hst, by rw [hpc₁]; rfl⟩
    · have hsubmit : ∃ s', step s₁ (.call k) = some s' ∧
          (s'.calls k).pc = .callbacks t subs todo :=
        ⟨_, by simp [step, callStep, hpc₁]; rfl, by simp [St.goto]⟩
      obtain ⟨s₂, hst₂, hpc₂⟩ := hsubmit
      obtain ⟨s', hl, hs'⟩ := ih hpc₂ hu
      exact ⟨s', .head (.call k) rfl hst (.head (.call k) rfl hst₂ hl), hs'⟩

/-- A callback that a call still has to run, it comes to by its own steps. -/
theorem later_submits {k t : Nat} (hat : (s.calls k).pc.at? = some t)
    (hu : u ∈ (s.calls k).pc.toRun (s.tokens t).callbacks) :
    ∃ s', sys.Later (fun _ e => e = .call k) s s' ∧ (s'.calls k).pc.sub? = some u := by
  cases hpc : (s.calls k).pc with
  | promise x todo =>
    obtain rfl : x = t := by simpa [hpc, CancelPc.at?] using hat
    have hu : u ∈ (s.tokens x).callbacks := by simpa [hpc, CancelPc.toRun] using hu
    have hpromise : ∃ s', step s (.call k) = some s' ∧
        (s'.calls k).pc = .callbacks x (s.tokens x).callbacks todo := by
      cases hc : (s.tokens x).coro with
      | none => exact ⟨_, by simp [step, callStep, hpc, hc]; rfl, by simp [St.goto]⟩
      | some p => exact ⟨_, by simp [step, callStep, hpc, hc]; rfl, by simp [St.goto]⟩
    obtain ⟨s₁, hst, hpc₁⟩ := hpromise
    obtain ⟨s', hl, hs'⟩ := later_submits_of_mem hpc₁ hu
    exact ⟨s', .head (.call k) rfl hst hl, hs'⟩
  | callbacks x subs todo =>
    exact later_submits_of_mem hpc (by simpa [hpc, CancelPc.toRun] using hu)
  | submit x v subs todo =>
    have hu : u ∈ subs := by simpa [hpc, CancelPc.toRun] using hu
    have hsubmit : ∃ s', step s (.call k) = some s' ∧
        (s'.calls k).pc = .callbacks x subs todo :=
      ⟨_, by simp [step, callStep, hpc]; rfl, by simp [St.goto]⟩
    obtain ⟨s₁, hst, hpc₁⟩ := hsubmit
    obtain ⟨s', hl, hs'⟩ := later_submits_of_mem hpc₁ hu
    exact ⟨s', .head (.call k) rfl hst hl, hs'⟩
  | _ => simp [hpc, CancelPc.at?] at hat

/-! ## The phases of the subscription -/

/-- The subscription is not on the list of its token yet, or its constructor threw. -/
def SubPhase.early : SubPhase → Bool
  | .unborn | .begun | .checked | .threw => true
  | .live | .removed | .gone => false

/-- The runs of subscriptions in their phases (module doc). -/
structure Settled (s : St) : Prop where
  early : ∀ u, (s.subs u).phase.early = true → (s.subs u).runs = 0
  gone : ∀ u, (s.subs u).phase = .gone → (s.subs u).completed = true

/-- The step changes no subscription but `u`. -/
theorem Settled.set (h : Settled s) {v : Subscription} (hsubs : s'.subs = update s.subs u v)
    (he : v.phase.early = true → v.runs = 0) (hg : v.phase = .gone → v.completed = true) :
    Settled s' := by
  refine ⟨fun w => ?_, fun w => ?_⟩ <;> rw [hsubs] <;> by_cases hw : w = u
  · rw [hw, update_self]; exact he
  · rw [update_of_ne hw]; exact h.early w
  · rw [hw, update_self]; exact hg
  · rw [update_of_ne hw]; exact h.gone w

theorem Settled.sub {e : Ev} (h : Settled s) (hm : SubMove s e s') : Settled s' := by
  cases hm with
  | begin u t ht hp => exact h.set rfl (fun _ => rfl) nofun
  | throws u hp hc => exact h.set rfl (fun _ => h.early u (by rw [hp]; rfl)) nofun
  | checked u hp hc => exact h.set rfl (fun _ => h.early u (by rw [hp]; rfl)) nofun
  | add u hp hl => exact h.set rfl nofun nofun
  | remove u hp hl => exact h.set rfl nofun nofun
  | done u hp hc => exact h.set rfl nofun fun _ => hc
  | callback u hp => exact h.set rfl (h.early u) (h.gone u)
  | complete u hp => exact h.set rfl (h.early u) fun _ => rfl

theorem Settled.call {k : Nat} (h : Settled s) (hi : Inv s)
    (hm : CallMove s k (s.calls k).body s') : Settled s' := by
  cases hm with
  | run t u subs todo hpc =>
    have hu := hi.current.subs k t (by simp [hpc, CancelPc.at?]) u
      (by simp [hpc, CancelPc.subsTodo])
    have hl := ((hi.registered.sub t u).mp hu).1
    refine h.set rfl (fun he => ?_) fun hg => ?_
    · simp [hl, SubPhase.early] at he
    · simp [hl] at hg
  | submit t u subs todo hpc => exact h.set rfl (h.early u) (h.gone u)
  | _ => exact ⟨h.early, h.gone⟩

theorem Settled.move {e : Ev} (h : Settled s) (hi : Inv s) (hm : Move s e s') : Settled s' := by
  cases hm with
  | source hm =>
    have hf := (hm.frame hi.born.body).subs
    exact ⟨fun u => hf ▸ h.early u, fun u => hf ▸ h.gone u⟩
  | token hm =>
    have hf := hm.frame.subs
    exact ⟨fun u => hf ▸ h.early u, fun u => hf ▸ h.gone u⟩
  | sub hm => exact h.sub hm
  | call k _ hm => exact h.call hi hm

theorem reach_settled (h : sys.Reach s) : Settled s :=
  h.rec_on (fun _ h => reach_inv h) ⟨fun _ _ => rfl, nofun⟩
    fun _ _ _ hi h _ hst => h.move hi (step_move hst)

/-! ## The promise of the coroutine -/

/-- The token whose promise the call has cancelled. -/
@[grind =] def CancelPc.told? : CancelPc → Option Nat
  | .callbacks t _ _ | .submit t _ _ _ => some t
  | .unborn | .enter | .tokens _ | .promise _ _ | .related _ | .nested _ _ _ | .done => none

/-- A callback is not run before the promise of the token's coroutine is cancelled. -/
structure Promised (s : St) : Prop where
  call : ∀ k t p, (s.calls k).pc.told? = some t → (s.tokens t).coro = some p →
    (s.promises p).cancelled = true
  run : ∀ u p, 0 < (s.subs u).runs → (s.tokens (s.subs u).token).coro = some p →
    (s.promises p).cancelled = true

theorem Promised.init : Promised ({} : St) := by
  constructor <;> simp [CancelPc.told?]

theorem told_at {pc : CancelPc} {t : Nat} (h : pc.told? = some t) : pc.at? = some t := by
  cases pc <;> simp_all [CancelPc.told?, CancelPc.at?]

/-- The promise of a token is cancelled before the call comes to its callbacks. -/
theorem CallMove.told {k t : Nat} (hm : CallMove s k (s.calls k).body s')
    (ht : (s'.calls k).pc.told? = some t) : (s.calls k).pc.told? = some t ∨
      ∀ p, (s.tokens t).coro = some p → (s'.promises p).cancelled = true := by
  have hnone : ∀ {pc : CancelPc}, (s'.calls k).pc = pc → pc.told? = none → False := by
    rintro _ rfl hn
    rw [hn] at ht
    cases ht
  have hself : ∀ {x : Nat} {subs todo : List Nat}, (s'.calls k).pc = .callbacks x subs todo →
      x = t := by
    intro x subs todo hpc
    rw [hpc] at ht
    exact Option.some.inj ht
  have key : ∀ {pc pc' : CancelPc}, (s.calls k).pc = pc → (s'.calls k).pc = pc' →
      pc'.told? = pc.told? → (s.calls k).pc.told? = some t := by
    rintro _ _ rfl rfl he
    exact he ▸ ht
  cases hm with
  | noPromise x todo hpc hc =>
    obtain rfl := hself (goto_pc ..)
    refine .inr fun p hp => ?_
    rw [hc] at hp
    cases hp
  | promise x q todo hpc hc =>
    obtain rfl := hself (goto_pc ..)
    refine .inr fun p hp => ?_
    obtain rfl : q = p := Option.some.inj (hc.symm.trans hp)
    simp
  | run x u subs todo hpc => exact .inl (key hpc (goto_pc ..) rfl)
  | submit x u subs todo hpc => exact .inl (key hpc (goto_pc ..) rfl)
  | again => exact (hnone (leave_pc ..) rfl).elim
  | relatedDone => exact (hnone (leave_pc ..) rfl).elim
  | enter => exact (hnone (goto_pc ..) rfl).elim
  | tokensDone => exact (hnone (goto_pc ..) rfl).elim
  | token => exact (hnone (goto_pc ..) rfl).elim
  | tokenDone => exact (hnone (goto_pc ..) rfl).elim
  | skip => exact (hnone (goto_pc ..) rfl).elim
  | nestedDone => exact (hnone (goto_pc ..) rfl).elim

theorem Promised.call_move {k : Nat} (h : Promised s) (hi : Inv s)
    (hm : CallMove s k (s.calls k).body s') : Promised s' := by
  have f := hm.frame
  refine ⟨fun k' t p ht hp => ?_, fun u p hr hp => ?_⟩
  · rw [f.coro] at hp
    by_cases hk : k' = k
    · rw [hk] at ht
      rcases hm.told ht with ht | hprom
      · exact hm.promises p (h.call k t p ht hp)
      · exact hprom p hp
    · rw [f.other k' hk] at ht
      exact hm.promises p (h.call k' t p ht hp)
  · rw [f.subToken, f.coro] at hp
    rcases hm.runs u with hsame | ⟨t, subs, todo, hpc, -, -⟩
    · exact hm.promises p (h.run u p (hsame ▸ hr) hp)
    · -- the call that runs the callback is at its token
      have hu := hi.current.subs k t (by rw [hpc]; rfl) u (by rw [hpc]; exact List.mem_cons_self)
      rw [((hi.registered.sub t u).mp hu).2] at hp
      exact hm.promises p (h.call k t p (by rw [hpc]; rfl) hp)

theorem Promised.move {e : Ev} (h : Promised s) (hi : Inv s) (hm : Move s e s') : Promised s' := by
  -- a subscription that was run has been born, and so has its token
  have hborn : ∀ {u}, 0 < (s.subs u).runs → (s.subs u).phase ≠ .unborn := by
    intro u hr hp
    rw [hi.born.sub u hp] at hr
    cases hr
  cases hm with
  | source hm =>
    have f := hm.frame hi.born.body
    refine ⟨fun k t p ht hp => ?_, fun u p hr hp => ?_⟩
    · rw [(f.calls k).pc_eq CancelPc.told? rfl fun _ _ _ => rfl] at ht
      rw [f.tokens] at hp
      rw [f.promises]
      exact h.call k t p ht hp
    · rw [f.subs] at hr hp
      rw [f.tokens] at hp
      rw [f.promises]
      exact h.run u p hr hp
  | token hm =>
    have f := hm.frame
    refine ⟨fun k t p ht hp => ?_, fun u p hr hp => ?_⟩
    · rw [f.calls] at ht
      have hlive := hi.born_at k t (.inr (told_at ht))
      rw [(hm.kept (by simp [hlive])).coro] at hp
      rw [f.promises]
      exact h.call k t p ht hp
    · rw [f.subs] at hr hp
      have hne : (s.tokens (s.subs u).token).phase ≠ .unborn := by
        intro hn
        have := hi.born.subToken u (hborn hr)
        rw [hn] at this
        cases this
      rw [(hm.kept hne).coro] at hp
      rw [f.promises]
      exact h.run u p hr hp
  | sub hm =>
    have f := hm.frame
    refine ⟨fun k t p ht hp => ?_, fun u p hr hp => ?_⟩
    · rw [f.calls] at ht
      rw [f.coro] at hp
      rw [f.promises]
      exact h.call k t p ht hp
    · obtain ⟨hsame, htok⟩ := hm.runs hi.born.sub u
      rw [hsame] at hr
      rw [htok.resolve_left (hborn hr), f.coro] at hp
      rw [f.promises]
      exact h.run u p hr hp
  | call k _ hm => exact h.call_move hi hm

theorem reach_promised (h : sys.Reach s) : Promised s :=
  h.rec_on (fun _ h => reach_inv h) .init fun _ _ _ hi h _ hst => h.move hi (step_move hst)

end Stages

end Cancel

end Corsl
