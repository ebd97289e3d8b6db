import Corsl.Cancel.Stages

/-!
# A callback's run that fails

`cancellation_subscription::run` is a `fire_and_forget<>`, whose `unhandled_exception` is empty: an
exception ends the coroutine, and nothing else. `sys` has the steps of cancellation, and the two in
which `run()` ends between its sections:

* `submitFails k`: in the `run()` that call `k` makes, `TrySubmitThreadpoolCallback` fails, and
  `resume_background_::await_suspend` throws. The loop of `cancellation_token::cancel` goes on;
* `throws u`: the callback `f` of subscription `u` throws.

A run without them (`sound`) is a run of `Cancel.sys`, where each `run()` is at a stage (`Staged`):
a subscription that is not completed is `Attended`. After one of them the subscription is
`Deserted`: it is incomplete, no `run()` is at work, and there will be none (`Runs`: `run()` is
called once), so its destructor waits forever.
-/

namespace Corsl

open Conc Function

namespace Cancel

/-- The invariants read the phases and the tokens of subscriptions only. -/
theorem Inv.subs_congr {s : St} (h : Inv s) {v : Nat → Subscription}
    (hp : ∀ u, (v u).phase = (s.subs u).phase) (ht : ∀ u, (v u).token = (s.subs u).token)
    (hb : ∀ u, (v u).phase = .unborn → v u = {}) : Inv { s with subs := v } := by
  obtain ⟨⟨h1, h2, h3, _, h5, h6, h7, h8, h9⟩, ⟨l1, l2, l3⟩, ⟨r1, r2, r3, r4⟩, hc⟩ := h
  refine ⟨⟨h1, h2, h3, hb, fun u hu => ?_, h6, h7, h8, h9⟩, ⟨l1, l2, l3⟩,
    ⟨r1, r2, fun t u => ?_, r4⟩,
    ⟨hc.tokens, hc.tokenAt, hc.lock, hc.flag, hc.subs, hc.subAt, hc.nodup⟩⟩
  · rw [hp] at hu
    rw [ht]
    exact h5 u hu
  · rw [hp, ht]
    exact r3 t u

/-- The same with the number of runs. -/
theorem Runs.subs_congr {s : St} (h : Runs s) {v : Nat → Subscription}
    (ht : ∀ u, (v u).token = (s.subs u).token) (hr : ∀ u, (v u).runs = (s.subs u).runs) :
    Runs { s with subs := v } := by
  refine ⟨fun u hu => ?_, fun k t hat u hu => ?_, fun u => ?_⟩ <;> rw [hr]
  · rw [ht] at hu
    exact h.fresh u hu
  · exact h.todo k t hat u hu
  · exact h.le u

namespace Failing

/-- The atomic steps (module doc). -/
inductive Ev where
  | base (e : Cancel.Ev)
  | submitFails (k : Nat)
  | throws (u : Nat)
  deriving DecidableEq, Repr

/-- One atomic step. -/
def step (s : St) : Ev → Option St
  | .base e => Cancel.step s e
  | .submitFails k =>
    match (s.calls k).pc with
    | .submit t _ subs todo => some (s.goto k (.callbacks t subs todo))
    | _ => none
  | .throws u =>
    if 0 < (s.subs u).running then
      some { s with
        subs := update s.subs u { s.subs u with running := (s.subs u).running - 1 } }
    else none

/-- The threads that use cancellation, with runs that fail. -/
def sys : Sys St Ev := ⟨{}, step⟩

/-- No submission fails, and `f` does not throw. -/
def sound : Ev → Bool
  | .base _ => true
  | .submitFails _ | .throws _ => false

/-- A `run()` of the subscription is before its submission, submitted, or in `f`. -/
def Alive (s : St) (u : Nat) : Prop :=
  Submits s u ∨ 0 < (s.subs u).pending ∨ 0 < (s.subs u).running

/-- The subscription is incomplete only while its `run()` is at work, and its destructor can still
be woken. -/
def Attended (s : St) (u : Nat) : Prop :=
  (s.subs u).completed = false → Alive s u ∧
    ∃ s', sys.Later (fun _ _ => True) s s' ∧ (s'.subs u).completed = true

/-- The subscription is incomplete, and no `run()` is at work. -/
def Deserted (s : St) (u : Nat) : Prop := (s.subs u).completed = false ∧ ¬Alive s u

/-! ## Runs without failures -/

section Sound

variable {s s' : St} {u : Nat}

theorem reach_base (h : sys.ReachBy (fun _ e => sound e = true) s) : Cancel.sys.Reach s := by
  induction h with
  | init => exact .init
  | step e _ he hst ih =>
    cases e with
    | base e => exact .step e ih trivial hst
    | _ => cases he

theorem later_of_base (h : Cancel.sys.Later (fun _ _ => True) s s') :
    sys.Later (fun _ _ => True) s s' := by
  induction h with
  | refl => exact .refl
  | step e _ _ hst ih => exact .step (.base e) ih trivial hst

theorem alive_iff {g : Stage} (hg : AtStage s u g) : Alive s u ↔ (s.subs u).completed = false := by
  rw [Alive, hg.submits, hg.pending, hg.running, hg.completed]
  cases g <;> simp [Stage.counts]

/-- The `run()` of the subscription is completed, if its thread and the pool go on. -/
theorem wakes (h : Alive s u) :
    ∃ s', Cancel.sys.Later (fun _ _ => True) s s' ∧ (s'.subs u).completed = true := by
  have hrunning : ∀ {s : St}, 0 < (s.subs u).running →
      ∃ s', Cancel.sys.Later (fun _ _ => True) s s' ∧ (s'.subs u).completed = true := by
    intro s hr
    obtain ⟨s', hst, hs'⟩ := complete_step hr
    exact ⟨s', .step (.complete u) .refl trivial hst, hs'⟩
  have hpending : ∀ {s : St}, 0 < (s.subs u).pending →
      ∃ s', Cancel.sys.Later (fun _ _ => True) s s' ∧ (s'.subs u).completed = true := by
    intro s hp
    obtain ⟨t, hst, ht⟩ := callback_step hp
    obtain ⟨s', hl, hs'⟩ := hrunning ht
    exact ⟨s', .head (.callback u) trivial hst hl, hs'⟩
  rcases h with ⟨k, hk⟩ | hp | hr
  · obtain ⟨t, hst, ht⟩ := submit_step hk
    obtain ⟨s', hl, hs'⟩ := hpending ht
    exact ⟨s', .head (.call k) trivial hst hl, hs'⟩
  · exact hpending hp
  · exact hrunning hr

theorem reach_attended (h : sys.ReachBy (fun _ e => sound e = true) s) (u : Nat) :
    Attended s u := by
  intro hc
  obtain ⟨g, hg⟩ := reach_staged (reach_base h) u
  have ha := (alive_iff hg).mpr hc
  obtain ⟨s', hl, hs'⟩ := wakes ha
  exact ⟨ha, s', later_of_base hl, hs'⟩

end Sound

/-! ## Runs with failures -/

section Failures

variable {s s' : St} {u : Nat}

/-- The two new steps. -/
theorem submitFails_step {k : Nat} (h : step s (.submitFails k) = some s') :
    ∃ t v subs todo, (s.calls k).pc = .submit t v subs todo ∧
      s' = s.goto k (.callbacks t subs todo) := by
  simp only [step] at h
  split at h
  · rename_i t v subs todo hpc
    exact ⟨t, v, subs, todo, hpc, (Option.some.inj h).symm⟩
  · cases h

theorem throws_step {v : Nat} (h : step s (.throws v) = some s') : 0 < (s.subs v).running ∧
    s' = { s with
      subs := update s.subs v { s.subs v with running := (s.subs v).running - 1 } } := by
  simp only [step] at h
  split at h
  · rename_i hr
    exact ⟨hr, (Option.some.inj h).symm⟩
  · cases h

/-- What the rest of the system relies on. -/
structure Kept (s : St) : Prop where
  inv : Inv s
  untouched : Untouched s
  runs : Runs s

theorem Kept.step {e : Ev} (h : Kept s) (hst : step s e = some s') : Kept s' := by
  obtain ⟨hi, hu, hr⟩ := h
  cases e with
  | base e =>
    have hm := step_move hst
    exact ⟨hi.move hm, hu.move hi hm, hr.move hi hu hm⟩
  | submitFails k =>
    -- the state after a submission, but for the counts
    obtain ⟨t, v, subs, todo, hpc, rfl⟩ := submitFails_step hst
    have hm : Move s (.call k) _ := .call k rfl (.submit t v subs todo hpc)
    have hb := hi.born.sub
    refine ⟨?_, ?_, ?_⟩
    · refine (hi.move hm).subs_congr (v := s.subs) (fun w => ?_) (fun w => ?_) hb
      · exact (update_proj Subscription.phase (by rfl) w).symm
      · exact (update_proj Subscription.token (by rfl) w).symm
    · obtain ⟨h1, h2, h3, h4, h5⟩ := hu.move hi hm
      exact ⟨h1, h2, h3, h4, h5⟩
    · refine (hr.move hi hu hm).subs_congr (v := s.subs) (fun w => ?_) fun w => ?_
      · exact (update_proj Subscription.token (by rfl) w).symm
      · exact (update_proj Subscription.runs (by rfl) w).symm
  | throws v =>
    obtain ⟨hrun, rfl⟩ := throws_step hst
    refine ⟨hi.subs_congr (fun w => update_proj Subscription.phase (by rfl) w)
      (fun w => update_proj Subscription.token (by rfl) w) fun w hw => ?_, ?_,
      hr.subs_congr (fun w => update_proj Subscription.token (by rfl) w)
        fun w => update_proj Subscription.runs (by rfl) w⟩
    · by_cases h : w = v
      · subst h
        rw [update_self] at hw
        rw [hi.born.sub w hw] at hrun
        exact absurd hrun (by simp)
      · rw [update_of_ne h] at hw ⊢
        exact hi.born.sub w hw
    · obtain ⟨h1, h2, h3, h4, h5⟩ := hu
      exact ⟨h1, h2, h3, h4, h5⟩

theorem reach_kept (h : sys.Reach s) : Kept s :=
  (⟨⟨.init, .init, .init⟩, fun _ _ _ h _ hst => h.step hst⟩ : sys.Inductive _ Kept).reach h

/-- The `run()` of a deserted subscription was called. -/
def Left (s : St) (u : Nat) : Prop := Deserted s u ∧ 0 < (s.subs u).runs

theorem Left.keep (h : Left s u) (hc : (s'.subs u).counts = (s.subs u).counts)
    (hs : Submits s' u ↔ Submits s u) : Left s' u := by
  simp only [Subscription.counts, Prod.mk.injEq] at hc
  obtain ⟨h1, h2, h3, h4, -⟩ := hc
  obtain ⟨⟨hcomp, hidle⟩, hr⟩ := h
  refine ⟨⟨h1.trans hcomp, fun ha => hidle ?_⟩, h4 ▸ hr⟩
  unfold Alive at ha ⊢
  rw [hs, h2, h3] at ha
  exact ha

/-- Another subscription changes. -/
theorem Left.other (h : Left s u) {v : Nat} {w : Subscription} (hv : v ≠ u)
    (hsubs : s'.subs = update s.subs v w) (hs : Submits s' u ↔ Submits s u) : Left s' u :=
  h.keep (by rw [hsubs, update_of_ne hv.symm]) hs

theorem Left.not_pending (h : Left s u) : ¬0 < (s.subs u).pending :=
  fun hp => h.1.2 (.inr (.inl hp))

theorem Left.not_running (h : Left s u) : ¬0 < (s.subs u).running :=
  fun hr => h.1.2 (.inr (.inr hr))

theorem Left.sub {e : Cancel.Ev} (h : Left s u) (hi : Inv s) (hm : SubMove s e s') : Left s' u := by
  have hs : Submits s' u ↔ Submits s u := submits_congr (fun k => by rw [hm.frame.calls]) u
  cases hm with
  | begin v t ht hp =>
    refine h.other (fun hv => ?_) rfl hs
    have hr := h.2
    rw [← hv, hi.born.sub v hp] at hr
    cases hr
  | callback v hp => exact h.other (fun hv => h.not_pending (hv ▸ hp)) rfl hs
  | complete v hr => exact h.other (fun hv => h.not_running (hv ▸ hr)) rfl hs
  | _ => exact h.keep (update_proj Subscription.counts (by rfl) u) hs

theorem Left.call {k : Nat} (h : Left s u) (hr : Runs s) (hm : CallMove s k (s.calls k).body s') :
    Left s' u := by
  have hidle : ∀ k, (s.calls k).pc.sub? ≠ some u := fun k hk => h.1.2 (.inl ⟨k, hk⟩)
  have hs : ∀ {c : Call}, s'.calls = update s.calls k c → c.pc.sub? ≠ some u →
      (Submits s' u ↔ Submits s u) := fun hcalls hc => submits_update hcalls (hidle k) hc
  cases hm with
  | run t v subs todo hpc =>
    have hv : v ≠ u := by
      intro hv
      have := hr.todo k t (by simp [hpc, CancelPc.at?]) v (by simp [hpc, CancelPc.toRun])
      have hpos := h.2
      rw [hv] at this
      omega
    exact h.other hv rfl (hs rfl (by simpa [CancelPc.sub?] using hv))
  | submit t v subs todo hpc =>
    have hv : v ≠ u := fun hv => hidle k (by simp [hpc, CancelPc.sub?, hv])
    exact h.other hv rfl (hs rfl nofun)
  | _ => exact h.keep rfl (hs rfl nofun)

theorem Left.step {e : Ev} (h : Left s u) (hk : Kept s) (hst : step s e = some s') : Left s' u := by
  cases e with
  | base e =>
    cases step_move hst with
    | source hm =>
      have hf := hm.frame hk.inv.born.body
      refine h.keep (by rw [hf.subs]) (submits_congr (fun k => ?_) u)
      exact (hf.calls k).pc_eq CancelPc.sub? rfl fun _ _ _ => rfl
    | token hm =>
      exact h.keep (by rw [hm.frame.subs]) (submits_congr (fun k => by rw [hm.frame.calls]) u)
    | sub hm => exact h.sub hk.inv hm
    | call k _ hm => exact h.call hk.runs hm
  | submitFails k =>
    obtain ⟨t, v, subs, todo, hpc, rfl⟩ := submitFails_step hst
    exact h.keep rfl (submits_update rfl (fun hu => h.1.2 (.inl ⟨k, hu⟩)) nofun)
  | throws v =>
    obtain ⟨hr, rfl⟩ := throws_step hst
    exact h.other (fun hv => h.not_running (hv ▸ hr)) rfl Iff.rfl

theorem Left.later (h : Left s u) (hs : sys.Reach s) (hl : sys.Later (fun _ _ => True) s s') :
    Left s' u :=
  Sys.Later.keep (I := Kept) (P := fun s => Left s u) (fun _ h => reach_kept h)
    (fun _ _ _ hk h _ hst => h.step hk hst) hs hl h

/-- A failure deserts its subscription. -/
theorem failure_leaves (hs : sys.ReachBy (fun _ e => sound e = true) s) {e : Ev}
    (he : sound e = false) (hst : step s e = some s') : ∃ u, Left s' u := by
  have hb := reach_base hs
  cases e with
  | base e => cases he
  | submitFails k =>
    obtain ⟨t, v, subs, todo, hpc, rfl⟩ := submitFails_step hst
    have hk : (s.calls k).pc.sub? = some v := by simp [hpc, CancelPc.sub?]
    obtain ⟨g, hg⟩ := reach_staged hb v
    obtain rfl := hg.submits.mp ⟨k, hk⟩
    refine ⟨v, ⟨hg.completed, ?_⟩, Nat.lt_of_lt_of_eq Nat.zero_lt_one hg.runs.symm⟩
    rintro (⟨k', hk'⟩ | hp | hr)
    · -- one call submits `v`, and it has gone on
      by_cases hkk : k' = k
      · simp [hkk, St.goto, CancelPc.sub?] at hk'
      · simp only [St.goto, update_of_ne hkk] at hk'
        exact hkk ((reach_inv hb).submits_unique hk' hk)
    · exact absurd (Nat.lt_of_lt_of_eq hp hg.pending) (Nat.lt_irrefl 0)
    · exact absurd (Nat.lt_of_lt_of_eq hr hg.running) (Nat.lt_irrefl 0)
  | throws v =>
    obtain ⟨hr, rfl⟩ := throws_step hst
    obtain ⟨g, hg⟩ := reach_staged hb v
    obtain rfl := hg.running_of_pos hr
    have hc : (s.subs v).completed = false := hg.completed
    have hp : (s.subs v).pending = 0 := hg.pending
    have hone : (s.subs v).running = 1 := hg.running
    have hn : (s.subs v).runs = 1 := hg.runs
    refine ⟨v, ⟨by simp [hc], ?_⟩, by simp [hn]⟩
    rintro (hsub | h | h)
    · exact absurd (hg.submits.mp hsub) (by simp)
    · simp [hp] at h
    · simp [hone] at h

/-- The destructor of a deserted subscription does not return. -/
theorem Deserted.blocked (h : Deserted s u) : step s (.base (.subDone u)) = none := by
  simp [step, Cancel.step, sourceStep, tokenStep, subStep, h.1]

end Failures

/-! ## Results -/

/-- **A subscription is incomplete only while its callback is pending**, in the runs in which no
submission fails and no callback throws; the first step that does deserts its subscription for
good. -/
theorem incomplete_attended {s : St} (hs : sys.ReachBy (fun _ e => sound e = true) s) :
    (∀ u, Attended s u) ∧ ∀ e s', sound e = false → step s e = some s' →
      ∃ u, ∀ s'', sys.Later (fun _ _ => True) s' s'' →
        Deserted s'' u ∧ step s'' (.base (.subDone u)) = none := by
  refine ⟨reach_attended hs, fun e s' he hst => ?_⟩
  obtain ⟨u, hu⟩ := failure_leaves hs he hst
  have hs' : sys.Reach s' := .step e hs.reach trivial hst
  refine ⟨u, fun s'' hl => ?_⟩
  have h := (hu.later hs' hl).1
  exact ⟨h, h.blocked⟩

/-- A source is cancelled; its callback is submitted. -/
def submitRun : List Ev :=
  [.newSource 0, .tokenBegin 0 0 none, .tokenRead 0, .tokenCheck 0, .tokenAdd 0, .subBegin 0 0,
    .subCheck 0, .subAdd 0, .cancel 0 0, .call 0, .call 0, .call 0, .call 0].map .base

theorem incomplete_attended_submitted :
    ((sys.after (submitRun ++ [.base (.call 0)])).subs 0).completed = false ∧
      Attended (sys.after (submitRun ++ [.base (.call 0)])) 0 :=
  ⟨by decide, (incomplete_attended (Sys.reachBy_meets (by decide))).1 0⟩

/-- The submission fails, or `f` throws. -/
theorem incomplete_deserted : ¬∀ s, sys.Reach s → ∀ u, Attended s u := by
  intro h
  have hs : sys.ReachBy (fun _ e => sound e = true) (sys.after submitRun) :=
    Sys.reachBy_meets (by decide)
  obtain ⟨s', hst⟩ : ∃ s', step (sys.after submitRun) (.submitFails 0) = some s' :=
    Option.isSome_iff_exists.mp (by decide)
  obtain ⟨u, hu⟩ := failure_leaves hs rfl hst
  have hs' : sys.Reach s' := .step (.submitFails 0) hs.reach trivial hst
  exact hu.1.2 (h s' hs' u hu.1.1).1

end Failing

end Cancel

end Corsl
