import Corsl.Timers.Endings

/-!
# A cancelled wait of `async_timer` throws

`wait` clears the flag and `await_resume` looks at it last, but `suspend` looks at it, too, and
there it is `await_suspend`, which is `noexcept`, that throws. So are `resume` and `cancel`, and
`resume(true)` throws where `TrySubmitThreadpoolCallback` fails; `Failing.sys` has this step
(`submitFails`), too.

* `placed`: the `cancel()` does not come between `wait` and the section of `suspend`, in a wait that
  suspends, and no submission of a `resume(true)` fails.
* `Catchable`: the program runs, and every wait in which a `cancel()` has raised the flag ends with
  `timer_cancelled`, as long as no submission fails.
* `cancel_catchable`: this holds in the runs whose steps are `placed`, and a step that is not breaks
  it: the program ends with it, or with the next step of the coroutine.
-/

namespace Corsl

open Conc Function

namespace Timers

namespace Failing

/-- The atomic steps. -/
inductive Ev where
  | base (e : Timers.Ev)
  /-- In the `resume(true)` of call `k` of `cancel`, which has taken a continuation,
  `TrySubmitThreadpoolCallback` fails. -/
  | submitFails (k : Nat)
  deriving DecidableEq, Repr

/-- One atomic step. -/
def step (kind : Kind) (s : St) : Ev → Option St
  | .base e => Timers.step kind s e
  | .submitFails k =>
    if s.terminated then none
    else
      match (s.cancels k).pc, s.timer.resume with
      | .trailing, (some _, timer) => some { s with timer, terminated := true }
      | _, _ => none

/-- The timer and the threads that use it, with submissions that fail. -/
def sys (kind : Kind) : Sys St Ev := ⟨{}, step kind⟩

end Failing

/-- What is said of a step in which no submission fails. -/
def sound {α : Type} (note : St → Ev → List α) (s : St) : Failing.Ev → List α
  | .base e => note s e
  | .submitFails _ => []

/-- The call of `cancel`, if the step is one, does not come between `wait` and `suspend`; nor does a
submission fail. -/
def placed (s : St) : Failing.Ev → Bool
  | .base (.cancel _) =>
    match s.coro with
    | .created _ false => false
    | _ => true
  | .base _ => true
  | .submitFails _ => false

/-- The wait in which a `cancel()` raises the flag. -/
def hits (s : St) : Ev → List Nat
  | .cancel _ => s.coro.wait?.toList
  | _ => []

/-- An `async_timer`, with the waits that have ended and those that were hit. -/
def hitting : Sys ((St × List (Nat × Option Exception)) × List Nat) Failing.Ev :=
  ((Failing.sys .async).logged (sound (endings .async))).logged fun s e => sound hits s.1 e

/-- The program runs, and each wait that was hit ends with `timer_cancelled`, once, by what the
threads do that are at work, as long as no submission fails. -/
def Catchable (s : (St × List (Nat × Option Exception)) × List Nat) : Prop :=
  s.1.1.terminated = false ∧ ∀ n ∈ s.2,
    (history .async).Ends (fun _ _ => True) (fun _ e => e.serves) s.1 n (some .timerCancelled)

variable {s s' : St} {e : Ev}

/-! ## The runs that keep the flag down until `suspend` -/

/-- The coroutine finds the flag down in `suspend`. -/
structure Fresh (s : St) : Prop where
  live : s.terminated = false
  flag : ∀ n, s.coro = .created n false → s.timer.cancellationRequested = false

theorem Fresh.init : Fresh {} := ⟨rfl, fun _ h => (by cases h)⟩

theorem Fresh.step (h : Fresh s) (hok : placed s (.base e) = true)
    (hst : step .async s e = some s') : Fresh s' := by
  have hm := step_move hst
  obtain ⟨-, hs⟩ := step_live hst
  -- a step that leaves the coroutine out of `created`, or changes nothing of it
  have away : ∀ {s' : St}, s'.terminated = s.terminated → (∀ n, s'.coro ≠ .created n false) →
      Fresh s' := fun ht hc => ⟨ht ▸ h.live, fun n hn => absurd hn (hc n)⟩
  have same : ∀ {s' : St}, s'.terminated = s.terminated → s'.coro = s.coro →
      s'.timer = s.timer → Fresh s' := by
    intro s' ht hc hti
    exact ⟨ht ▸ h.live, by rw [hc, hti]; exact h.flag⟩
  cases e with
  | wait ready =>
    simp only [liveStep] at hs
    split at hs
    · cases hs
      exact ⟨h.live, fun _ _ => rfl⟩
    · cases hs
  | await =>
    simp only [liveStep] at hs
    split at hs
    · cases hs
      exact away rfl fun n => by simp
    · rename_i n hc
      cases hs
      by_cases hl : s.timer.resumeLocation = none
      · rw [suspendStep, Timer.suspend_free (h.flag n hc) hl]
        exact away rfl fun m => by simp
      · rw [suspendStep, Timer.suspend_twice (h.flag n hc) hl]
        exact same rfl rfl rfl
    · cases hs
  | check =>
    simp only [liveStep] at hs
    split at hs
    · cases hs
      exact away rfl fun n => by simp
    · cases hs
  | callback k =>
    cases hm with
    | callbackTake => exact away rfl fun n => by simp [St.taken, St.setCallback]
    | callbackLost => exact ⟨h.live, h.flag⟩
    | callbackEnd => exact same rfl rfl rfl
    | os => exact same rfl rfl rfl
  | cancel k =>
    obtain ⟨-, -, hc, ht, -⟩ := cancel_unborn hst
    refine away ht fun n hn => ?_
    rw [hc] at hn
    rw [placed, hn] at hok
    cases hok
  | call k =>
    cases hm with
    | cancelTake => exact away rfl fun n => by simp [St.taken, St.setCancel]
    | cancelLost => exact ⟨h.live, h.flag⟩
    | drain => exact same rfl rfl rfl
    | os => exact same rfl rfl rfl
  | _ => cases hm <;> exact same rfl rfl rfl

/-- A step in which no submission fails. -/
theorem hitting_base {s s' : (St × List (Nat × Option Exception)) × List Nat} {e : Ev}
    (hst : hitting.step s (.base e) = some s') :
    (history .async).step s.1 e = some s'.1 ∧ s'.2 = s.2 ++ hits s.1.1 e := by
  obtain ⟨hst, hl⟩ := Sys.logged_step.mp hst
  obtain ⟨hst', hl'⟩ := Sys.logged_step.mp hst
  exact ⟨Sys.logged_step.mpr ⟨hst', hl'⟩, hl⟩

/-- A submission that fails ends the program. -/
theorem hitting_fails {s s' : (St × List (Nat × Option Exception)) × List Nat} {k : Nat}
    (hst : hitting.step s (.submitFails k) = some s') : s'.1.1.terminated = true := by
  obtain ⟨hst, -⟩ := Sys.logged_step.mp hst
  have hst' : Failing.step .async s.1.1 (.submitFails k) = some s'.1.1 :=
    (Sys.logged_step.mp hst).1
  simp only [Failing.step] at hst'
  split at hst'
  · cases hst'
  · split at hst'
    · exact (Option.some.inj hst') ▸ rfl
    · cases hst'

/-- While the program runs, no submission has failed. -/
theorem reach_history {s : (St × List (Nat × Option Exception)) × List Nat} (hs : hitting.Reach s)
    (ht : s.1.1.terminated = false) : (history .async).Reach s.1 := by
  induction hs with
  | init => exact .init
  | step e _ _ hst ih =>
    cases e with
    | base e =>
      obtain ⟨hst, -⟩ := hitting_base hst
      exact .step e (ih (step_live (Sys.logged_step.mp hst).1).1) trivial hst
    | submitFails k =>
      rw [hitting_fails hst] at ht
      cases ht

theorem reach_fresh {s : (St × List (Nat × Option Exception)) × List Nat}
    (hs : hitting.ReachBy (fun s e => placed s.1.1 e = true) s) : Fresh s.1.1 := by
  induction hs with
  | init => exact .init
  | step e _ hok hst ih =>
    cases e with
    | base e => exact ih.step hok (Sys.logged_step.mp (hitting_base hst).1).1
    | submitFails k => cases hok

/-! ## A call that is placed hits the wait -/

theorem hit_of_cancel {k n : Nat} (hok : placed s (.base (.cancel k)) = true)
    (hw : s.coro.wait? = some n) (hst : step .async s (.cancel k) = some s') :
    Hit .async s' k n := by
  obtain ⟨-, hact, hc, ht, hf⟩ := cancel_unborn hst
  refine ⟨ht ▸ (step_live hst).1, hf, ?_⟩
  rw [placed] at hok
  rw [Place, hc]
  split at hok
  · cases hok
  · rename_i hne
    cases hco : s.coro with
    | idle =>
      rw [hco] at hw
      cases hw
    | created m ready =>
      rw [hco] at hw
      cases hw
      cases ready with
      | true => exact ⟨rfl, .inl rfl⟩
      | false => exact absurd hco (hne n)
    | parked m =>
      rw [hco] at hw
      cases hw
      exact ⟨rfl, hact⟩
    | resuming m b =>
      rw [hco] at hw
      cases hw
      rfl

theorem reach_catchable {s : (St × List (Nat × Option Exception)) × List Nat}
    (hs : hitting.ReachBy (fun s e => placed s.1.1 e = true) s) : Catchable s := by
  refine ⟨(reach_fresh hs).live, ?_⟩
  induction hs with
  | init => exact fun n hn => by cases hn
  | @step s s' e hr hok hst ih =>
    cases e with
    | submitFails k => cases hok
    | base e =>
      obtain ⟨hst, hl⟩ := hitting_base hst
      have hlater : (history .async).Later (fun _ _ => True) s.1 s'.1 := .step e .refl trivial hst
      have hreach := reach_history hr.reach (reach_fresh hr).live
      intro n hn
      rw [hl, List.mem_append] at hn
      obtain hn | hn := hn
      · exact (ih n hn).later hlater
      · cases e with
        | cancel k =>
          refine Hit.ends (hreach.later hlater) (hit_of_cancel hok ?_ (Sys.logged_step.mp hst).1)
          exact Option.mem_toList.mp hn
        | _ => cases hn

/-! ## A step that is not ends the program -/

theorem terminated_stays {s s' : St × List (Nat × Option Exception)} {ok}
    (h : s.1.terminated = true) (hl : (history .async).Later ok s s') : s' = s := by
  induction hl with
  | refl => rfl
  | step e _ _ hst ih =>
    obtain ⟨hst, -⟩ := Sys.logged_step.mp hst
    have := (step_live (ih ▸ hst)).1
    rw [h] at this
    cases this

theorem stray_cancel {s s' : (St × List (Nat × Option Exception)) × List Nat} {e : Ev}
    (hs : hitting.Reach s) (he : placed s.1.1 (.base e) = false)
    (hst : hitting.step s (.base e) = some s') : ¬Catchable s' := by
  obtain ⟨hst, hl⟩ := hitting_base hst
  obtain ⟨hst', hl'⟩ := Sys.logged_step.mp hst
  have hreach := reach_history hs (step_live hst').1
  cases e with
  | cancel k =>
    obtain ⟨-, -, hc, ht, hf⟩ := cancel_unborn hst'
    simp only [placed] at he
    split at he
    · rename_i n hco
      rw [hco] at hc
      intro hcat
      have hn : n ∈ s'.2 := by
        rw [hl]
        exact List.mem_append_right _ (by simp [hits, hco, Coro.wait?])
      -- the coroutine goes on into `suspend`
      have hend : (history .async).step s'.1 .await =
          some ({ s'.1.1 with
            timer := { s'.1.1.timer with cancellationRequested := false }
            terminated := true }, s'.1.2) := by
        refine Sys.logged_step.mpr ⟨?_, by simp [endings]⟩
        refine step_of_live (ht ▸ (step_live hst').1) ?_
        simp only [liveStep, hc, suspendStep, Timer.suspend_cancelled hf]
      obtain ⟨-, t, hlt, hr⟩ := hcat.2 n hn _ (.step .await .refl trivial hend)
      rw [terminated_stays rfl hlt] at hr
      have hover := reach_over (hreach.later (.step (.cancel k) .refl trivial hst))
      rw [hover.results_nil (by rw [hc]; rfl)] at hr
      cases hr
    · cases he
  | _ => cases he

/-- **A `cancel()` yields a `timer_cancelled` that can be caught**, in the runs in which none comes
between `wait` and the section of `suspend` and every submission succeeds; and a step that is not
`placed` so takes it away. -/
theorem cancel_catchable (s : (St × List (Nat × Option Exception)) × List Nat) :
    (hitting.ReachBy (fun s e => placed s.1.1 e = true) s → Catchable s) ∧
    (hitting.Reach s → ∀ e s', placed s.1.1 e = false → hitting.step s e = some s' →
      ¬Catchable s') := by
  refine ⟨reach_catchable, fun hs e s' he hst => ?_⟩
  cases e with
  | base e => exact stray_cancel hs he hst
  | submitFails k =>
    intro hcat
    have := hcat.1
    rw [hitting_fails hst] at this
    cases this

/-- A parked wait is hit twice, a wait that does not suspend once. -/
def caughtRun : List Failing.Ev :=
  [.wait false, .await, .arm, .cancel 0, .cancel 1, .call 1, .call 1, .call 1, .check, .wait true,
    .cancel 2, .await, .check].map .base

theorem cancel_catchable_caught : Catchable (hitting.after caughtRun) ∧
    (hitting.after caughtRun).2 = [0, 0, 1] ∧
    (hitting.after caughtRun).1.2 = [(0, some .timerCancelled), (1, some .timerCancelled)] :=
  ⟨(cancel_catchable _).1 (Sys.reachBy_meets (by decide)), by decide, by decide⟩

/-- `cancel()` comes between `wait` and `await_suspend`. -/
def caughtLate : List Failing.Ev := [.wait false, .cancel 0, .await].map .base

/-- The program is terminated. -/
theorem cancel_terminates : ¬∀ s, hitting.Reach s → Catchable s := by
  intro h
  have := (h (hitting.after caughtLate) (Sys.reach_after (by decide))).1
  revert this
  decide

end Timers

end Corsl
