import Corsl.Timers.Endings

/-!
# Whom the timer of the thread pool belongs to

`async_timer::suspend` parks the handle in its section and calls `SetThreadpoolTimer` after it has
released the lock. The steps of `Timers.sys .async` are here, and beside its state: the durations of
the waits, the waits whose `suspend` has parked and has not armed the timer yet (`owed`; several, if
threads fall behind), and the calls of `SetThreadpoolTimer` in their order, each with where the
coroutine was.

* `prompt`: no `resume` takes the handle of a wait whose timer is still to be armed.
* `Current`: the timer is armed for the wait that is parked, and no call is made for a wait that was
  resumed.
* `timer_current`: this holds in the runs whose steps are `prompt`, and after a step that is not,
  the two threads can go on to a state where it does not.
-/

namespace Corsl

open Conc Function

namespace Timers

namespace Arming

/-- A call of `SetThreadpoolTimer`. -/
inductive SetCall where
  /-- Of wait `n`, with this due time. -/
  | suspend (n : Nat) (relativeCount : Int)
  /-- Without a due time. -/
  | cancel
  deriving DecidableEq, Repr

/-- An `async_timer`, with who arms it. -/
structure St where
  base : Timers.St := {}
  durations : Nat → Int := fun _ => 0
  /-- The waits whose `suspend` calls `SetThreadpoolTimer` next. -/
  owed : List Nat := []
  /-- The calls, and where the coroutine was. -/
  calls : List (SetCall × Coro) := []

/-- The atomic steps. -/
inductive Ev where
  | wait (duration : Int)
  /-- The end of the `suspend` of wait `n`. -/
  | arm (n : Nat)
  | other (e : Timers.Ev)
  deriving DecidableEq, Repr

/-- The wait that a step parks. -/
def parks (e : Timers.Ev) (base : Timers.St) : List Nat :=
  match e, base.coro with
  | .await, .parked n => [n]
  | _, _ => []

/-- The call that a step makes. -/
def sets (s : St) : Timers.Ev → List (SetCall × Coro)
  | .cancel _ => [(.cancel, s.base.coro)]
  | _ => []

/-- One atomic step. -/
def step (s : St) : Ev → Option St
  | .wait duration =>
    (Timers.step .async s.base (.wait (duration ≤ 0))).map fun base =>
      { s with base, durations := update s.durations s.base.waits duration }
  | .arm n =>
    if n ∈ s.owed then
      (Timers.step .async s.base .arm).map fun base => { s with
        base, owed := s.owed.erase n
        calls := s.calls ++ [(.suspend n (-s.durations n), s.base.coro)] }
    else none
  | .other (.wait _) | .other .arm => none
  | .other e =>
    (Timers.step .async s.base e).map fun base =>
      { s with base, owed := s.owed ++ parks e base, calls := s.calls ++ sets s e }

/-- The timer and the threads that use it. -/
def sys : Sys St Ev := ⟨{}, step⟩

/-- No `resume` takes the handle of a wait whose timer is to be armed. -/
def prompt (s : St) : Ev → Bool
  | .other e =>
    match s.base.timer.resumeLocation, s.base.resumer e with
    | some n, some _ => n ∉ s.owed
    | _, _ => true
  | _ => true

/-- The timer belongs to the current wait. -/
structure Current (s : St) : Prop where
  /-- Wait `n` is parked and its `suspend` is over: the last call is its own. -/
  armed : ∀ n, s.base.coro = .parked n → n ∉ s.owed →
    s.base.timer.cancellationRequested = false →
    s.calls.getLast?.map Prod.fst = some (.suspend n (-s.durations n))
  /-- A call for wait `n` was made while it was parked. -/
  early : ∀ c ∈ s.calls, ∀ n relativeCount, c.1 = .suspend n relativeCount → c.2 = .parked n

variable {s s' : St}

/-! ## One step -/

/-- One step, one constructor for each branch. -/
inductive Move (s : St) : Ev → St → Prop
  | wait (duration : Int) (base : Timers.St) :
    Timers.step .async s.base (.wait (duration ≤ 0)) = some base →
    Move s (.wait duration)
      { s with base, durations := update s.durations s.base.waits duration }
  | arm (n : Nat) (base : Timers.St) : n ∈ s.owed → Timers.step .async s.base .arm = some base →
    Move s (.arm n) { s with
      base, owed := s.owed.erase n
      calls := s.calls ++ [(.suspend n (-s.durations n), s.base.coro)] }
  | other (e : Timers.Ev) (base : Timers.St) : (∀ ready, e ≠ .wait ready) → e ≠ .arm →
    Timers.step .async s.base e = some base →
    Move s (.other e)
      { s with base, owed := s.owed ++ parks e base, calls := s.calls ++ sets s e }

theorem step_move {e : Ev} (h : step s e = some s') : Move s e s' := by
  unfold step at h
  split at h
  · obtain ⟨base, hb, rfl⟩ := Option.map_eq_some_iff.mp h
    exact .wait _ base hb
  · split at h
    · rename_i n hn
      obtain ⟨base, hb, rfl⟩ := Option.map_eq_some_iff.mp h
      exact .arm n base hn hb
    · cases h
  · cases h
  · cases h
  · rename_i e hw ha
    obtain ⟨base, hb, rfl⟩ := Option.map_eq_some_iff.mp h
    exact .other e base (fun ready he => hw ready he) (fun he => ha he) hb

theorem reach_base {ok} (hs : sys.ReachBy ok s) : (Timers.sys .async).Reach s.base := by
  induction hs with
  | init => exact .init
  | step e _ _ hst ih =>
    cases step_move hst with
    | wait d base hb => exact .step _ ih trivial hb
    | arm n base _ hb => exact .step _ ih trivial hb
    | other e base _ _ hb => exact .step _ ih trivial hb

/-! ## The runs that are prompt -/

/-- What carries the law: at most the wait that is parked is owed its timer. -/
structure Prompt (s : St) : Prop extends Current s where
  owed : ∀ n ∈ s.owed, s.base.coro = .parked n
  nodup : s.owed.Nodup

theorem Prompt.init : Prompt {} :=
  ⟨⟨fun _ h => (by cases h), fun _ h => (by cases h)⟩, fun _ h => (by cases h), .nil⟩

theorem Prompt.owed_nil (h : Prompt s) (hc : ∀ n, s.base.coro ≠ .parked n) : s.owed = [] :=
  List.eq_nil_iff_forall_not_mem.mpr fun n hn => hc n (h.owed n hn)

/-- A step after which no wait is parked, and none is owed its timer. -/
theorem Prompt.away (h : Prompt s) (ho : s'.owed = []) (hc : ∀ n, s'.base.coro ≠ .parked n)
    (he : ∀ c ∈ s'.calls, c ∈ s.calls ∨ c.1 = .cancel) : Prompt s' := by
  refine ⟨⟨fun n hn => absurd hn (hc n), fun c hcm n d hd => ?_⟩, ?_, ?_⟩
  · rcases he c hcm with hm | hm
    · exact h.early c hm n d hd
    · rw [hm] at hd
      cases hd
  · rw [ho]
    exact fun n hn => by cases hn
  · rw [ho]
    exact .nil

/-- A step that leaves the coroutine and the calls as they are. -/
theorem Prompt.same (h : Prompt s) (ho : s'.owed = s.owed) (hd : s'.durations = s.durations)
    (hcl : s'.calls = s.calls) (hc : s'.base.coro = s.base.coro)
    (hf : s'.base.timer.cancellationRequested = s.base.timer.cancellationRequested) :
    Prompt s' := by
  refine ⟨⟨?_, ?_⟩, ?_, ?_⟩
  · rw [ho, hd, hcl, hc, hf]
    exact h.armed
  · rw [hcl]
    exact h.early
  · rw [ho, hc]
    exact h.owed
  · rw [ho]
    exact h.nodup

/-- `suspend` makes its call. -/
theorem Prompt.arm (h : Prompt s) {n : Nat} (hn : n ∈ s.owed) {base : Timers.St}
    (hc : base.coro = s.base.coro) : Prompt { s with
      base, owed := s.owed.erase n
      calls := s.calls ++ [(.suspend n (-s.durations n), s.base.coro)] } := by
  have hpk := h.owed n hn
  refine ⟨⟨fun m hm _ _ => ?_, fun c hcm m d hd => ?_⟩, fun m hm => ?_, h.nodup.erase n⟩
  · simp only [hc, hpk, Coro.parked.injEq] at hm
    subst hm
    simp
  · rcases List.mem_append.mp hcm with hm | hm
    · exact h.early c hm m d hd
    · rw [List.mem_singleton.mp hm] at hd ⊢
      cases hd
      exact hpk
  · show base.coro = .parked m
    rw [hc]
    exact h.owed m (List.mem_of_mem_erase hm)

/-- `suspend` parks its handle. -/
theorem Prompt.park (h : Prompt s) {n : Nat} (hc : s.base.coro = .created n false)
    {base : Timers.St} (hb : base.coro = .parked n) :
    Prompt { s with base, owed := s.owed ++ [n], calls := s.calls ++ [] } := by
  have ho := h.owed_nil fun m hm => by rw [hc] at hm; cases hm
  refine ⟨⟨fun m hm hno => ?_, fun c hcm => ?_⟩, fun m hm => ?_, ?_⟩
  · simp only [hb, Coro.parked.injEq] at hm
    subst hm
    exact absurd (List.mem_append_right _ (by simp)) hno
  · rw [List.append_nil] at hcm
    exact h.early c hcm
  · simp only [ho, List.nil_append, List.mem_singleton] at hm
    rw [hm]
    exact hb
  · show (s.owed ++ [n]).Nodup
    rw [ho]
    simp

theorem Prompt.cancel (h : Prompt s) {base : Timers.St} (hc : base.coro = s.base.coro)
    (hf : base.timer.cancellationRequested = true) :
    Prompt { s with base, owed := s.owed ++ [], calls := s.calls ++ [(.cancel, s.base.coro)] } := by
  refine ⟨⟨fun m hm _ hf' => ?_, fun c hcm m d hd => ?_⟩, fun m hm => ?_, ?_⟩
  · simp only [hf] at hf'
    cases hf'
  · rcases List.mem_append.mp hcm with hm | hm
    · exact h.early c hm m d hd
    · rw [List.mem_singleton.mp hm] at hd
      cases hd
  · rw [List.append_nil] at hm
    show base.coro = .parked m
    rw [hc]
    exact h.owed m hm
  · rw [List.append_nil]
    exact h.nodup

/-- A `resume` takes the handle of a wait whose timer is armed. -/
theorem Prompt.take (h : Prompt s) {n : Nat} (hc : s.base.coro = .parked n) (hn : n ∉ s.owed)
    {base : Timers.St} (hb : base.coro = .resuming n true) {calls : List (SetCall × Coro)}
    (hcl : calls = s.calls) : Prompt { s with base, owed := s.owed ++ [], calls } := by
  refine h.away ?_ (fun m => by simp [hb]) fun c hcm => .inl (hcl ▸ hcm)
  rw [List.append_nil]
  refine List.eq_nil_iff_forall_not_mem.mpr fun m hm => ?_
  have := h.owed m hm
  rw [hc, Coro.parked.injEq] at this
  exact hn (this ▸ hm)

theorem prompt_take {e : Timers.Ev} {n : Nat} {seen : Option Nat}
    (hok : prompt s (.other e) = true) (hl : s.base.timer.resumeLocation = some n)
    (hr : s.base.resumer e = some seen) : n ∉ s.owed := by
  simpa [prompt, hl, hr] using hok

theorem Prompt.other (h : Prompt s) (hi : Inv s.base) {e : Timers.Ev} {base : Timers.St}
    (hok : prompt s (.other e) = true) (hb : Timers.step .async s.base e = some base)
    (hw : ∀ ready, e ≠ .wait ready) : Prompt
      { s with base, owed := s.owed ++ parks e base, calls := s.calls ++ sets s e } := by
  have hm := Timers.step_move hb
  obtain ⟨-, hs⟩ := step_live hb
  have idle : ∀ {n : Nat} {b : Bool}, s.base.coro = .resuming n b ∨ s.base.coro = .created n b →
      s.owed = [] := fun hc => h.owed_nil fun m hm => by rcases hc with hc | hc <;> simp [hc] at hm
  cases e with
  | wait ready => exact absurd rfl (hw ready)
  | await =>
    simp only [liveStep] at hs
    split at hs
    · rename_i n hc
      cases hs
      exact h.away (by simp [parks, idle (.inr hc)]) (fun m => by simp) fun c hcm => by
        simpa [sets] using Or.inl hcm
    · rename_i n hc
      cases hs
      by_cases hf : s.base.timer.cancellationRequested = true
      · rw [suspendStep, Timer.suspend_cancelled hf]
        exact h.away (by simp [parks, idle (.inr hc), hc]) (fun m => by simp [hc]) fun c hcm => by
          simpa [sets] using Or.inl hcm
      · rw [Bool.not_eq_true] at hf
        by_cases hl : s.base.timer.resumeLocation = none
        · rw [suspendStep, Timer.suspend_free hf hl]
          exact h.park hc rfl
        · rw [suspendStep, Timer.suspend_twice hf hl]
          exact h.away (by simp [parks, idle (.inr hc), hc]) (fun m => by simp [hc]) fun c hcm => by
            simpa [sets] using Or.inl hcm
    · cases hs
  | check =>
    simp only [liveStep] at hs
    split at hs
    · rename_i n b hc
      cases hs
      exact h.away (by simp [parks, idle (.inl hc)]) (fun m => by simp) fun c hcm => by
        simpa [sets] using Or.inl hcm
    · cases hs
  | callback k =>
    cases hm with
    | callbackTake k n hpc hl hc =>
      exact h.take hc (prompt_take hok hl (if_pos hpc)) rfl (List.append_nil _)
    | callbackLost k n hl hc => exact absurd ((hi.stored n).mp hl) hc
    | callbackEnd => exact h.same (List.append_nil _) rfl (List.append_nil _) rfl rfl
    | os => exact h.same (List.append_nil _) rfl (List.append_nil _) rfl rfl
  | cancel k =>
    obtain ⟨-, -, hc, -, hf⟩ := cancel_unborn hb
    exact h.cancel hc hf
  | call k =>
    cases hm with
    | cancelTake k n hpc hl hc =>
      exact h.take hc (prompt_take hok hl (if_pos hpc)) rfl (List.append_nil _)
    | cancelLost k n hl hc => exact absurd ((hi.stored n).mp hl) hc
    | drain => exact h.same (List.append_nil _) rfl (List.append_nil _) rfl rfl
    | os => exact h.same (List.append_nil _) rfl (List.append_nil _) rfl rfl
  | _ => cases hm <;> exact h.same (List.append_nil _) rfl (List.append_nil _) rfl rfl

theorem Prompt.step (h : Prompt s) (hi : Inv s.base) {e : Ev} (hok : prompt s e = true)
    (hst : step s e = some s') : Prompt s' := by
  cases step_move hst with
  | wait duration base hb =>
    obtain ⟨-, hs⟩ := step_live hb
    simp only [liveStep] at hs
    split at hs
    · rename_i hc
      cases hs
      exact h.away (h.owed_nil fun m => by simp [hc]) (fun m => by simp) fun c hcm => .inl hcm
    · cases hs
  | arm n base hn hb =>
    refine h.arm hn ?_
    cases Timers.step_move hb
    rfl
  | other e base hw _ hb => exact h.other hi hok hb hw

theorem reach_prompt (hs : sys.ReachBy (fun s e => prompt s e = true) s) : Prompt s :=
  hs.rec_on (I := fun s => Inv s.base) (fun _ h => reach_inv (reach_base h)) .init
    fun _ _ _ hi h hok hst => h.step hi hok hst

/-! ## A step that is not prompt -/

theorem resume_arming (s : Timers.St) :
    s.resume.arming = s.arming ∧ s.resume.terminated = s.terminated := by
  unfold Timers.St.resume
  split
  · exact ⟨rfl, rfl⟩
  · unfold Timers.St.wake
    split <;> exact ⟨rfl, rfl⟩

/-- The threads that arm the timer next, counted. -/
theorem arming_step {t base : Timers.St} {e : Timers.Ev}
    (h : Timers.step .async t e = some base) :
    base.arming + (if e = .arm then 1 else 0) = t.arming + (parks e base).length := by
  obtain ⟨-, h⟩ := step_live h
  have hr := (resume_arming t).1
  cases e with
  | await =>
    simp only [liveStep] at h
    split at h
    · cases h
      simp [parks]
    · rename_i n hc
      cases h
      by_cases hf : t.timer.cancellationRequested = true
      · simp [suspendStep, Timer.suspend_cancelled hf, parks, hc]
      · rw [Bool.not_eq_true] at hf
        by_cases hl : t.timer.resumeLocation = none
        · simp [suspendStep, Timer.suspend_free hf hl, parks]
        · simp [suspendStep, Timer.suspend_twice hf hl, parks, hc]
    · cases h
  | arm =>
    simp only [liveStep] at h
    split at h
    · cases h
      simp [parks]
      omega
    · cases h
  | callback k =>
    simp only [liveStep, callbackStep] at h
    split at h
    · cases h
      exact hr
    · split at h <;> cases h
      rfl
    · cases h
  | call k =>
    simp only [liveStep, callStep] at h
    split at h
    · cases h
      rfl
    · split at h <;> cases h
      rfl
    · cases h
      exact hr
    · cases h
  | _ =>
    simp only [liveStep] at h
    split at h <;> cases h
    rfl

theorem reach_owed (hs : sys.Reach s) : s.owed.length = s.base.arming := by
  induction hs with
  | init => rfl
  | step e _ _ hst ih =>
    cases step_move hst with
    | wait d base hb =>
      have := arming_step hb
      simp only [parks, reduceCtorEq, if_false, List.length_nil] at this
      simp only
      omega
    | arm n base hn hb =>
      have := arming_step hb
      have hpos := List.length_pos_of_mem hn
      simp only [parks, if_true, List.length_nil] at this
      simp only [List.length_erase_of_mem hn]
      omega
    | other e base _ ha hb =>
      have := arming_step hb
      rw [if_neg ha] at this
      simp only [List.length_append]
      omega

theorem step_check {base : Timers.St} (hb : Timers.step .async s.base .check = some base) :
    step s (.other .check) = some { s with
      base, owed := s.owed ++ parks .check base, calls := s.calls ++ sets s .check } := by
  simp only [step, hb, Option.map_some]

theorem step_arm {n : Nat} {base : Timers.St} (hn : n ∈ s.owed)
    (hb : Timers.step .async s.base .arm = some base) :
    step s (.arm n) = some { s with
      base, owed := s.owed.erase n
      calls := s.calls ++ [(.suspend n (-s.durations n), s.base.coro)] } := by
  simp only [step, hn, if_true, hb, Option.map_some]

/-- `await_resume`, of whichever wait, leaves the coroutine idle and the threads as they are. -/
theorem check_idle {n : Nat} {b : Bool} (hc : s.base.coro = .resuming n b)
    (ht : s.base.terminated = false) : ∃ s', step s (.other .check) = some s' ∧
      s'.base.coro = .idle ∧ s'.base.terminated = false ∧ s'.base.arming = s.base.arming ∧
      s'.owed = s.owed := by
  have hb : Timers.step .async s.base .check = some { s.base with
      timer := s.base.timer.checkException.2, coro := .idle
      ended := s.base.ended ++ if b then [(n, s.base.timer.checkException.1)] else [] } :=
    step_of_live ht (by simp only [liveStep, hc])
  exact ⟨_, step_check hb, rfl, ht, rfl, List.append_nil _⟩

theorem arm_calls {n : Nat} (hn : n ∈ s.owed) (ha : 0 < s.base.arming)
    (ht : s.base.terminated = false) : ∃ s', step s (.arm n) = some s' ∧
      s'.calls = s.calls ++ [(.suspend n (-s.durations n), s.base.coro)] := by
  have hb : Timers.step .async s.base .arm = some { s.base with
      os := s.base.os.set false, arming := s.base.arming - 1 } :=
    step_of_live ht (by simp only [liveStep, ha, if_true])
  exact ⟨_, step_arm hn hb, rfl⟩

/-- A `resume` that is not prompt: the coroutine runs while its wait is owed its timer. -/
theorem stray_owed (hi : Inv s.base) {e : Ev} (he : prompt s e = false) (hst : step s e = some s') :
    ∃ n, n ∈ s'.owed ∧ s'.base.coro = .resuming n true ∧ s'.base.terminated = false := by
  unfold prompt at he
  split at he
  · split at he
    · rename_i n seen hl hr
      have hn : n ∈ s.owed := by simpa using he
      cases step_move hst with
      | other _ base hw ha hb =>
        obtain ⟨-, hc, -, ht⟩ := resumer_takes hi hb (by rw [hr]; rfl) hl
        exact ⟨n, List.mem_append_left _ hn, hc, ht⟩
    · cases he
  · cases he

/-- The coroutine goes on to leave the wait, and then its `suspend` makes the call. -/
theorem stray_arms (hs : sys.Reach s) {e : Ev} (he : prompt s e = false)
    (hst : step s e = some s') :
    ∃ n s'', sys.exec s' [.other .check, .arm n] = some s'' ∧ ¬Current s'' := by
  have hlen := reach_owed (hs.step e trivial hst)
  obtain ⟨n, hn, hc, ht⟩ := stray_owed (reach_inv (reach_base hs)) he hst
  obtain ⟨t, hchk, hidle, ht', har, how⟩ := check_idle hc ht
  have hn' : n ∈ t.owed := how ▸ hn
  have hpos : 0 < t.base.arming := by
    rw [har, ← hlen]
    exact List.length_pos_of_mem hn
  obtain ⟨u, harm, hcalls⟩ := arm_calls hn' hpos ht'
  refine ⟨n, u, ?_, fun hcur => ?_⟩
  · simp only [Sys.exec, sys, hchk, harm, Option.bind_some]
  · have := hcur.early (.suspend n (-t.durations n), t.base.coro) (by simp [hcalls]) n _ rfl
    rw [hidle] at this
    cases this

/-- **The timer belongs to the current wait**, in the runs in which no `resume` takes a handle whose
timer is still to be armed; and one that does lets the call come too late. -/
theorem timer_current (s : St) :
    (sys.ReachBy (fun s e => prompt s e = true) s → Current s) ∧
    (sys.Reach s → ∀ e s', prompt s e = false → step s e = some s' →
      ∃ n s'', sys.exec s' [.other .check, .arm n] = some s'' ∧ ¬Current s'') :=
  ⟨fun hs => (reach_prompt hs).toCurrent, fun hs _ _ he hst => stray_arms hs he hst⟩

/-- A wait is cancelled, and the next one, of another duration, is armed. -/
def promptRun : List Ev :=
  [.wait 5, .other .await, .arm 0, .other (.cancel 0), .other (.call 0), .other (.call 0),
    .other (.call 0), .other .check, .wait 3, .other .await, .arm 1]

theorem timer_current_prompt : Current (sys.after promptRun) ∧
    (sys.after promptRun).base.coro = .parked 1 ∧
    (sys.after promptRun).calls.getLast?.map Prod.fst = some (.suspend 1 (-3)) :=
  ⟨(timer_current _).1 (Sys.reachBy_meets (by decide)), by decide, by decide⟩

/-- `cancel()` resumes wait 0 before its `suspend` has armed the timer; wait 1 parks and arms it,
and then the `suspend` of wait 0 does. -/
def belatedRun : List Ev :=
  [.wait 5, .other .await, .other (.cancel 0), .other (.call 0), .other (.call 0),
    .other (.call 0), .other .check, .wait 3, .other .await, .arm 1, .arm 0]

/-- The timer that wait 1 has is that of wait 0. -/
theorem timer_belated : ¬∀ s, sys.Reach s → Current s := by
  intro h
  have := (h (sys.after belatedRun) (Sys.reach_after (by decide))).armed 1
    (by decide) (by decide) (by decide)
  revert this
  decide

end Arming

end Timers

end Corsl
