import Corsl.Timers.Endings

/-!
# What an `async_timer` leaves behind

A coroutine may destroy its timer when its wait is over. Then nothing may use the timer any more: no
`suspend` that has still to arm it, no expiry, and no callback that comes to `resume(false)`.

* `Unused`: nothing of this is left.
* `orderly`: no `cancel` raises the flag while a `suspend` is between its section and its
  `SetThreadpoolTimer`, and no `cancel` takes a handle that was not parked when it raised the flag.
* `Tidy`: the invariant. A wait has one timer at most, on its way from `suspend` to the callback; a
  `cancel` that has seen the wait takes it away.
* `Tidy.unused`: nothing is left then when no wait is parked. `timer_left`: without that order,
  something may be.
-/

namespace Corsl

open Conc Function

namespace Timers

/-- Nothing uses the timer but the coroutine and the calls of `cancel`. -/
structure Unused (s : St) : Prop where
  arming : s.arming = 0
  armed : s.os.armed = false
  queued : s.os.queued = 0
  dispatched : ∀ k, (s.callbacks k).pc ≠ .dispatched

/-- The step is in order (module doc). -/
def orderly (s : St) : Ev → Bool
  | .cancel _ => s.arming = 0
  | .call k => (s.cancels k).pc ≠ .trailing || s.timer.resumeLocation = none ||
      s.timer.resumeLocation = (s.cancels k).seen
  | _ => true

/-- The ways that the timer of a wait has before its callback is dispatched. -/
def St.pending (s : St) : Nat := s.arming + (if s.os.armed then 1 else 0) + s.os.queued

/-- The invariant of the runs that are in order (module doc). -/
structure Tidy (s : St) : Prop where
  numbered : ∀ i, (s.callbacks i).pc ≠ .unborn → i < s.started
  once : s.os.periodic = false
  one : s.pending ≤ 1
  alone : ∀ k, (s.callbacks k).pc = .dispatched → s.pending = 0
  unique : ∀ k k', (s.callbacks k).pc = .dispatched → (s.callbacks k').pc = .dispatched → k = k'
  away : s.timer.resumeLocation = none → s.pending = 0 ∧ ∀ k, (s.callbacks k).pc ≠ .dispatched
  raised : ∀ k n, (s.cancels k).pc.active = true → (s.cancels k).seen = some n →
    s.timer.resumeLocation = some n → s.arming = 0 ∧ s.os.armed = false
  draining : ∀ k n ks, (s.cancels k).pc = .draining ks → (s.cancels k).seen = some n →
    s.timer.resumeLocation = some n →
    s.os.queued = 0 ∧ ∀ i, (s.callbacks i).pc = .dispatched → i ∈ ks
  trailing : ∀ k n, (s.cancels k).pc = .trailing → (s.cancels k).seen = some n →
    s.timer.resumeLocation = some n →
    s.os.queued = 0 ∧ ∀ i, (s.callbacks i).pc ≠ .dispatched

variable {s s' : St} {e : Ev}

theorem Tidy.init : Tidy {} := by
  constructor <;> simp [St.pending]

/-- What a step does to the callbacks of the timer. -/
theorem callbacks_step {kind : Kind} (h : step kind s e = some s') :
    (s'.callbacks = s.callbacks ∧ s'.started = s.started) ∨
    (e = .dispatch ∧ s'.started = s.started + 1 ∧
      ∃ c, s'.callbacks = update s.callbacks s.started c) ∨
    ∃ k c, e = .callback k ∧ s'.started = s.started ∧ (s.callbacks k).pc ≠ .unborn ∧
      c.pc ≠ .unborn ∧ s'.callbacks = update s.callbacks k c := by
  have hm := step_move h
  obtain ⟨-, hs⟩ := step_live h
  cases e with
  | callback k =>
    right; right
    simp only [liveStep, callbackStep] at hs
    split at hs
    · rename_i hpc
      cases hs
      refine ⟨k, _, rfl, ?_, by simp [hpc], ?_, rfl⟩
      · cases hl : s.timer.resumeLocation with
        | none => rw [St.resume_none hl]
        | some n =>
          by_cases hc : s.coro = .parked n
          · rw [St.resume_parked hl hc]; rfl
          · rw [St.resume_lost hl hc]; rfl
      · dsimp only
        split <;> simp
    · rename_i n hpc
      split at hs
      · cases hs
      · cases hs
        exact ⟨k, _, rfl, rfl, by simp [hpc], by simp, rfl⟩
    · cases hs
  | dispatch =>
    simp only [liveStep] at hs
    split at hs
    · cases hs
      exact .inr (.inl ⟨rfl, rfl, _, rfl⟩)
    · cases hs
  | _ =>
    left
    cases hm <;> exact ⟨rfl, rfl⟩

theorem numbered_step {kind : Kind} (h : step kind s e = some s')
    (hn : ∀ i, (s.callbacks i).pc ≠ .unborn → i < s.started) :
    ∀ i, (s'.callbacks i).pc ≠ .unborn → i < s'.started := by
  intro i hi
  obtain ⟨hc, hs⟩ | ⟨-, hs, c, hc⟩ | ⟨k, c, -, hs, hk, -, hc⟩ := callbacks_step h
  · rw [hs]
    exact hn i (hc ▸ hi)
  · rw [hs]
    by_cases hit : i = s.started
    · omega
    · rw [hc, update_of_ne hit] at hi
      exact Nat.lt_succ_of_lt (hn i hi)
  · rw [hs]
    by_cases hik : i = k
    · exact hn i (hik ▸ hk)
    · rw [hc, update_of_ne hik] at hi
      exact hn i hi

/-- A step that leaves the timer and the threads alone. -/
theorem Tidy.same (h : Tidy s) (ho : s'.os = s.os) (ha : s'.arming = s.arming)
    (hc : s'.callbacks = s.callbacks) (hs : s'.started = s.started)
    (hl : s'.timer.resumeLocation = s.timer.resumeLocation) (hcan : s'.cancels = s.cancels) :
    Tidy s' := by
  obtain ⟨h1, h2, h3, h4, h5, h6, h7, h8, h9⟩ := h
  have hp : s'.pending = s.pending := by simp [St.pending, ho, ha]
  constructor <;> simp only [ho, ha, hc, hs, hl, hcan, hp] <;> assumption

/-- `suspend` parks wait `n`. -/
theorem Tidy.park (h : Tidy s) {n : Nat} (hl : s.timer.resumeLocation = none)
    (hn : ∀ k, (s.cancels k).seen ≠ some n) (coro : Coro) (flag : Bool) :
    Tidy { s with
      timer := { resumeLocation := some n, cancellationRequested := flag }
      coro, arming := s.arming + 1 } := by
  obtain ⟨hz, hd⟩ := h.away hl
  obtain ⟨h1, h2, -, -, -, -, -, -, -⟩ := h
  have hp : s.pending + 1 = ({ s with arming := s.arming + 1 } : St).pending := by
    simp only [St.pending]; omega
  refine ⟨h1, h2, ?_, fun k hk => absurd hk (hd k), fun k _ hk => absurd hk (hd k), by simp,
    ?_, ?_, ?_⟩
  · exact (hp.symm.trans (by rw [hz])).le
  · rintro k m - hs hm
    cases hm
    exact absurd hs (hn k)
  · rintro k m ks - hs hm
    cases hm
    exact absurd hs (hn k)
  · rintro k m - hs hm
    cases hm
    exact absurd hs (hn k)

/-- A wait is parked, and its timer is on its way. -/
theorem Tidy.waits (h : Tidy s) (hp : s.pending ≠ 0) : ∃ n, s.timer.resumeLocation = some n :=
  Option.ne_none_iff_exists'.mp fun hl => hp (h.away hl).1

/-- The timer of the wait that is parked goes on its way. -/
theorem Tidy.move (h : Tidy s) {os : OsTimer} {arming : Nat} (hone : os.periodic = false)
    (hp : ({ s with os, arming } : St).pending = s.pending) (hz : s.pending ≠ 0)
    (hr : s.arming ≠ 0 ∨ s.os.armed = true) : Tidy { s with os, arming } := by
  -- no call has seen the wait, since it would have taken the timer away
  have hn : ∀ k n, (s.cancels k).pc.active = true → (s.cancels k).seen = some n →
      s.timer.resumeLocation ≠ some n := fun k n ha hs hl => by
    obtain ⟨h1, h2⟩ := h.raised k n ha hs hl
    obtain hr | hr := hr
    · exact hr h1
    · cases hr.symm.trans h2
  refine ⟨h.numbered, hone, hp.trans_le h.one, fun k hk => absurd (h.alone k hk) hz, h.unique,
    fun hl => absurd (h.away hl).1 hz, fun k n ha hs hl => absurd hl (hn k n ha hs),
    fun k n ks ha hs hl => absurd hl (hn k n ?_ hs), fun k n ha hs hl => absurd hl (hn k n ?_ hs)⟩
  · rw [ha]
    rfl
  · rw [ha]
    rfl

theorem Tidy.arm (h : Tidy s) (hst : step .async s .arm = some s') : Tidy s' := by
  obtain ⟨-, hs⟩ := step_live hst
  simp only [liveStep] at hs
  split at hs
  · rename_i ha
    cases hs
    have hone := h.one
    unfold St.pending at hone
    have hna : s.os.armed = false := by
      by_contra hna
      rw [Bool.not_eq_false] at hna
      simp only [hna, if_true] at hone
      omega
    refine h.move rfl ?_ ?_ (.inl (Nat.ne_of_gt ha))
    · simp only [St.pending, OsTimer.set, hna, Bool.false_eq_true, if_true, if_false]
      omega
    · simp only [St.pending]
      omega
  · cases hs

theorem Tidy.expire (h : Tidy s) (hst : step .async s .expire = some s') : Tidy s' := by
  obtain ⟨-, hs⟩ := step_live hst
  simp only [liveStep] at hs
  split at hs
  · rename_i ha
    cases hs
    refine h.move h.once ?_ ?_ (.inr ha)
    · simp only [St.pending, OsTimer.expire, ha, h.once, Bool.false_eq_true, if_true, if_false]
      omega
    · simp only [St.pending, ha, if_true]
      omega
  · cases hs

theorem Tidy.dispatch (h : Tidy s) (hst : step .async s .dispatch = some s') : Tidy s' := by
  have hnum := numbered_step hst h.numbered
  obtain ⟨-, hs⟩ := step_live hst
  simp only [liveStep] at hs
  split at hs
  · rename_i hq
    cases hs
    have hone := h.one
    unfold St.pending at hone
    have hz : s.pending ≠ 0 := by
      unfold St.pending
      omega
    have hnone : ∀ k, (s.callbacks k).pc ≠ .dispatched := fun k hk => hz (h.alone k hk)
    have hp : s.arming + (if s.os.armed then 1 else 0) + (s.os.queued - 1) = 0 := by omega
    have hself : ∀ k c, (update s.callbacks s.started c k).pc = .dispatched → k = s.started := by
      intro k c hk
      by_contra hne
      rw [update_of_ne hne] at hk
      exact hnone k hk
    refine ⟨hnum, h.once, Nat.le_of_eq hp |>.trans (Nat.zero_le _), fun _ _ => hp,
      fun k k' hk hk' => (hself k _ hk).trans (hself k' _ hk').symm,
      fun hl => absurd (h.away hl).1 hz, h.raised,
      fun k n ks hk hs hl => ?_, fun k n hk hs hl => ?_⟩
    · have := (h.draining k n ks hk hs hl).1
      omega
    · have := (h.trailing k n hk hs hl).1
      omega
  · cases hs

/-- No wait is parked, and nothing is left of the timer. -/
theorem Tidy.empty (hn : ∀ i, (s.callbacks i).pc ≠ .unborn → i < s.started)
    (hone : s.os.periodic = false) (hl : s.timer.resumeLocation = none) (hp : s.pending = 0)
    (hd : ∀ k, (s.callbacks k).pc ≠ .dispatched) : Tidy s := by
  have hl' : ∀ n, s.timer.resumeLocation ≠ some n := fun n hn => by cases hl.symm.trans hn
  exact ⟨hn, hone, by omega, fun k hk => absurd hk (hd k), fun k _ hk => absurd hk (hd k),
    fun _ => ⟨hp, hd⟩, fun k n _ _ h => absurd h (hl' n), fun k n ks _ _ h => absurd h (hl' n),
    fun k n _ _ h => absurd h (hl' n)⟩

theorem Tidy.callback (h : Tidy s) (hi : Inv s) {k : Nat}
    (hst : step .async s (.callback k) = some s') : Tidy s' := by
  have hnum := numbered_step hst h.numbered
  obtain ⟨-, hs⟩ := step_live hst
  simp only [liveStep, callbackStep] at hs
  split at hs
  · rename_i hpc
    cases hl : s.timer.resumeLocation with
    | none => exact absurd hpc ((h.away hl).2 k)
    | some n =>
      rw [hl, St.resume_parked hl ((hi.stored n).mp hl)] at hs
      cases hs
      refine .empty hnum h.once rfl (h.alone k hpc) fun k' hk' => ?_
      by_cases hkk : k' = k
      · simp [hkk] at hk'
      · simp only [update_of_ne hkk] at hk'
        exact hkk (h.unique k' k hk' hpc)
  · rename_i n hpc
    split at hs
    · cases hs
    · cases hs
      -- it is past `resume(false)`
      have hd : ∀ i, (update s.callbacks k { s.callbacks k with pc := .done } i).pc = .dispatched →
          (s.callbacks i).pc = .dispatched := fun i hi => by
        by_cases hik : i = k
        · simp [hik] at hi
        · rwa [update_of_ne hik] at hi
      exact ⟨hnum, h.once, h.one, fun i hi => h.alone i (hd i hi),
        fun i j hi hj => h.unique i j (hd i hi) (hd j hj),
        fun hl => ⟨(h.away hl).1, fun i hi => (h.away hl).2 i (hd i hi)⟩, h.raised,
        fun j m ks hk hs hl => ⟨(h.draining j m ks hk hs hl).1,
          fun i hi => (h.draining j m ks hk hs hl).2 i (hd i hi)⟩,
        fun j m hk hs hl => ⟨(h.trailing j m hk hs hl).1,
          fun i hi => (h.trailing j m hk hs hl).2 i (hd i hi)⟩⟩
  · cases hs

/-- A `cancel` takes the timer away from the wait that it sees. -/
theorem Tidy.cancel (h : Tidy s) {k : Nat} (hok : orderly s (.cancel k) = true)
    (hst : step .async s (.cancel k) = some s') : Tidy s' := by
  have ha : s.arming = 0 := by simpa [orderly] using hok
  obtain ⟨-, hs⟩ := step_live hst
  simp only [liveStep] at hs
  split at hs
  · cases hs
    have hle : s.arming + 0 + s.os.queued ≤ s.pending := by
      unfold St.pending
      omega
    refine ⟨h.numbered, h.once, hle.trans h.one, fun i hi => ?_, h.unique,
      fun hl => ⟨?_, (h.away hl).2⟩, fun j n _ _ _ => ⟨ha, rfl⟩,
      fun j n ks hj hs hl => ?_, fun j n hj hs hl => ?_⟩
    · exact Nat.le_zero.mp (hle.trans (h.alone i hi).le)
    · exact Nat.le_zero.mp (hle.trans (h.away hl).1.le)
    · by_cases hjk : j = k
      · subst hjk
        simp only [update_self] at hj
        split at hj <;> cases hj
      · simp only [update_of_ne hjk] at hj hs
        exact h.draining j n ks hj hs hl
    · by_cases hjk : j = k
      · -- it has seen a wait, so it does not come here yet
        subst hjk
        simp only [update_self] at hj hs
        simp [Timer.raise, hs] at hj
      · simp only [update_of_ne hjk] at hj hs
        exact h.trailing j n hj hs hl
  · cases hs

/-- The call of `cancel` goes to `pc`. -/
theorem Tidy.goto (h : Tidy s) {k : Nat} (pc : CancelPc) (ha : (s.cancels k).pc.active = true)
    (hd : ∀ n ks, pc = .draining ks → (s.cancels k).seen = some n →
      s.timer.resumeLocation = some n →
      s.os.queued = 0 ∧ ∀ i, (s.callbacks i).pc = .dispatched → i ∈ ks)
    (ht : ∀ n, pc = .trailing → (s.cancels k).seen = some n → s.timer.resumeLocation = some n →
      s.os.queued = 0 ∧ ∀ i, (s.callbacks i).pc ≠ .dispatched) : Tidy (s.setCancel k pc) := by
  refine ⟨h.numbered, h.once, h.one, h.alone, h.unique, h.away, fun j n hj hs hl => ?_,
    fun j n ks hj hs hl => ?_, fun j n hj hs hl => ?_⟩ <;> simp only [St.setCancel] at hj hs <;>
    by_cases hjk : j = k
  · subst hjk
    simp only [update_self] at hs
    exact h.raised j n ha hs hl
  · rw [update_of_ne hjk] at hj hs
    exact h.raised j n hj hs hl
  · subst hjk
    simp only [update_self] at hj hs
    exact hd n ks hj hs hl
  · rw [update_of_ne hjk] at hj hs
    exact h.draining j n ks hj hs hl
  · subst hjk
    simp only [update_self] at hj hs
    exact ht n hj hs hl
  · rw [update_of_ne hjk] at hj hs
    exact h.trailing j n hj hs hl

/-- `WaitForThreadpoolTimerCallbacks` drops what is queued. -/
theorem Tidy.drop (h : Tidy s) : Tidy { s with os := s.os.drop } := by
  have hle : ({ s with os := s.os.drop } : St).pending ≤ s.pending :=
    Nat.add_le_add_left (Nat.zero_le s.os.queued) _
  refine ⟨h.numbered, h.once, hle.trans h.one, fun i hi => ?_, h.unique,
    fun hl => ⟨?_, (h.away hl).2⟩, h.raised,
    fun j n ks hj hs hl => ⟨rfl, (h.draining j n ks hj hs hl).2⟩,
    fun j n hj hs hl => ⟨rfl, (h.trailing j n hj hs hl).2⟩⟩
  · exact Nat.le_zero.mp (hle.trans (h.alone i hi).le)
  · exact Nat.le_zero.mp (hle.trans (h.away hl).1.le)

theorem Tidy.call (h : Tidy s) (hi : Inv s) {k : Nat} (hok : orderly s (.call k) = true)
    (hst : step .async s (.call k) = some s') : Tidy s' := by
  have hnum := numbered_step hst h.numbered
  obtain ⟨-, hs⟩ := step_live hst
  simp only [liveStep, callStep] at hs
  split at hs
  · rename_i hpc
    cases hs
    refine h.drop.goto (.draining s.running) (by simp [hpc, CancelPc.active]) ?_ (by simp)
    intro n ks hks _ _
    cases hks
    refine ⟨rfl, fun i hi => mem_running.mpr ⟨h.numbered i ?_, ?_⟩⟩
    · intro hu
      cases hu.symm.trans hi
    · intro hd
      cases hd.symm.trans hi
  · rename_i ks hpc
    split at hs
    · rename_i hall
      cases hs
      refine h.goto .trailing (by simp [hpc, CancelPc.active]) (by simp) fun n _ hs hl => ?_
      obtain ⟨hq, hd⟩ := h.draining k n ks hpc hs hl
      refine ⟨hq, fun i hi => ?_⟩
      have := List.all_eq_true.mp hall i (hd i hi)
      simp [hi] at this
    · cases hs
  · rename_i hpc
    cases hs
    cases hl : s.timer.resumeLocation with
    | none =>
      rw [St.resume_none hl]
      exact h.goto .done (by simp [hpc, CancelPc.active]) (by simp) (by simp)
    | some n =>
      -- it has seen this wait
      have hseen : (s.cancels k).seen = some n := by
        simpa [orderly, hpc, hl, eq_comm] using hok
      have hact : (s.cancels k).pc.active = true := by simp [hpc, CancelPc.active]
      obtain ⟨ha, harm⟩ := h.raised k n hact hseen hl
      obtain ⟨hq, hd⟩ := h.trailing k n hpc hseen hl
      rw [St.resume_parked hl ((hi.stored n).mp hl)] at hnum ⊢
      exact .empty hnum h.once rfl (by simp [St.pending, St.taken, ha, harm, hq]) hd
  · cases hs

theorem Tidy.step (h : Tidy s) (hi : Inv s) (hok : orderly s e = true)
    (hst : step .async s e = some s') : Tidy s' := by
  obtain ⟨-, hs⟩ := step_live hst
  cases e with
  | wait ready =>
    simp only [liveStep] at hs
    split at hs <;> cases hs
    exact h.same rfl rfl rfl rfl rfl rfl
  | await =>
    simp only [liveStep] at hs
    split at hs
    · cases hs
      exact h.same rfl rfl rfl rfl rfl rfl
    · rename_i n hc
      cases hs
      by_cases hf : s.timer.cancellationRequested = true
      · rw [suspendStep, Timer.suspend_cancelled hf]
        exact h.same rfl rfl rfl rfl rfl rfl
      · rw [Bool.not_eq_true] at hf
        by_cases hl : s.timer.resumeLocation = none
        · rw [suspendStep, Timer.suspend_free hf hl]
          exact h.park hl (fun k => hi.unseen k n false hc) _ _
        · rw [suspendStep, Timer.suspend_twice hf hl]
          exact h.same rfl rfl rfl rfl rfl rfl
    · cases hs
  | check =>
    simp only [liveStep] at hs
    split at hs
    · cases hs
      refine h.same rfl rfl rfl rfl ?_ rfl
      by_cases hf : s.timer.cancellationRequested = true
      · rw [Timer.checkException_cancelled hf]
      · rw [Timer.checkException_clear (by simpa using hf)]
    · cases hs
  | arm => exact h.arm hst
  | start periodic => simp [liveStep] at hs
  | stop => simp [liveStep] at hs
  | expire => exact h.expire hst
  | dispatch => exact h.dispatch hst
  | callback k => exact h.callback hi hst
  | cancel k => exact h.cancel hok hst
  | call k => exact h.call hi hok hst

/-- Nothing is left when no wait is parked. -/
theorem Tidy.unused (h : Tidy s) (hi : Inv s) (hc : ∀ n, s.coro ≠ .parked n) : Unused s := by
  obtain ⟨hp, hd⟩ := h.away (Option.eq_none_iff_forall_ne_some.mpr fun n hn =>
    hc n ((hi.stored n).mp hn))
  unfold St.pending at hp
  cases ha : s.os.armed with
  | true =>
    rw [ha, if_pos rfl] at hp
    omega
  | false =>
    rw [ha, if_neg (by decide)] at hp
    exact ⟨by omega, ha, by omega, hd⟩

/-- A `cancel` in the middle of `suspend`: the coroutine goes on before its timer is armed. -/
def earlyRun : List Ev := [.wait false, .await, .cancel 0, .call 0, .call 0, .call 0]

/-- A `cancel` that has found no wait takes the next one: its timer stays armed. -/
def strayRun : List Ev := [.cancel 0, .wait false, .await, .arm, .call 0]

theorem timer_left : ¬Unused ((sys .async).after earlyRun) ∧
    ¬Unused ((sys .async).after strayRun) ∧
    (∀ n, ((sys .async).after earlyRun).coro ≠ .parked n) ∧
    ∀ n, ((sys .async).after strayRun).coro ≠ .parked n :=
  ⟨fun h => absurd h.arming (by decide), fun h => absurd h.armed (by decide),
    fun n => by simp [show ((sys .async).after earlyRun).coro = .resuming 0 true from rfl],
    fun n => by simp [show ((sys .async).after strayRun).coro = .resuming 0 true from rfl]⟩

end Timers

end Corsl
