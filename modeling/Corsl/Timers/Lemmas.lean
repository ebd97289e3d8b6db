import Corsl.Timers.Basic

/-!
# A wait that returns has seen its timer expire

* `Move`: what one step does, one constructor for each branch; `step_move` is the inversion.
* `Inv`: the continuation that is stored is that of the wait that is parked, and while a wait that a
  `cancel()` has seen is parked, the flag that it has raised is up: only the coroutine clears it.
* `stray`: a `resume` that takes the continuation of a wait that parked after the call of `cancel`
  had raised the flag, or after the callback was dispatched, with the flag down and no later
  callback for it.
* `wait_returns`: in the runs without such a step no wait returns unless a callback was dispatched
  while it was parked. A run with one can be continued to a wait that does.
-/

namespace Corsl

open Conc Function

namespace Timers

/-- The call has raised the flag, and has not taken the continuation yet. -/
@[grind =] def CancelPc.active : CancelPc → Bool
  | .raised | .draining _ | .trailing => true
  | .unborn | .done => false

/-- The wait that the coroutine is in. -/
@[grind =] def Coro.wait? : Coro → Option Nat
  | .idle => none
  | .created n _ | .parked n | .resuming n _ => some n

/-! ## What one step does -/

namespace St

/-- The continuation of wait `n` is taken and resumed. -/
def taken (s : St) (n : Nat) : St :=
  { s with timer := { s.timer with resumeLocation := none }, coro := .resuming n true }

/-- It is taken, and the coroutine is elsewhere. -/
def lost (s : St) : St :=
  { s with timer := { s.timer with resumeLocation := none }, undefined := true }

def setCancel (s : St) (k : Nat) (pc : CancelPc) : St :=
  { s with cancels := update s.cancels k { s.cancels k with pc } }

def setCallback (s : St) (k : Nat) (pc : CallbackPc) : St :=
  { s with callbacks := update s.callbacks k { s.callbacks k with pc } }

end St

/-- One step, one constructor for each branch. -/
inductive Move (s : St) : Ev → St → Prop
  | wait (ready flag : Bool) : s.coro = .idle →
    (flag = true → s.timer.cancellationRequested = true) →
    Move s (.wait ready) { s with
      timer := { s.timer with cancellationRequested := flag }
      coro := .created s.waits ready, waits := s.waits + 1 }
  | ready (n : Nat) : s.coro = .created n true →
    Move s .await { s with coro := .resuming n false }
  | park (n arming : Nat) : s.coro = .created n false →
    s.timer.cancellationRequested = false → s.timer.resumeLocation = none →
    Move s .await { s with
      timer := { s.timer with resumeLocation := some n }, coro := .parked n, arming }
  /-- `suspend` throws, or the program ends. -/
  | refuse (n : Nat) (terminated : Bool) (coro : Coro) : s.coro = .created n false →
    coro = .created n false ∨ coro = .idle →
    Move s .await { s with
      timer := { s.timer with cancellationRequested := false }, coro, terminated }
  | twice (n : Nat) : s.coro = .created n false → s.timer.resumeLocation ≠ none →
    Move s .await { s with undefined := true }
  | throws (n : Nat) (wasParked : Bool) : s.coro = .resuming n wasParked →
    s.timer.cancellationRequested = true →
    Move s .check { s with
      timer := { s.timer with cancellationRequested := false }, coro := .idle
      ended := s.ended ++ if wasParked then [(n, some .timerCancelled)] else [] }
  | returns (n : Nat) (wasParked : Bool) : s.coro = .resuming n wasParked →
    s.timer.cancellationRequested = false →
    Move s .check { s with
      coro := .idle, ended := s.ended ++ if wasParked then [(n, none)] else [] }
  | os (e : Ev) (os : OsTimer) (arming : Nat) : Move s e { s with os, arming }
  | dispatch (os : OsTimer) : Move s .dispatch { s with
      os, started := s.started + 1
      callbacks := update s.callbacks s.started
        { pc := .dispatched, seen := s.timer.resumeLocation }
      dispatched := s.dispatched ++ s.timer.resumeLocation.toList }
  | callbackTake (k n : Nat) : (s.callbacks k).pc = .dispatched →
    s.timer.resumeLocation = some n → s.coro = .parked n →
    Move s (.callback k) ((s.taken n).setCallback k (.inline n))
  | callbackLost (k n : Nat) : s.timer.resumeLocation = some n → s.coro ≠ .parked n →
    Move s (.callback k) (s.lost.setCallback k (.inline n))
  | callbackEnd (k : Nat) : Move s (.callback k) (s.setCallback k .done)
  | cancel (k : Nat) (pc : CancelPc) (os : OsTimer) : Move s (.cancel k) { s with
      timer := { s.timer with cancellationRequested := true }, os
      cancels := update s.cancels k { pc, seen := s.timer.resumeLocation } }
  | drain (k : Nat) (pc : CancelPc) (os : OsTimer) : (s.cancels k).pc.active = true →
    Move s (.call k) { s.setCancel k pc with os }
  | cancelTake (k n : Nat) : (s.cancels k).pc = .trailing →
    s.timer.resumeLocation = some n → s.coro = .parked n →
    Move s (.call k) ((s.taken n).setCancel k .done)
  | cancelLost (k n : Nat) : s.timer.resumeLocation = some n → s.coro ≠ .parked n →
    Move s (.call k) (s.lost.setCancel k .done)

theorem St.resume_none {s : St} (h : s.timer.resumeLocation = none) : s.resume = s := by
  simp [resume, Timer.resume, h]

theorem St.resume_parked {s : St} {n : Nat} (h : s.timer.resumeLocation = some n)
    (hc : s.coro = .parked n) : s.resume = s.taken n := by
  simp [resume, Timer.resume, h, wake, hc, taken]

theorem St.resume_lost {s : St} {n : Nat} (h : s.timer.resumeLocation = some n)
    (hc : s.coro ≠ .parked n) : s.resume = s.lost := by
  simp [resume, Timer.resume, h, wake, hc, lost]

theorem Timer.checkException_cancelled {t : Timer} (h : t.cancellationRequested = true) :
    t.checkException = (some .timerCancelled, { t with cancellationRequested := false }) :=
  if_pos h

theorem Timer.checkException_clear {t : Timer} (h : t.cancellationRequested = false) :
    t.checkException = (none, t) := if_neg (by simp [h])

theorem Timer.suspend_cancelled {t : Timer} {n : Nat} (h : t.cancellationRequested = true) :
    t.suspend n =
      some (some .timerCancelled, { t with cancellationRequested := false }) := by
  rw [suspend, checkException_cancelled h]

theorem Timer.suspend_free {t : Timer} {n : Nat} (h : t.cancellationRequested = false)
    (hl : t.resumeLocation = none) :
    t.suspend n = some (none, { t with resumeLocation := some n }) := by
  rw [suspend, checkException_clear h]
  simp only [hl, Option.isSome_none, Bool.false_eq_true, if_false]

theorem Timer.suspend_twice {t : Timer} {n : Nat} (h : t.cancellationRequested = false)
    (hl : t.resumeLocation ≠ none) : t.suspend n = none := by
  rw [suspend, checkException_clear h]
  simp only [Option.isSome_iff_ne_none.mpr hl, if_true]

theorem suspendStep_move {kind : Kind} {s : St} {n : Nat} (hc : s.coro = .created n false) :
    Move s .await (suspendStep kind s n) := by
  by_cases hf : s.timer.cancellationRequested = true
  · rw [suspendStep, Timer.suspend_cancelled hf]
    cases kind with
    | async => exact .refuse n true s.coro hc (.inl hc)
    | tp => exact .refuse n s.terminated .idle hc (.inr rfl)
  · rw [Bool.not_eq_true] at hf
    by_cases hl : s.timer.resumeLocation = none
    · rw [suspendStep, Timer.suspend_free hf hl]
      cases kind with
      | async => exact .park n (s.arming + 1) hc hf hl
      | tp => exact .park n s.arming hc hf hl
    · rw [suspendStep, Timer.suspend_twice hf hl]
      exact .twice n hc hl

theorem callbackStep_move {s s' : St} {k : Nat} (h : callbackStep s k = some s') :
    Move s (.callback k) s' := by
  unfold callbackStep at h
  split at h
  · rename_i hpc
    cases h
    cases hl : s.timer.resumeLocation with
    | none =>
      rw [St.resume_none hl]
      exact .callbackEnd k
    | some n =>
      by_cases hc : s.coro = .parked n
      · rw [St.resume_parked hl hc]
        exact .callbackTake k n hpc hl hc
      · rw [St.resume_lost hl hc]
        exact .callbackLost k n hl hc
  · split at h
    · cases h
    · cases h
      exact .callbackEnd k
  · cases h

theorem callStep_move {s s' : St} {k : Nat} (h : callStep s k = some s') :
    Move s (.call k) s' := by
  unfold callStep at h
  simp only at h
  split at h
  · rename_i hpc
    cases h
    exact .drain k _ _ (by rw [hpc]; rfl)
  · rename_i hpc
    split at h
    · cases h
      exact .drain k _ s.os (by rw [hpc]; rfl)
    · cases h
  · rename_i hpc
    cases h
    cases hl : s.timer.resumeLocation with
    | none =>
      rw [St.resume_none hl]
      exact .drain k _ s.os (by rw [hpc]; rfl)
    | some n =>
      by_cases hc : s.coro = .parked n
      · rw [St.resume_parked hl hc]
        exact .cancelTake k n hpc hl hc
      · rw [St.resume_lost hl hc]
        exact .cancelLost k n hl hc
  · cases h

/-- Every step is a move. -/
theorem step_move {kind : Kind} {s s' : St} {e : Ev} (h : step kind s e = some s') :
    Move s e s' := by
  unfold step at h
  split at h
  · cases h
  · cases e with
    | wait ready =>
      simp only [liveStep] at h
      split at h
      · rename_i hc
        cases kind with
        | async => cases h; exact .wait ready false hc (fun h => (by cases h))
        | tp =>
          cases ready with
          | true => cases h
          | false => cases h; exact .wait false s.timer.cancellationRequested hc id
      · cases h
    | await =>
      simp only [liveStep] at h
      split at h
      · rename_i n hc; cases h; exact .ready n hc
      · rename_i n hc; cases h; exact suspendStep_move hc
      · cases h
    | check =>
      simp only [liveStep] at h
      split at h
      · rename_i n b hc
        cases h
        by_cases hf : s.timer.cancellationRequested = true
        · rw [Timer.checkException_cancelled hf]
          exact .throws n b hc hf
        · rw [Bool.not_eq_true] at hf
          rw [Timer.checkException_clear hf]
          exact .returns n b hc hf
      · cases h
    | arm => simp only [liveStep] at h; split at h <;> cases h; exact .os _ _ _
    | start p => simp only [liveStep] at h; split at h <;> cases h; exact .os _ _ _
    | stop => simp only [liveStep] at h; split at h <;> cases h; exact .os _ _ _
    | expire => simp only [liveStep] at h; split at h <;> cases h; exact .os _ _ _
    | dispatch => simp only [liveStep] at h; split at h <;> cases h; exact .dispatch _
    | callback k => exact callbackStep_move h
    | cancel k =>
      simp only [liveStep] at h
      split at h
      · cases h; exact .cancel k _ _
      · cases h
    | call k => exact callStep_move h

/-! ## The invariant -/

/-- What holds in every run (module doc). -/
structure Inv (s : St) : Prop where
  defined : s.undefined = false
  stored : ∀ n, s.timer.resumeLocation = some n ↔ s.coro = .parked n
  wait : ∀ n, s.coro.wait? = some n → n < s.waits
  seen : ∀ k n, (s.cancels k).seen = some n → n < s.waits
  unseen : ∀ k n ready, s.coro = .created n ready → (s.cancels k).seen ≠ some n
  raised : ∀ k n, (s.cancels k).pc.active = true → (s.cancels k).seen = some n →
    s.coro = .parked n → s.timer.cancellationRequested = true
  called : ∀ k n, (s.callbacks k).pc = .dispatched → (s.callbacks k).seen = some n →
    n ∈ s.dispatched

theorem Inv.init : Inv {} := by
  constructor <;> simp [Coro.wait?, CancelPc.active]

theorem Inv.move {s s' : St} {e : Ev} (h : Inv s) (hm : Move s e s') : Inv s' := by
  have hl : ∀ n, s.coro = .created n false → s.timer.resumeLocation = none := fun n hc =>
    Option.eq_none_iff_forall_ne_some.mpr fun m hm => by
      rw [(h.stored m).mp hm] at hc
      cases hc
  obtain ⟨h1, h2, h3, h4, h5, h6, h7⟩ := h
  cases hm <;> constructor <;>
    simp only [St.taken, St.lost, St.setCancel, St.setCallback] <;> grind -linarith

theorem reach_inv {kind : Kind} {s : St} (hs : (sys kind).Reach s) : Inv s :=
  Sys.Inductive.reach ⟨.init, fun _ _ _ h _ hst => h.move (step_move hst)⟩ hs

/-! ## Late resumes -/

/-- The step is the section of `resume` of a callback or of a call of `cancel`: the wait that was
parked when the callback was dispatched, or when the call raised the flag. -/
def St.resumer (s : St) : Ev → Option (Option Nat)
  | .callback k => if (s.callbacks k).pc = .dispatched then some (s.callbacks k).seen else none
  | .call k => if (s.cancels k).pc = .trailing then some (s.cancels k).seen else none
  | _ => none

/-- A `resume` that is late: it takes the continuation of a wait that parked after that, while the
flag is down and no callback was dispatched for this wait. -/
def stray (s : St) (e : Ev) : Bool :=
  match s.timer.resumeLocation, s.resumer e with
  | some n, some seen => seen ≠ some n && !s.timer.cancellationRequested && n ∉ s.dispatched
  | _, _ => false

def inTime (s : St) (e : Ev) : Bool := !stray s e

theorem stray_iff {s : St} {e : Ev} : stray s e = true ↔ ∃ n seen,
    s.timer.resumeLocation = some n ∧ s.resumer e = some seen ∧ seen ≠ some n ∧
      s.timer.cancellationRequested = false ∧ n ∉ s.dispatched := by
  unfold stray
  cases hl : s.timer.resumeLocation with
  | none => simp
  | some n =>
    cases hr : s.resumer e with
    | none => simp
    | some seen => simp [and_assoc]

/-- What a `resume` in time takes: the wait that it has seen, or one that another `cancel` or
another callback accounts for. -/
theorem inTime_take {s : St} {e : Ev} {n : Nat} {seen : Option Nat} (h : inTime s e = true)
    (hl : s.timer.resumeLocation = some n) (hr : s.resumer e = some seen) :
    seen = some n ∨ s.timer.cancellationRequested = true ∨ n ∈ s.dispatched := by
  rw [inTime, Bool.not_eq_true', ← Bool.not_eq_true, stray_iff] at h
  by_contra hn
  simp only [not_or, Bool.not_eq_true] at hn
  exact h ⟨n, seen, hl, hr, hn.1, hn.2.1, hn.2.2⟩

/-- A parked wait that is over has thrown `timer_cancelled`, unless a callback was dispatched while
it was parked. -/
def Law (s : St) : Prop := ∀ x ∈ s.ended, x.1 ∉ s.dispatched → x.2 = some .timerCancelled

/-- What carries the law: between the take and `await_resume` the flag stays up. -/
structure Timely (s : St) : Prop where
  woken : ∀ n, s.coro = .resuming n true →
    s.timer.cancellationRequested = true ∨ n ∈ s.dispatched
  law : Law s

theorem Timely.init : Timely {} := ⟨fun _ h => (by cases h), fun _ h => (by cases h)⟩

/-- A step that ends no wait and wakes none. -/
theorem Timely.keep {s s' : St} (h : Timely s) (he : s'.ended = s.ended)
    (hd : ∀ n ∈ s.dispatched, n ∈ s'.dispatched)
    (hw : ∀ n, s'.coro = .resuming n true → s.coro = .resuming n true ∧
      (s.timer.cancellationRequested = true → s'.timer.cancellationRequested = true)) :
    Timely s' := by
  refine ⟨fun n hn => ?_, fun x hx hx' => ?_⟩
  · obtain ⟨hc, hf⟩ := hw n hn
    exact (h.woken n hc).imp hf (hd n)
  · rw [he] at hx
    exact h.law x hx fun hm => hx' (hd _ hm)

/-- A step that wakes wait `n`. -/
theorem Timely.wake {s s' : St} {n : Nat} (h : Timely s) (he : s'.ended = s.ended)
    (hd : s'.dispatched = s.dispatched) (hc : s'.coro = .resuming n true)
    (hf : s'.timer.cancellationRequested = true ∨ n ∈ s.dispatched) : Timely s' := by
  refine ⟨fun m hm => ?_, fun x hx hx' => ?_⟩
  · rw [hc] at hm
    cases hm
    rwa [hd]
  · rw [he] at hx
    rw [hd] at hx'
    exact h.law x hx hx'

/-- `await_resume` of wait `n`. -/
theorem Timely.finish {s s' : St} {n : Nat} {wasParked : Bool} {thrown : Option Exception}
    (h : Timely s) (hc : s'.coro = .idle) (hd : s'.dispatched = s.dispatched)
    (he : s'.ended = s.ended ++ if wasParked then [(n, thrown)] else [])
    (ht : wasParked = true → n ∉ s.dispatched → thrown = some .timerCancelled) : Timely s' := by
  refine ⟨fun m hm => (by rw [hc] at hm; cases hm), fun x hx hx' => ?_⟩
  rw [hd] at hx'
  rw [he, List.mem_append] at hx
  obtain hx | hx := hx
  · exact h.law x hx hx'
  · cases wasParked with
    | false => cases hx
    | true =>
      cases List.mem_singleton.mp hx
      exact ht rfl hx'

theorem Timely.move {s s' : St} {e : Ev} (h : Timely s) (hi : Inv s) (hok : inTime s e = true)
    (hm : Move s e s') : Timely s' := by
  cases hm with
  | wait => exact h.keep rfl (fun _ h => h) fun n hn => (by cases hn)
  | ready => exact h.keep rfl (fun _ h => h) fun n hn => (by cases hn)
  | park => exact h.keep rfl (fun _ h => h) fun n hn => (by cases hn)
  | refuse n t coro hc hco =>
    refine h.keep rfl (fun _ h => h) fun m hm => ?_
    obtain rfl | rfl := hco <;> cases hm
  | twice => exact h.keep rfl (fun _ h => h) fun n hn => ⟨hn, id⟩
  | throws n wasParked hc hf => exact h.finish rfl rfl rfl fun _ _ => rfl
  | returns n wasParked hc hf =>
    refine h.finish rfl rfl rfl fun hp hd => ?_
    subst hp
    -- the flag is down, so a callback was dispatched while it was parked
    obtain hw | hw := h.woken n hc
    · rw [hf] at hw
      cases hw
    · exact absurd hw hd
  | os => exact h.keep rfl (fun _ h => h) fun n hn => ⟨hn, id⟩
  | dispatch =>
    exact h.keep rfl (fun n hn => List.mem_append_left _ hn) fun n hn => ⟨hn, id⟩
  | callbackTake k n hpc hl hc =>
    refine h.wake rfl rfl rfl ?_
    obtain hs | hf | hd := inTime_take hok hl (if_pos hpc)
    · exact .inr (hi.called k n hpc hs)
    · exact .inl hf
    · exact .inr hd
  | callbackLost k n hl hc => exact absurd ((hi.stored n).mp hl) hc
  | callbackEnd => exact h.keep rfl (fun _ h => h) fun n hn => ⟨hn, id⟩
  | cancel => exact h.keep rfl (fun _ h => h) fun n hn => ⟨hn, fun _ => rfl⟩
  | drain => exact h.keep rfl (fun _ h => h) fun n hn => ⟨hn, id⟩
  | cancelTake k n hpc hl hc =>
    refine h.wake rfl rfl rfl ?_
    obtain hs | hf | hd := inTime_take hok hl (if_pos hpc)
    · exact .inl (hi.raised k n (by rw [hpc]; rfl) hs hc)
    · exact .inl hf
    · exact .inr hd
  | cancelLost k n hl hc => exact absurd ((hi.stored n).mp hl) hc

theorem reach_timely {kind : Kind} {s : St}
    (hs : (sys kind).ReachBy (fun s e => inTime s e = true) s) : Timely s :=
  hs.rec_on (fun _ h => reach_inv h.reach) .init
    fun _ _ _ hi h hok hst => h.move hi hok (step_move hst)

/-- A late `resume` wakes a wait that returns in its next step. -/
theorem stray_returns {kind : Kind} {s s' : St} {e : Ev} (hi : Inv s) (he : stray s e = true)
    (hst : step kind s e = some s') : ∃ s'', step kind s' .check = some s'' ∧ ¬Law s'' := by
  obtain ⟨n, seen, hl, hr, -, hf, hd⟩ := stray_iff.mp he
  have hc := (hi.stored n).mp hl
  have hlive : s.terminated = false := by
    by_contra ht
    rw [step, if_pos (by simpa using ht)] at hst
    cases hst
  have hs' : s'.coro = .resuming n true ∧ s'.timer.cancellationRequested = false ∧
      s'.dispatched = s.dispatched ∧ s'.terminated = false := by
    cases e with
    | callback k =>
      have hpc : (s.callbacks k).pc = .dispatched := by
        by_contra hn
        rw [St.resumer, if_neg hn] at hr
        cases hr
      simp only [step, hlive, liveStep, callbackStep, hpc, St.resume_parked hl hc] at hst
      cases hst
      exact ⟨rfl, hf, rfl, hlive⟩
    | call k =>
      have hpc : (s.cancels k).pc = .trailing := by
        by_contra hn
        rw [St.resumer, if_neg hn] at hr
        cases hr
      simp only [step, hlive, liveStep, callStep, hpc, St.resume_parked hl hc] at hst
      cases hst
      exact ⟨rfl, hf, rfl, hlive⟩
    | _ => cases hr
  obtain ⟨hc', hf', hd', hlive'⟩ := hs'
  refine ⟨{ s' with coro := .idle, ended := s'.ended ++ [(n, none)] }, ?_, fun hlaw => ?_⟩
  · simp only [step, hlive', liveStep, hc', Timer.checkException_clear hf']
    rfl
  · have := hlaw (n, none) (by simp) (by rwa [← hd'] at hd)
    cases this

/-- **A wait does not return before its time**, in the runs without a late `resume`; and a late
`resume` is what makes one return. -/
theorem wait_returns (kind : Kind) :
    (∀ s, (sys kind).ReachBy (fun s e => inTime s e = true) s → Law s) ∧
    ∀ s, (sys kind).Reach s → ∀ e s', stray s e = true → step kind s e = some s' →
      ∃ s'', step kind s' .check = some s'' ∧ ¬Law s'' :=
  ⟨fun _ hs => (reach_timely hs).law,
    fun _ hs _ _ he hst => stray_returns (reach_inv hs) he hst⟩

/-- One wait expires, and the next one is cancelled. -/
def quietRun : List Ev :=
  [.wait false, .await, .arm, .expire, .dispatch, .callback 0, .check, .wait false, .await, .arm,
    .callback 0, .cancel 0, .call 0, .call 0, .call 0, .check]

theorem wait_returns_quiet : Law ((sys .async).after quietRun) ∧
    ((sys .async).after quietRun).ended = [(0, none), (1, some .timerCancelled)] :=
  ⟨(wait_returns .async).1 _ (Sys.reachBy_meets (by decide)), by decide⟩

/-- The timer of wait 0 expires, and `cancel()` raises the flag before the callback has the lock.
The callback resumes the coroutine, which throws, clears the flag and parks in wait 1. The trailing
`resume(true)` of `cancel()` takes wait 1. -/
def lateRun (start : List Ev) : List Ev :=
  start ++ [.expire, .dispatch, .cancel 0, .call 0, .callback 0, .check, .wait false, .await,
    .callback 0, .call 0, .call 0, .check]

/-- A wait returns though no callback was dispatched while it was parked. -/
theorem late_resume : (¬∀ s, (sys .async).Reach s → Law s) ∧ ¬∀ s, (sys .tp).Reach s → Law s := by
  have key : ∀ (kind : Kind) (start : List Ev),
      ((sys kind).exec (sys kind).init (lateRun start)).isSome = true →
      (1, none) ∈ ((sys kind).after (lateRun start)).ended →
      1 ∉ ((sys kind).after (lateRun start)).dispatched → ¬∀ s, (sys kind).Reach s → Law s := by
    intro kind start hr he hd h
    cases h _ (Sys.reach_after hr) _ he hd
  exact ⟨key .async [.wait false, .await, .arm] (by decide) (by decide) (by decide),
    key .tp [.wait false, .await, .start false] (by decide) (by decide) (by decide)⟩

end Timers

end Corsl
