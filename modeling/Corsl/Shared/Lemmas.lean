import Mathlib.Data.List.Nodup
import Mathlib.Data.List.Perm.Subperm
import Corsl.Future.Completion
import Corsl.Shared.Basic

/-!
# A shared future resumes every waiter once, after the result is there

* `Move`: what one step does, one constructor for each branch; `step_move` is the inversion.
* `Futures`: the inner future and the futures of `get_wait_future()` satisfy the invariant of
  futures (`Future.Inv`), and each has one operation at most.
* `Started`: `mode` says where the coroutine `start()` is, and a result that anyone reads is there.
* `Listed`: a continuation that was appended is submitted, or about to be, or waits in the list.

`served` puts them together, for the results of the two systems of futures as well.
-/

namespace Corsl

open Conc Function

namespace Shared

variable {T : Type} {kind : Future.Kind}

/-! ## Where everyone is -/

namespace WaiterPc

/-- Its continuation was appended. -/
def appended : WaiterPc → Bool
  | .parked | .queued => true
  | .unborn | .entering | .unready | .resumed | .finished => false

/-- It goes on only with a result. -/
def woken : WaiterPc → Bool
  | .queued | .resumed | .finished => true
  | .unborn | .entering | .unready | .parked => false

/-- It is not in a list yet. -/
def before : WaiterPc → Bool
  | .unborn | .entering | .unready => true
  | .parked | .queued | .resumed | .finished => false

end WaiterPc

/-- The thread has found the result ready, or was told. -/
def ThreadPc.told : ThreadPc → Bool
  | .reading | .returned => true
  | .none | .waits _ => false

namespace StartPc

/-- The continuations that it has moved out and not submitted yet. -/
def rest : StartPc → List Nat
  | .publishing rest => rest
  | .idle | .submitted | .awaiting | .done => []

/-- The `mode` that goes with it. -/
def mode : StartPc → Mode
  | .idle => .notStarted
  | .submitted | .awaiting => .started
  | .publishing _ | .done => .ready

/-- It has begun its `co_await future_`. -/
def awaits : StartPc → Bool
  | .idle | .submitted => false
  | .awaiting | .publishing _ | .done => true

end StartPc

/-! ## What one step does -/

/-- The steps of the inner future, and of `start()`. -/
inductive StartMove (kind : Future.Kind) (s : St T) : St T → Prop
  | inner (t : Future.St T) : Future.CompleterMove kind s.inner t →
    StartMove kind s { s with inner := t }
  | await (t : Future.St T) : s.start = .submitted →
    Future.step kind s.inner .await = some t →
    StartMove kind s { s with inner := t, start := .awaiting }
  | consume (t : Future.St T) : s.start = .awaiting → Future.consumeStep s.inner = some t →
    StartMove kind s { s with inner := t }
  | finish : s.start = .awaiting → s.inner.consumer = .idle → s.impl.lock = none →
    StartMove kind s { s with
      impl := { s.impl with mode := .ready, continuations := [] }
      start := .publishing s.impl.continuations }
  | publish (h : Nat) (rest : List Nat) : s.start = .publishing (h :: rest) →
    (s.waiters h).pc = .parked →
    StartMove kind s { s.setPc h .queued with
      submitted := s.submitted ++ [h], start := .publishing rest }
  | lost (h : Nat) (rest : List Nat) : s.start = .publishing (h :: rest) →
    (s.waiters h).pc ≠ .parked →
    StartMove kind s { s with undefined := true, start := .publishing rest }
  | ended : s.start = .publishing [] → StartMove kind s { s with start := .done }

/-- The steps of those who wait. -/
inductive WaiterMove (s : St T) : St T → Prop
  | coAwait (w : Nat) : (s.waiters w).pc = .unborn → WaiterMove s (s.setPc w .entering)
  | ready (w : Nat) (thread : ThreadPc) : (s.waiters w).pc = .unborn → s.inner.p.lock = none →
    s.inner.p.value.isSet = true → thread.told = true →
    WaiterMove s ((s.setPc w .finished).setThread w thread)
  | wait (w : Nat) (isGet : Bool) : (s.waiters w).pc = .unborn →
    WaiterMove s ((s.setPc w .entering).setThread w (.waits isGet))
  | skip (w : Nat) : (s.waiters w).pc = .entering → s.impl.mode = .ready →
    WaiterMove s (s.setPc w .resumed)
  | unready (w : Nat) : (s.waiters w).pc = .entering → s.impl.lock = none →
    s.impl.mode ≠ .ready →
    WaiterMove s { s.setPc w .unready with impl := { s.impl with lock := some w } }
  | first (w : Nat) : (s.waiters w).pc = .unready → s.impl.mode = .notStarted →
    WaiterMove s { s.setPc w .parked with
      impl := { mode := .started, continuations := s.impl.continuations ++ [w], lock := none }
      appended := s.appended ++ [w], start := .submitted, starts := s.starts + 1 }
  | suspend (w : Nat) : (s.waiters w).pc = .unready → s.impl.mode ≠ .notStarted →
    WaiterMove s { s.setPc w .parked with
      impl := { s.impl with continuations := s.impl.continuations ++ [w], lock := none }
      appended := s.appended ++ [w] }
  | run (w : Nat) : (s.waiters w).pc = .queued → WaiterMove s (s.setPc w .resumed)
  | resume (w : Nat) (value : Slot T) : (s.waiters w).pc = .resumed →
    s.inner.p.value.isSet = true → value.isSet = true →
    WaiterMove s
      ({ s with inner := { s.inner with p := { s.inner.p with value } } }.setPc w .finished)
  | read (w : Nat) (value : Slot T) : (s.waiters w).thread = .reading →
    s.inner.p.value.isSet = true → value.isSet = true →
    WaiterMove s
      ({ s with inner := { s.inner with p := { s.inner.p with value } } }.setThread w .returned)
  /-- The thread would wait. -/
  | block (w : Nat) (s' : St T) :
    (s.waiters w).pc = .resumed ∨ (s.waiters w).thread = .reading →
    s.inner.p.lock = none → s.inner.p.value.isSet = false → WaiterMove s s'
  | complete (w : Nat) (isGet : Bool) (t : Future.St Unit) :
    (s.waiters w).thread = .waits isGet → (s.waiters w).pc = .finished →
    Future.CompleterMove .coroutine (s.waiters w).own t → WaiterMove s (s.setOwn w t)
  | enter (w : Nat) (isGet : Bool) (t : Future.St Unit) : (s.waiters w).thread = .waits isGet →
    (s.waiters w).own.ops = 0 →
    Future.step .coroutine (s.waiters w).own (.wait false) = some t → WaiterMove s (s.setOwn w t)
  | consume (w : Nat) (isGet : Bool) (t : Future.St Unit) : (s.waiters w).thread = .waits isGet →
    Future.consumeStep (s.waiters w).own = some t → WaiterMove s (s.setOwn w t)
  | leave (w : Nat) (isGet : Bool) (thread : ThreadPc) : (s.waiters w).thread = .waits isGet →
    (s.waiters w).own.ops = 1 → (s.waiters w).own.consumer = .idle → thread.told = true →
    WaiterMove s (s.setThread w thread)

/-- One step of the system. -/
inductive Move (kind : Future.Kind) (s s' : St T) : Prop
  | start : StartMove kind s s' → Move kind s s'
  | waiter : WaiterMove s s' → Move kind s s'

/-- `future_.get()`, where the result is there, and where it is not. -/
theorem get_cases {s s' : St T} (h : s.get = some s') : s.inner.p.lock = none ∧
    (s.inner.p.value.isSet = true ∧ (∃ value, value.isSet = true ∧
      s' = { s with inner := { s.inner with p := { s.inner.p with value } } }) ∨
    s.inner.p.value.isSet = false) := by
  unfold St.get at h
  split at h
  · cases h
  · rename_i hl
    rw [ne_eq, not_not] at hl
    refine ⟨hl, ?_⟩
    split at h
    · rename_i hv
      refine .inl ⟨hv, ?_⟩
      split at h
      · rename_i hg
        rw [Future.PromiseType.isReady, Future.PromiseType.get_eq_none hg] at hv
        cases hv
      · rename_i hg
        obtain ⟨v, hv', rfl⟩ := Future.PromiseType.get_eq_some hg
        cases h
        exact ⟨v, hv', rfl⟩
    · rename_i hv
      exact .inr (by simpa [Future.PromiseType.isReady] using hv)

theorem completer_move {X : Type} {kind : Future.Kind} {s t : Future.St X} {e : Future.Ev X}
    (he : completes e = true) (h : Future.step kind s e = some t) :
    Future.CompleterMove kind s t := by
  cases e with
  | lock =>
    simp only [Future.step] at h
    split at h
    · rename_i hg; cases h; exact .lock hg.1 hg.2
    · cases h
  | set value =>
    simp only [Future.step] at h
    split at h
    · rename_i hg; cases h; exact .set value hg.1 hg.2
    · cases h
  | complete => exact Future.completeStep_move h
  | _ => cases he

theorem startStep_move {s s' : St T} (h : startStep kind s = some s') : StartMove kind s s' := by
  unfold startStep at h
  split at h
  · rename_i hs
    obtain ⟨t, ht, rfl⟩ := Option.map_eq_some_iff.mp h
    exact .await t hs ht
  · rename_i hs
    split at h
    · rename_i hc
      split at h
      · cases h
      · rename_i hl
        cases h
        exact .finish hs hc (by simpa using hl)
    · obtain ⟨t, ht, rfl⟩ := Option.map_eq_some_iff.mp h
      exact .consume t hs ht
  · rename_i w rest hs
    cases h
    by_cases hp : (s.waiters w).pc = .parked
    · rw [St.submit, if_pos hp]
      exact .publish w rest hs hp
    · rw [St.submit, if_neg hp]
      exact .lost w rest hs hp
  · rename_i hs
    cases h
    exact .ended hs
  · cases h

theorem waiterStep_move {s s' : St T} {w : Nat} (h : waiterStep s w = some s') :
    WaiterMove s s' := by
  unfold waiterStep at h
  split at h
  · rename_i hw
    split at h
    · cases h
    · rename_i hl
      rw [ne_eq, not_not] at hl
      by_cases hm : s.impl.mode = .ready
      · simp only [SharedFutureImpl.awaitReady, if_pos hm, if_true] at h
        cases h
        exact .skip w hw hm
      · simp only [SharedFutureImpl.awaitReady, if_neg hm, Bool.false_eq_true, if_false] at h
        cases h
        exact .unready w hw hl hm
  · rename_i hw
    by_cases hm : s.impl.mode = .notStarted
    · simp only [SharedFutureImpl.awaitSuspend, if_pos hm, if_true] at h
      cases h
      exact .first w hw hm
    · simp only [SharedFutureImpl.awaitSuspend, if_neg hm, Bool.false_eq_true, if_false] at h
      cases h
      exact .suspend w hw hm
  · rename_i hw
    cases h
    exact .run w hw
  · rename_i hw
    obtain ⟨t, ht, rfl⟩ := Option.map_eq_some_iff.mp h
    obtain ⟨hl, ⟨hv, v, hv', rfl⟩ | hv⟩ := get_cases ht
    · exact .resume w v hw hv hv'
    · exact .block w _ (.inl hw) hl hv
  · cases h

theorem ownStep_move {s s' : St T} {w : Nat} {e : Future.Ev Unit} (h : ownStep s w e = some s') :
    WaiterMove s s' := by
  unfold ownStep at h
  split at h
  · rename_i isGet ht
    simp only at h
    cases e with
    | lock =>
      simp only at h
      split at h
      · rename_i hp
        obtain ⟨t, hst, rfl⟩ := Option.map_eq_some_iff.mp h
        exact .complete w isGet t ht hp (completer_move rfl hst)
      · cases h
    | set value =>
      simp only at h
      split at h
      · rename_i hp
        obtain ⟨t, hst, rfl⟩ := Option.map_eq_some_iff.mp h
        exact .complete w isGet t ht hp (completer_move rfl hst)
      · cases h
    | complete =>
      simp only at h
      split at h
      · rename_i hp
        obtain ⟨t, hst, rfl⟩ := Option.map_eq_some_iff.mp h
        exact .complete w isGet t ht hp (completer_move rfl hst)
      · cases h
    | wait g =>
      cases g with
      | true => cases h
      | false =>
        simp only at h
        split at h
        · rename_i hg
          obtain ⟨t, hst, rfl⟩ := Option.map_eq_some_iff.mp h
          exact .enter w isGet t ht hg.1 hst
        · cases h
    | consume =>
      obtain ⟨t, hst, rfl⟩ := Option.map_eq_some_iff.mp h
      exact .consume w isGet t ht hst
    | await => cases h
    | release => cases h
    | destroy => cases h
  · cases h

/-- Every step is a move. -/
theorem step_move {s s' : St T} {e : Ev T} (h : step kind s e = some s') : Move kind s s' := by
  have told : ∀ isGet : Bool, (if isGet then ThreadPc.reading else .returned).told = true := by
    decide
  cases e with
  | inner e =>
    simp only [step] at h
    split at h
    · rename_i he
      obtain ⟨t, ht, rfl⟩ := Option.map_eq_some_iff.mp h
      exact .start (.inner t (completer_move he ht))
    · cases h
  | coAwait w =>
    simp only [step] at h
    split at h
    · rename_i hw; cases h; exact .waiter (.coAwait w hw)
    · cases h
  | wait w isGet =>
    simp only [step] at h
    split at h
    · rename_i hw
      split at h
      · rename_i hv; cases h; exact .waiter (.ready w _ hw.1 hw.2 hv (told isGet))
      · cases h; exact .waiter (.wait w isGet hw.1)
    · cases h
  | waiter w => exact .waiter (waiterStep_move h)
  | own w e => exact .waiter (ownStep_move h)
  | leave w =>
    simp only [step] at h
    split at h
    · rename_i isGet ht
      split at h
      · rename_i hg; cases h; exact .waiter (.leave w isGet _ ht hg.1 hg.2 (told isGet))
      · cases h
    · cases h
  | read w =>
    simp only [step] at h
    split at h
    · rename_i ht
      obtain ⟨t, hg, rfl⟩ := Option.map_eq_some_iff.mp h
      obtain ⟨hl, ⟨hv, v, hv', rfl⟩ | hv⟩ := get_cases hg
      · exact .waiter (.read w v ht hv hv')
      · exact .waiter (.block w _ (.inr ht) hl hv)
    · cases h
  | start => exact .start (startStep_move h)

/-! ## The invariants -/

/-- The futures (module doc). -/
structure Futures (kind : Future.Kind) (s : St T) : Prop where
  inner : Future.Inv kind s.inner
  held : s.inner.releaser = .held
  own : ∀ w, Future.Inv .coroutine (s.waiters w).own
  before : s.start.awaits = false → s.inner.consumer = .idle ∧ s.inner.ops = 0
  ops : s.start.awaits = true → s.inner.ops = 1
  after : s.start.mode = .ready → s.inner.consumer = .idle
  ownOps : ∀ w, (s.waiters w).own.ops ≤ 1
  running : ∀ w, (s.waiters w).own.completer ≠ .running → (s.waiters w).pc = .finished

/-- The coroutine `start()`, and the result (module doc). -/
structure Started (s : St T) : Prop where
  mode : s.impl.mode = s.start.mode
  starts : s.starts = if s.start = .idle then 0 else 1
  lock : ∀ w, s.impl.lock = some w ↔ (s.waiters w).pc = .unready
  unready : ∀ w, (s.waiters w).pc = .unready → s.impl.mode ≠ .ready
  ready : s.start.mode = .ready → s.inner.completer.hasTaken = true
  woken : ∀ w, (s.waiters w).pc.woken = true → s.inner.completer.hasTaken = true
  told : ∀ w, (s.waiters w).thread.told = true → s.inner.completer.hasTaken = true
  unblocked : s.blocked = false
  defined : s.undefined = false

/-- The continuations (module doc). -/
structure Listed (s : St T) : Prop where
  appended : s.appended = s.submitted ++ (s.start.rest ++ s.impl.continuations)
  nodup : s.appended.Nodup
  before : ∀ w, (s.waiters w).pc.before = true → w ∉ s.appended
  parked : ∀ w, (s.waiters w).pc = .parked ↔ w ∈ s.start.rest ++ s.impl.continuations
  submitted : s.submitted ≠ [] → s.start.mode = .ready
  opened : s.start = .idle → s.impl.continuations = []
  closed : s.start.mode = .ready → s.impl.continuations = []

/-- The invariant. -/
structure Inv (kind : Future.Kind) (s : St T) : Prop where
  futures : Futures kind s
  started : Started s
  listed : Listed s

theorem Inv.init : Inv kind ({} : St T) := by
  refine ⟨⟨.init, rfl, fun _ => .init, ?_, ?_, ?_, ?_, ?_⟩, ?_, ?_⟩
  case refine_6 => constructor <;> simp [StartPc.mode, WaiterPc.woken, ThreadPc.told]
  case refine_7 => constructor <;> simp [StartPc.mode, StartPc.rest]
  all_goals simp [StartPc.awaits, StartPc.mode]

/-- The result that a reader finds is there. -/
theorem Inv.isSet {s : St T} (h : Inv kind s) (ht : s.inner.completer.hasTaken = true) :
    s.inner.p.value.isSet = true :=
  h.futures.inner.locked.value.trans (Future.Completer.hasSet_of_hasTaken ht)

/-- Whoever reads the result was resumed, or told, after it was there. -/
theorem Inv.read_isSet {s : St T} (h : Inv kind s) (w : Nat)
    (hw : (s.waiters w).pc = .resumed ∨ (s.waiters w).thread = .reading) :
    s.inner.p.value.isSet = true := by
  obtain hw | hw := hw
  · exact h.isSet (h.started.woken w (by rw [hw]; rfl))
  · exact h.isSet (h.started.told w (by rw [hw]; rfl))

/-! ### Updates of one waiter

What each invariant asks of an update, for the place, the thread and the future of a waiter, and for
the value of the inner future. -/

section Updates

variable {s : St T} {w : Nat}

/-- A waiter that has not finished has a coroutine that runs, if any. -/
theorem Futures.setPc {pc : WaiterPc} (h : Futures kind s) (hold : (s.waiters w).pc ≠ .finished) :
    Futures kind (s.setPc w pc) := by
  have hown : ∀ v, ((s.setPc w pc).waiters v).own = (s.waiters v).own := by
    intro v
    by_cases hv : v = w <;> simp [St.setPc, hv]
  refine ⟨h.inner, h.held, fun v => hown v ▸ h.own v, h.before, h.ops, h.after,
    fun v => hown v ▸ h.ownOps v, fun v hr => ?_⟩
  have hpc := h.running v (hown v ▸ hr)
  have hv : v ≠ w := fun he => hold (he ▸ hpc)
  simpa [St.setPc, hv] using hpc

theorem Futures.setThread {thread : ThreadPc} (h : Futures kind s) :
    Futures kind (s.setThread w thread) := by
  have hw : ∀ v, ((s.setThread w thread).waiters v).own = (s.waiters v).own ∧
      ((s.setThread w thread).waiters v).pc = (s.waiters v).pc := by
    intro v
    by_cases hv : v = w <;> simp [St.setThread, hv]
  refine ⟨h.inner, h.held, fun v => (hw v).1 ▸ h.own v, h.before, h.ops, h.after,
    fun v => (hw v).1 ▸ h.ownOps v, fun v hr => ?_⟩
  rw [(hw v).2]
  exact h.running v ((hw v).1 ▸ hr)

/-- The future of `get_wait_future()` takes a step. -/
theorem Futures.setOwn {t : Future.St Unit} (h : Futures kind s) (ht : Future.Inv .coroutine t)
    (ho : t.ops ≤ 1) (hr : t.completer ≠ .running → (s.waiters w).pc = .finished) :
    Futures kind (s.setOwn w t) := by
  have hw : ∀ v, v ≠ w → (s.setOwn w t).waiters v = s.waiters v := fun v hv => by
    simp [St.setOwn, hv]
  have hself : (s.setOwn w t).waiters w = { s.waiters w with own := t } := by simp [St.setOwn]
  refine ⟨h.inner, h.held, fun v => ?_, h.before, h.ops, h.after, fun v => ?_, fun v => ?_⟩
  · by_cases hv : v = w
    · rwa [hv, hself]
    · rw [hw v hv]
      exact h.own v
  · by_cases hv : v = w
    · rwa [hv, hself]
    · rw [hw v hv]
      exact h.ownOps v
  · by_cases hv : v = w
    · rwa [hv, hself]
    · rw [hw v hv]
      exact h.running v

/-- The result is read. -/
theorem Futures.revalue {value : Slot T} (h : Futures kind s)
    (hv : s.inner.p.value.isSet = true) (hv' : value.isSet = true) :
    Futures kind { s with inner := { s.inner with p := { s.inner.p with value } } } :=
  ⟨h.inner.revalue hv hv', h.held, h.own, h.before, h.ops, h.after, h.ownOps, h.running⟩

theorem Started.setPc {pc : WaiterPc} (h : Started s) (hold : (s.waiters w).pc ≠ .unready)
    (hnew : pc ≠ .unready) (hwoken : pc.woken = true → s.inner.completer.hasTaken = true) :
    Started (s.setPc w pc) := by
  have hself : (s.setPc w pc).waiters w = { s.waiters w with pc } := by simp [St.setPc]
  have hne : ∀ v, v ≠ w → (s.setPc w pc).waiters v = s.waiters v := fun v hv => by
    simp [St.setPc, hv]
  have hunready : ∀ v, ((s.setPc w pc).waiters v).pc = .unready ↔ (s.waiters v).pc = .unready := by
    intro v
    by_cases hv : v = w
    · rw [hv, hself]
      exact iff_of_false hnew hold
    · rw [hne v hv]
  refine ⟨h.mode, h.starts, fun v => (h.lock v).trans (hunready v).symm,
    fun v hv => h.unready v ((hunready v).mp hv), h.ready, fun v hv => ?_, fun v hv => ?_,
    h.unblocked, h.defined⟩
  · by_cases hvw : v = w
    · rw [hvw, hself] at hv
      exact hwoken hv
    · exact h.woken v (hne v hvw ▸ hv)
  · by_cases hvw : v = w
    · rw [hvw, hself] at hv
      exact h.told w hv
    · exact h.told v (hne v hvw ▸ hv)

theorem Started.setThread {thread : ThreadPc} (h : Started s)
    (htold : thread.told = true → s.inner.completer.hasTaken = true) :
    Started (s.setThread w thread) := by
  have hpc : ∀ v, ((s.setThread w thread).waiters v).pc = (s.waiters v).pc := by
    intro v
    by_cases hv : v = w <;> simp [St.setThread, hv]
  refine ⟨h.mode, h.starts, fun v => ?_, fun v hv => h.unready v (hpc v ▸ hv), h.ready,
    fun v hv => h.woken v (hpc v ▸ hv), fun v hv => ?_, h.unblocked, h.defined⟩
  · rw [hpc]
    exact h.lock v
  · by_cases hvw : v = w
    · simp only [hvw, St.setThread, update_self] at hv
      exact htold hv
    · simp only [St.setThread, update_of_ne hvw] at hv
      exact h.told v hv

theorem Started.setOwn {t : Future.St Unit} (h : Started s) : Started (s.setOwn w t) := by
  have hw : ∀ v, ((s.setOwn w t).waiters v).pc = (s.waiters v).pc ∧
      ((s.setOwn w t).waiters v).thread = (s.waiters v).thread := by
    intro v
    by_cases hv : v = w <;> simp [St.setOwn, hv]
  refine ⟨h.mode, h.starts, fun v => ?_, fun v hv => h.unready v ((hw v).1 ▸ hv), h.ready,
    fun v hv => h.woken v ((hw v).1 ▸ hv), fun v hv => h.told v ((hw v).2 ▸ hv), h.unblocked,
    h.defined⟩
  rw [(hw v).1]
  exact h.lock v

theorem Started.revalue {value : Slot T} (h : Started s) :
    Started { s with inner := { s.inner with p := { s.inner.p with value } } } :=
  ⟨h.mode, h.starts, h.lock, h.unready, h.ready, h.woken, h.told, h.unblocked, h.defined⟩

theorem Listed.setPc {pc : WaiterPc} (h : Listed s) (hold : (s.waiters w).pc ≠ .parked)
    (hnew : pc ≠ .parked) (hb : pc.before = true → (s.waiters w).pc.before = true) :
    Listed (s.setPc w pc) := by
  have hself : ((s.setPc w pc).waiters w).pc = pc := by simp [St.setPc]
  have hne : ∀ v, v ≠ w → ((s.setPc w pc).waiters v).pc = (s.waiters v).pc := fun v hv => by
    simp [St.setPc, hv]
  refine ⟨h.appended, h.nodup, fun v hv => ?_, fun v => ?_, h.submitted, h.opened, h.closed⟩
  · by_cases hvw : v = w
    · rw [hvw, hself] at hv
      exact hvw ▸ h.before w (hb hv)
    · exact h.before v (hne v hvw ▸ hv)
  · refine Iff.trans ?_ (h.parked v)
    by_cases hvw : v = w
    · rw [hvw, hself]
      exact iff_of_false hnew hold
    · rw [hne v hvw]

theorem Listed.keep {s' : St T} (h : Listed s)
    (hpc : ∀ v, (s'.waiters v).pc = (s.waiters v).pc) (ha : s'.appended = s.appended)
    (hs : s'.submitted = s.submitted) (hst : s'.start.rest = s.start.rest)
    (hmode : s'.start.mode = .ready ↔ s.start.mode = .ready)
    (hidle : s'.start = .idle → s.start = .idle)
    (hc : s'.impl.continuations = s.impl.continuations) : Listed s' := by
  refine ⟨?_, ha ▸ h.nodup, fun v hv => ?_, fun v => ?_, fun hn => ?_, fun hi => ?_, fun hm => ?_⟩
  · rw [ha, hs, hst, hc]
    exact h.appended
  · rw [ha]
    exact h.before v (hpc v ▸ hv)
  · rw [hpc, hst, hc]
    exact h.parked v
  · exact hmode.mpr (h.submitted (hs ▸ hn))
  · rw [hc]
    exact h.opened (hidle hi)
  · rw [hc]
    exact h.closed (hmode.mp hm)

theorem Listed.setThread {thread : ThreadPc} (h : Listed s) : Listed (s.setThread w thread) := by
  refine h.keep (fun v => ?_) rfl rfl rfl Iff.rfl id rfl
  by_cases hv : v = w <;> simp [St.setThread, hv]

theorem Listed.setOwn {t : Future.St Unit} (h : Listed s) : Listed (s.setOwn w t) := by
  refine h.keep (fun v => ?_) rfl rfl rfl Iff.rfl id rfl
  by_cases hv : v = w <;> simp [St.setOwn, hv]

/-- The waiter's continuation is appended. -/
theorem Listed.append {s' : St T} (h : Listed s) (hold : (s.waiters w).pc.before = true)
    (hw : s'.waiters = (s.setPc w .parked).waiters) (ha : s'.appended = s.appended ++ [w])
    (hs : s'.submitted = s.submitted) (hrest : s'.start.rest = s.start.rest)
    (hc : s'.impl.continuations = s.impl.continuations ++ [w])
    (hopen : s.start.mode ≠ .ready) (hready : s'.start.mode ≠ .ready) (hidle : s'.start ≠ .idle) :
    Listed s' := by
  have hself : (s'.waiters w).pc = .parked := by simp [hw, St.setPc]
  have hne : ∀ v, v ≠ w → (s'.waiters v).pc = (s.waiters v).pc := fun v hv => by
    simp [hw, St.setPc, hv]
  have hnot : w ∉ s.appended := h.before w hold
  refine ⟨?_, ?_, fun v hv => ?_, fun v => ?_, fun hn => ?_, fun hi => absurd hi hidle,
    fun hm => absurd hm hready⟩
  · rw [ha, hs, hrest, hc, h.appended]
    simp
  · rw [ha, ← List.concat_eq_append]
    exact h.nodup.concat hnot
  · have hvw : v ≠ w := fun he => by
      rw [he, hself] at hv
      cases hv
    rw [ha, List.mem_append, List.mem_singleton, or_iff_left hvw]
    exact h.before v (hne v hvw ▸ hv)
  · rw [hrest, hc, ← List.append_assoc, List.mem_append, List.mem_singleton]
    by_cases hvw : v = w
    · rw [hvw]
      exact iff_of_true hself (.inr rfl)
    · rw [hne v hvw, or_iff_left hvw]
      exact h.parked v
  · exact absurd (h.submitted (hs ▸ hn)) hopen

end Updates

/-! ### The steps -/

theorem Started.idle {s : St T} (h : Started s) (hm : s.impl.mode = .notStarted) :
    s.start = .idle := by
  have := h.mode
  rw [hm] at this
  cases hst : s.start <;> rw [hst] at this <;> first | rfl | cases this

theorem Futures.start_move {s s' : St T} (h : Inv kind s) (hm : StartMove kind s s') :
    Futures kind s' := by
  have hf := h.futures
  obtain ⟨h1, hr, h2, h3, h4, h5, h6, h7⟩ := h.futures
  cases hm with
  | inner t ht =>
    obtain ⟨ho, hc, -, hb⟩ := ht.frame
    exact ⟨h1.move (.completer ht), hb.trans hr, h2, fun ha => ⟨hc (h3 ha).1, ho.trans (h3 ha).2⟩,
      fun ha => ho.trans (h4 ha), fun hr => hc (h5 hr), h6, h7⟩
  | await t hst ht =>
    obtain ⟨hm, ho, -, hb⟩ := Future.await_frame ht
    exact ⟨h1.move (.consumer hm), hb.trans hr, h2, fun ha => (by cases ha),
      fun _ => ho.trans (by rw [(h3 (by rw [hst]; rfl)).2]), fun hr => (by cases hr), h6, h7⟩
  | consume t hst ht =>
    obtain ⟨ho, -, hb⟩ := Future.consumeStep_frame ht
    have ha' : s.start.awaits = true := by rw [hst]; rfl
    have hm' : s.start.mode ≠ .ready := by rw [hst]; simp [StartPc.mode]
    exact ⟨h1.move (.consumer (Future.consumeStep_move ht)), hb.trans hr, h2,
      fun ha => (by rw [ha'] at ha; cases ha), fun ha => ho.trans (h4 ha),
      fun hr => absurd hr hm', h6, h7⟩
  | finish hst hc _ =>
    exact ⟨h1, hr, h2, fun ha => (by cases ha), fun _ => h4 (by rw [hst]; rfl), fun _ => hc, h6, h7⟩
  | publish w rest hst hp =>
    have h' : Futures kind (s.setPc w .queued) := hf.setPc (by rw [hp]; simp)
    exact ⟨h1, hr, h'.own, fun ha => (by cases ha), fun _ => h4 (by rw [hst]; rfl),
      fun _ => h5 (by rw [hst]; rfl), h'.ownOps, h'.running⟩
  | lost w rest hst hp =>
    exact ⟨h1, hr, h2, fun ha => (by cases ha), fun _ => h4 (by rw [hst]; rfl),
      fun _ => h5 (by rw [hst]; rfl), h6, h7⟩
  | ended hst =>
    exact ⟨h1, hr, h2, fun ha => (by cases ha), fun _ => h4 (by rw [hst]; rfl),
      fun _ => h5 (by rw [hst]; rfl), h6, h7⟩

theorem Futures.waiter_move {s s' : St T} (h : Inv kind s) (hm : WaiterMove s s') :
    Futures kind s' := by
  have hf := h.futures
  cases hm with
  | resume w value hw hv hv' => exact (hf.revalue hv hv').setPc (by simp [hw])
  | read w value hw hv hv' => exact (hf.revalue hv hv').setThread
  | block w s' hw hlock hv =>
    rw [h.read_isSet w hw] at hv
    cases hv
  | complete w isGet t hw hp ht =>
    exact hf.setOwn ((hf.own w).move (.completer ht)) (ht.frame.1 ▸ hf.ownOps w) fun _ => hp
  | enter w isGet t hw ho ht =>
    obtain ⟨hm, ho', hc, -⟩ := Future.wait_frame ht
    exact hf.setOwn ((hf.own w).move (.consumer hm)) (by omega) (hc ▸ hf.running w)
  | consume w isGet t hw ht =>
    obtain ⟨ho, hc, -⟩ := Future.consumeStep_frame ht
    exact hf.setOwn ((hf.own w).move (.consumer (Future.consumeStep_move ht)))
      (ho ▸ hf.ownOps w) (hc ▸ hf.running w)
  | coAwait w hw => exact hf.setPc (by simp [hw])
  | ready w thread hw => exact (hf.setPc (by simp [hw])).setThread
  | wait w isGet hw => exact (hf.setPc (by simp [hw])).setThread
  | skip w hw => exact hf.setPc (by simp [hw])
  | run w hw => exact hf.setPc (by simp [hw])
  | leave w isGet thread hw => exact hf.setThread
  | unready w hw =>
    have h' : Futures kind (s.setPc w .unready) := hf.setPc (by simp [hw])
    exact ⟨h'.inner, h'.held, h'.own, h'.before, h'.ops, h'.after, h'.ownOps, h'.running⟩
  | suspend w hw =>
    have h' : Futures kind (s.setPc w .parked) := hf.setPc (by simp [hw])
    exact ⟨h'.inner, h'.held, h'.own, h'.before, h'.ops, h'.after, h'.ownOps, h'.running⟩
  | first w hw hmode =>
    have h' : Futures kind (s.setPc w .parked) := hf.setPc (by simp [hw])
    have hidle : s.start.awaits = false := by rw [h.started.idle hmode]; rfl
    exact ⟨h'.inner, h'.held, h'.own, fun _ => h'.before hidle, fun ha => (by cases ha),
      fun hr => (by cases hr), h'.ownOps, h'.running⟩

theorem Started.start_move {s s' : St T} (h : Inv kind s) (hm : StartMove kind s s') :
    Started s' := by
  have hs := h.started
  obtain ⟨h1, h2, h3, h4, h5, h6, h7, h8, h9⟩ := h.started
  cases hm with
  | inner t ht =>
    have hk := ht.frame.2.2.1
    exact ⟨h1, h2, h3, h4, fun hr => hk (h5 hr), fun v hv => hk (h6 v hv),
      fun v hv => hk (h7 v hv), h8, h9⟩
  | await t hst ht =>
    obtain ⟨-, -, hc, -⟩ := Future.await_frame ht
    rw [hst] at h1 h2
    exact ⟨h1, h2, h3, h4, fun hr => (by cases hr), fun v hv => hc ▸ h6 v hv,
      fun v hv => hc ▸ h7 v hv, h8, h9⟩
  | consume t hst ht =>
    obtain ⟨-, hc, -⟩ := Future.consumeStep_frame ht
    exact ⟨h1, h2, h3, h4, fun hr => hc ▸ h5 hr, fun v hv => hc ▸ h6 v hv,
      fun v hv => hc ▸ h7 v hv, h8, h9⟩
  | finish hst hc hlock =>
    -- the `co_await future_` is over
    have ht := h.futures.inner.waiting.ended hc
      (by rw [h.futures.ops (by rw [hst]; rfl)]; decide)
    have hnone : ∀ v, (s.waiters v).pc ≠ .unready := fun v hv => by
      rw [(h3 v).mpr hv] at hlock
      cases hlock
    rw [hst] at h2
    exact ⟨rfl, h2, h3, fun v hv => absurd hv (hnone v), fun _ => ht, h6, h7, h8, h9⟩
  | publish w rest hst hp =>
    have ht := h5 (by rw [hst]; rfl)
    have h' : Started (s.setPc w .queued) := hs.setPc (by simp [hp]) (by simp) fun _ => ht
    rw [hst] at h1 h2
    exact ⟨h1, h2, h'.lock, h'.unready, fun _ => ht, h'.woken, h'.told, h8, h9⟩
  | lost w rest hst hp =>
    exact absurd ((h.listed.parked w).mpr (by rw [hst]; simp [StartPc.rest])) hp
  | ended hst =>
    have ht := h5 (by rw [hst]; rfl)
    rw [hst] at h1 h2
    exact ⟨h1, h2, h3, h4, fun _ => ht, h6, h7, h8, h9⟩

/-- The waiter takes the lock, or leaves it. -/
theorem Started.setLock {s s' : St T} {w : Nat} {pc : WaiterPc} (h : Started s)
    (hw : s'.waiters = (s.setPc w pc).waiters) (hin : s'.inner = s.inner)
    (hmode : s'.impl.mode = s'.start.mode) (hm : s'.impl.mode ≠ .ready)
    (hstarts : s'.starts = if s'.start = .idle then 0 else 1)
    (hself : s'.impl.lock = some w ↔ pc = .unready)
    (hne : ∀ v, v ≠ w → (s'.impl.lock = some v ↔ s.impl.lock = some v))
    (hwoken : pc.woken = false) (hb : s'.blocked = s.blocked) (hd : s'.undefined = s.undefined) :
    Started s' := by
  have hpc : (s'.waiters w).pc = pc := by simp [hw, St.setPc]
  have hother : ∀ v, v ≠ w → s'.waiters v = s.waiters v := fun v hv => by simp [hw, St.setPc, hv]
  refine ⟨hmode, hstarts, fun v => ?_, fun _ _ => hm, fun hr => absurd (hmode.trans hr) hm,
    fun v hv => ?_, fun v hv => ?_, hb ▸ h.unblocked, hd ▸ h.defined⟩
  · by_cases hvw : v = w
    · rw [hvw, hself, hpc]
    · rw [hne v hvw, h.lock, hother v hvw]
  · have hvw : v ≠ w := fun he => by
      rw [he, hpc, hwoken] at hv
      cases hv
    rw [hin]
    exact h.woken v (hother v hvw ▸ hv)
  · rw [hin]
    refine h.told v ?_
    by_cases hvw : v = w
    · simpa [hw, St.setPc, hvw] using hv
    · exact hother v hvw ▸ hv

theorem Started.waiter_move {s s' : St T} (h : Inv kind s) (hm : WaiterMove s s') :
    Started s' := by
  have hs := h.started
  cases hm with
  | ready w thread hw hlock hv htold =>
    have ht := h.futures.inner.locked.hasTaken hlock hv
    exact (hs.setPc (by simp [hw]) (by simp) fun _ => ht).setThread fun _ => ht
  | block w s' hw hlock hv =>
    rw [h.read_isSet w hw] at hv
    cases hv
  | leave w isGet thread hw ho hc htold =>
    -- the coroutine of `get_wait_future()` has completed, after its `co_await`
    have hk := (h.futures.own w).waiting.ended hc (by rw [ho]; decide)
    have hp : (s.waiters w).pc = .finished := h.futures.running w fun hrun => by
      rw [hrun] at hk
      cases hk
    exact hs.setThread fun _ => hs.woken w (by rw [hp]; rfl)
  | skip w hw hmode =>
    exact hs.setPc (by simp [hw]) (by simp) fun _ => hs.ready (hs.mode ▸ hmode)
  | coAwait w hw => exact hs.setPc (by simp [hw]) (by simp) fun hk => by cases hk
  | wait w isGet hw =>
    exact (hs.setPc (by simp [hw]) (by simp) fun hk => by cases hk).setThread fun hk => by cases hk
  | run w hw => exact hs.setPc (by simp [hw]) (by simp) fun _ => hs.woken w (by rw [hw]; rfl)
  | resume w value hw =>
    exact hs.revalue.setPc (by simp [hw]) (by simp) fun _ => hs.woken w (by rw [hw]; rfl)
  | read w value hw => exact hs.revalue.setThread fun _ => hs.told w (by rw [hw]; rfl)
  | complete w isGet t hw => exact hs.setOwn
  | enter w isGet t hw => exact hs.setOwn
  | consume w isGet t hw => exact hs.setOwn
  | unready w hw hlock hmode =>
    refine hs.setLock (w := w) rfl rfl hs.mode hmode hs.starts (iff_of_true rfl rfl)
      (fun v hv => ?_) rfl rfl rfl
    rw [hlock]
    exact iff_of_false (fun he => hv (Option.some.inj he).symm) (by simp)
  | first w hw hmode =>
    have hl : s.impl.lock = some w := (hs.lock w).mpr hw
    have hst := hs.starts
    rw [if_pos (hs.idle hmode)] at hst
    refine hs.setLock (w := w) rfl rfl rfl (by simp) ?_ (iff_of_false (by simp) (by simp))
      (fun v hv => ?_) rfl rfl rfl
    · show s.starts + 1 = 1
      rw [hst]
    · rw [hl]
      exact iff_of_false (by simp) fun he => hv (Option.some.inj he).symm
  | suspend w hw hmode =>
    have hl : s.impl.lock = some w := (hs.lock w).mpr hw
    refine hs.setLock (w := w) rfl rfl hs.mode (hs.unready w hw) hs.starts
      (iff_of_false (by simp) (by simp)) (fun v hv => ?_) rfl rfl rfl
    rw [hl]
    exact iff_of_false (by simp) fun he => hv (Option.some.inj he).symm

theorem Listed.start_move {s s' : St T} (h : Inv kind s) (hm : StartMove kind s s') :
    Listed s' := by
  have hl := h.listed
  cases hm with
  | inner t ht => exact hl.keep (fun _ => rfl) rfl rfl rfl Iff.rfl id rfl
  | consume t hst ht => exact hl.keep (fun _ => rfl) rfl rfl rfl Iff.rfl id rfl
  | await t hst ht =>
    exact hl.keep (fun _ => rfl) rfl rfl (by rw [hst]; rfl) (by simp [hst, StartPc.mode])
      (fun hi => by cases hi) rfl
  | ended hst =>
    exact hl.keep (fun _ => rfl) rfl rfl (by rw [hst]; rfl) (by simp [hst, StartPc.mode])
      (fun hi => by cases hi) rfl
  | finish hst hc hlock =>
    have ha := hl.appended
    have hp := hl.parked
    rw [hst] at ha hp
    exact ⟨by simpa [StartPc.rest] using ha, hl.nodup, hl.before,
      fun v => by simpa [StartPc.rest] using hp v, fun _ => rfl, fun hi => (by cases hi),
      fun _ => rfl⟩
  | lost w rest hst hp =>
    exact absurd ((hl.parked w).mpr (by rw [hst]; simp [StartPc.rest])) hp
  | publish w rest hst hp =>
    have ha := hl.appended
    have hc := hl.closed (by rw [hst]; rfl)
    have hparked := hl.parked
    simp only [hst, hc, StartPc.rest, List.append_nil] at ha hparked
    have hrest : w ∉ rest := by
      have hn := hl.nodup
      rw [ha] at hn
      exact (List.nodup_cons.mp (List.nodup_append.mp hn).2.1).1
    have hself : ((s.setPc w .queued).waiters w).pc = .queued := by simp [St.setPc]
    have hne : ∀ v, v ≠ w → ((s.setPc w .queued).waiters v).pc = (s.waiters v).pc := fun v hv => by
      simp [St.setPc, hv]
    refine ⟨?_, hl.nodup, fun v hv => ?_, fun v => ?_, fun _ => rfl, fun hi => (by cases hi),
      fun _ => hc⟩
    · show s.appended = s.submitted ++ [w] ++ (rest ++ s.impl.continuations)
      rw [ha, hc]
      simp
    · have hvw : v ≠ w := fun he => by
        rw [he] at hv
        rw [hself] at hv
        cases hv
      exact hl.before v (hne v hvw ▸ hv)
    · show ((s.setPc w .queued).waiters v).pc = .parked ↔ v ∈ rest ++ s.impl.continuations
      rw [hc, List.append_nil]
      by_cases hvw : v = w
      · rw [hvw, hself]
        exact iff_of_false (by simp) hrest
      · rw [hne v hvw, hparked, List.mem_cons, or_iff_right hvw]

theorem Listed.waiter_move {s s' : St T} (h : Inv kind s) (hm : WaiterMove s s') :
    Listed s' := by
  have hl := h.listed
  have hs := h.started
  cases hm with
  | block w s' hw hlock hv =>
    rw [h.read_isSet w hw] at hv
    cases hv
  | first w hw hmode =>
    have hst := hs.idle hmode
    exact hl.append (by rw [hw]; rfl) rfl rfl rfl (by rw [hst]; rfl) rfl
      (by simp [hst, StartPc.mode]) (by simp [StartPc.mode]) (by simp)
  | suspend w hw hmode =>
    have hopen : s.start.mode ≠ .ready := hs.mode ▸ hs.unready w hw
    have hidle : s.start ≠ .idle := fun hi => hmode (by rw [hs.mode, hi]; rfl)
    exact hl.append (by rw [hw]; rfl) rfl rfl rfl rfl rfl hopen hopen hidle
  | unready w hw =>
    have h' : Listed (s.setPc w .unready) :=
      hl.setPc (by simp [hw]) (by simp) fun _ => by rw [hw]; rfl
    exact ⟨h'.appended, h'.nodup, h'.before, h'.parked, h'.submitted, h'.opened, h'.closed⟩
  | coAwait w hw => exact hl.setPc (by simp [hw]) (by simp) fun _ => by rw [hw]; rfl
  | ready w thread hw =>
    exact (hl.setPc (by simp [hw]) (by simp) fun hb => by cases hb).setThread
  | wait w isGet hw =>
    exact (hl.setPc (by simp [hw]) (by simp) fun _ => by rw [hw]; rfl).setThread
  | skip w hw => exact hl.setPc (by simp [hw]) (by simp) fun hb => by cases hb
  | run w hw => exact hl.setPc (by simp [hw]) (by simp) fun hb => by cases hb
  | resume w value hw =>
    have h' : Listed (s.setPc w .finished) :=
      hl.setPc (by simp [hw]) (by simp) fun hb => by cases hb
    exact ⟨h'.appended, h'.nodup, h'.before, h'.parked, h'.submitted, h'.opened, h'.closed⟩
  | read w value hw =>
    have h' : Listed (s.setThread w .returned) := hl.setThread
    exact ⟨h'.appended, h'.nodup, h'.before, h'.parked, h'.submitted, h'.opened, h'.closed⟩
  | complete w isGet t hw => exact hl.setOwn
  | enter w isGet t hw => exact hl.setOwn
  | consume w isGet t hw => exact hl.setOwn
  | leave w isGet thread hw => exact hl.setThread

theorem Inv.move {s s' : St T} (h : Inv kind s) (hm : Move kind s s') : Inv kind s' := by
  cases hm with
  | start hm => exact ⟨.start_move h hm, .start_move h hm, .start_move h hm⟩
  | waiter hm => exact ⟨.waiter_move h hm, .waiter_move h hm, .waiter_move h hm⟩

/-- Every reachable state satisfies the invariant. -/
theorem reach_inv {s : St T} (hs : (sys kind T).Reach s) : Inv kind s :=
  Sys.Inductive.reach ⟨.init, fun _ _ _ h _ hst => h.move (step_move hst)⟩ hs

/-! ## Results -/

/-- What a shared future owes to those who wait. -/
structure Served (kind : Future.Kind) (s : St T) : Prop where
  /-- `start()` is entered once at most, -/
  single : s.starts ≤ 1
  /-- and the inner future has one continuation at most; its assertion does not fail. -/
  registered : s.inner.registered.length ≤ 1 ∧ s.inner.undefined = false
  inner : Future.Delivered kind s.inner
  /-- A thread in `wait()` is served by the future of its coroutine. -/
  own : ∀ w, Future.Delivered .coroutine (s.waiters w).own
  /-- No coroutine is resumed that is not suspended. -/
  defined : s.undefined = false
  mode : ∀ e s', step kind s e = some s' → s'.impl.mode = s.impl.mode ∨
    s.impl.mode = .notStarted ∧ s'.impl.mode = .started ∨
      s.impl.mode = .started ∧ s'.impl.mode = .ready
  ready : s.impl.mode = .ready → s.inner.p.isReady = true ∧ s.inner.p.lock = none
  /-- No `await_resume` and no `get()` has found the result not ready, -/
  unblocked : s.blocked = false
  /-- and none will. -/
  resume : ∀ w, (s.waiters w).pc = .resumed → s.inner.p.isReady = true ∧
    ∃ s', step kind s (.waiter w) = some s' ∧ (s'.waiters w).pc = .finished
  /-- A continuation is appended once, and it is submitted in its turn. -/
  once : s.appended.Nodup ∧ s.appended = s.submitted ++ (s.start.rest ++ s.impl.continuations)
  after : s.submitted ≠ [] → s.impl.mode = .ready
  all : s.start = .done → s.submitted = s.appended
  /-- Whoever is suspended was appended, is not submitted, and `start()` is on its way. -/
  parked : ∀ w, (s.waiters w).pc = .parked →
    w ∈ s.appended ∧ w ∉ s.submitted ∧ s.start ≠ .idle ∧ s.start ≠ .done
  /-- With the value set, its next step is possible, or that of the completion is. -/
  live : s.inner.completer.hasSet = true → s.start ≠ .idle → s.start ≠ .done →
    s.impl.lock = none → (step kind s .start).isSome = true ∨
      (step kind s (.inner .complete)).isSome = true
  /-- Whoever has the lock releases it next. -/
  lock : ∀ w, s.impl.lock = some w → (step kind s (.waiter w)).isSome = true

/-- `mode` goes one way. -/
theorem Move.mode {s s' : St T} (h : Inv kind s) (hm : Move kind s s') :
    s'.impl.mode = s.impl.mode ∨ s.impl.mode = .notStarted ∧ s'.impl.mode = .started ∨
      s.impl.mode = .started ∧ s'.impl.mode = .ready := by
  cases hm with
  | start hm =>
    cases hm with
    | finish hst => exact .inr (.inr ⟨by rw [h.started.mode, hst]; rfl, rfl⟩)
    | _ => exact .inl rfl
  | waiter hm =>
    cases hm with
    | first w hw hmode => exact .inr (.inl ⟨hmode, rfl⟩)
    | block w s' hw hlock hv =>
      rw [h.read_isSet w hw] at hv
      cases hv
    | _ => exact .inl rfl

/-- When the completing side has let go of the lock, nobody has it: the consumer keeps it only while
there is no value. -/
theorem Inv.inner_free {s : St T} (h : Inv kind s) (ht : s.inner.completer.hasTaken = true) :
    s.inner.p.lock = none := by
  have hl := h.futures.inner.locked
  refine hl.free ?_ ?_
  · cases hc : s.inner.completer <;> rw [hc] at ht <;> first | rfl | cases ht
  · by_contra hc
    rw [Bool.not_eq_false] at hc
    rw [hl.running hc] at ht
    cases ht

/-- A future with one operation has one continuation at most. -/
theorem registered_length {s : Future.St T} (h : Future.Inv kind s) (ho : s.ops ≤ 1) :
    s.registered.length ≤ 1 := by
  have hn : s.registered.Nodup := (List.nodup_append.mp h.answered.nodup).2.1
  have hsub : s.registered ⊆ List.range 1 := fun n hm => by
    have hk : n ∈ s.known := List.mem_append_right _ hm
    have := (h.answered.mem n).mp hk
    rw [List.mem_range]
    omega
  simpa using (List.subperm_of_subset hn hsub).length_le

/-- `await_resume` of a waiter that was resumed. -/
theorem Inv.resume_enabled {s : St T} (h : Inv kind s) {w : Nat}
    (hw : (s.waiters w).pc = .resumed) :
    ∃ s', step kind s (.waiter w) = some s' ∧ (s'.waiters w).pc = .finished := by
  have ht := h.started.woken w (by rw [hw]; rfl)
  have hv : s.inner.p.isReady = true := h.isSet ht
  cases hg : s.inner.p.get with
  | none =>
    rw [Future.PromiseType.isReady, Future.PromiseType.get_eq_none hg] at hv
    cases hv
  | some r =>
    refine ⟨({ s with inner := { s.inner with p := r.2 } }.setPc w .finished), ?_,
      by simp [St.setPc]⟩
    simp only [step, waiterStep, hw, St.get, h.inner_free ht, hv, hg]
    rfl

theorem Inv.start_enabled {s : St T} (h : Inv kind s) (hv : s.inner.completer.hasSet = true)
    (hi : s.start ≠ .idle) (hd : s.start ≠ .done) (hl : s.impl.lock = none) :
    (step kind s .start).isSome = true ∨ (step kind s (.inner .complete)).isSome = true := by
  have hlive := h.futures.inner.delivered.live hv
  have hinner : (Future.step kind s.inner .complete).isSome = true →
      (step kind s (.inner .complete)).isSome = true := fun hs => by
    simpa [step, completes] using hs
  cases hst : s.start with
  | idle => exact absurd hst hi
  | done => exact absurd hst hd
  | publishing rest =>
    refine .inl ?_
    cases rest <;> simp [step, startStep, hst]
  | awaiting =>
    by_cases hc : s.inner.consumer = .idle
    · exact .inl (by simp [step, startStep, hst, hc, hl])
    · exact (hlive hc).imp (fun hs => by simpa [step, startStep, hst, hc] using hs) hinner
  | submitted =>
    have hc := (h.futures.before (by rw [hst]; rfl)).1
    by_cases hk : s.inner.completer.hasTaken = true
    · refine .inl ?_
      simp only [step, startStep, hst, Future.step, hc, h.futures.held, h.inner_free hk]
      simp only [true_and, if_true, Option.isSome_map]
      split <;> rfl
    · refine .inr (hinner (Future.complete_enabled hv fun hdone => hk ?_))
      rw [hdone]
      rfl

/-- **A shared future serves everyone once.** -/
theorem served {s : St T} (hs : (sys kind T).Reach s) : Served kind s := by
  have h := reach_inv hs
  have hf := h.futures
  have hst := h.started
  have hl := h.listed
  have hops : s.inner.ops ≤ 1 := by
    by_cases ha : s.start.awaits = true
    · have := hf.ops ha
      omega
    · rw [(hf.before (by simpa using ha)).2]
      decide
  refine ⟨?_, ⟨registered_length hf.inner hops, hf.inner.defined⟩, hf.inner.delivered,
    fun w => (hf.own w).delivered, hst.defined, fun e s' hstep => (step_move hstep).mode h,
    fun hm => ?_, hst.unblocked, fun w hw => ⟨?_, h.resume_enabled hw⟩,
    ⟨hl.nodup, hl.appended⟩, fun hne => ?_, fun hd => ?_, fun w hw => ?_,
    h.start_enabled, fun w hw => ?_⟩
  · rw [hst.starts]
    split <;> decide
  · have ht := hst.ready (hst.mode ▸ hm)
    exact ⟨h.isSet ht, h.inner_free ht⟩
  · exact h.isSet (hst.woken w (by rw [hw]; rfl))
  · rw [hst.mode]
    exact hl.submitted hne
  · have hc := hl.closed (by rw [hd]; rfl)
    rw [hl.appended, hd, hc]
    simp [StartPc.rest]
  · have hm := (hl.parked w).mp hw
    have hn := hl.nodup
    rw [hl.appended] at hn ⊢
    refine ⟨List.mem_append_right _ hm, fun hsub => ?_, fun hi => ?_, fun hd => ?_⟩
    · exact (List.nodup_append.mp hn).2.2 w hsub w hm rfl
    · rw [hi, hl.opened hi] at hm
      simp [StartPc.rest] at hm
    · rw [hd, hl.closed (by rw [hd]; rfl)] at hm
      simp [StartPc.rest] at hm
  · have hw' := (hst.lock w).mp hw
    simp only [step, waiterStep, hw', SharedFutureImpl.awaitSuspend]
    split <;> rfl

/-- A coroutine awaits a shared future, a thread calls `get()`, and the future is completed. -/
def sharedRun : List (Ev Nat) :=
  [.coAwait 0, .waiter 0, .waiter 0, .start, .start, .wait 1 true, .waiter 1, .waiter 1,
    .own 1 (.wait false), .own 1 .consume, .own 1 .consume, .inner .lock, .inner (.set (.value 7)),
    .inner .complete, .inner .complete, .inner .complete, .start, .start, .start, .start, .start,
    .waiter 0, .waiter 0, .waiter 1, .waiter 1, .own 1 .lock, .own 1 (.set (.value ())),
    .own 1 .complete, .own 1 .complete, .own 1 .complete, .own 1 .complete, .own 1 .consume,
    .leave 1, .read 1]

theorem served_run : Served .coroutine ((sys .coroutine Nat).after sharedRun) ∧
    ((sys .coroutine Nat).after sharedRun).submitted = [0, 1] ∧
    (((sys .coroutine Nat).after sharedRun).waiters 1).thread = .returned :=
  ⟨served (Sys.reach_after (by decide)), by decide, by decide⟩

end Shared

end Corsl
