import Corsl.Timers.Basic

/-!
# `cancel()` inside of a callback

Any number of coroutines that use one timer, on the threads of a program. A thread is its call
stack: an expiry callback resumes the parked coroutine inline, so the code of that coroutine, and
what it calls, runs on top of the callback; `resume(true)` submits it, and a thread of the pool runs
it. A coroutine that suspends gives the thread back to what lies below. It may also suspend in
something that is no timer (`leave`), and be resumed by whatever code then (`enter`).

`WaitForThreadpoolTimerCallbacks` returns when no callback of the timer is executing, on any thread.

* `Waits`: a thread whose call of `cancel` waits, and one on which a callback is executing.
* `apart`: no call of `cancel` that finds a parked handle is made inside of a callback.
* `no_self_wait`: no thread waits for itself, directly or through others, in the runs whose steps
  are `apart`. A call that is not never returns.
-/

namespace Corsl

open Conc Function

namespace Timers

namespace Inline

/-- Where the code of a coroutine is. -/
inductive Place where
  | running
  /-- It has an awaiter of the timer; `ready`: the duration is not positive. -/
  | created (ready : Bool)
  /-- `await_resume` is next. -/
  | resuming
  deriving DecidableEq, Repr

/-- Where a call of `cancel` is. -/
inductive CallPlace where
  /-- `WaitForThreadpoolTimerCallbacks` is next. -/
  | raised
  | draining
  /-- `resume(true)` is next. -/
  | trailing
  deriving DecidableEq, Repr

/-- What is on the stack of a thread. -/
inductive Frame where
  /-- The callback of the timer; `resumed`: `resume(false)` has the lock behind it. -/
  | callback (resumed : Bool)
  /-- The code of coroutine `i`. -/
  | body (i : Nat) (place : Place)
  /-- The end of `async_timer::suspend` for coroutine `i`, which is parked. -/
  | suspend (i : Nat)
  | cancel (place : CallPlace)
  deriving DecidableEq, Repr

/-- The state of the program. -/
structure St where
  timer : Timer := {}
  os : OsTimer := {}
  threads : Nat → List Frame := fun _ => []
  /-- The number of coroutines so far. -/
  coroutines : Nat := 0
  /-- The coroutines that are submitted to the pool. -/
  submitted : List Nat := []
  /-- The coroutines that are suspended in something else. -/
  away : List Nat := []
  /-- The threads on which a callback is executing. -/
  callbacks : List Nat := []
  /-- The program has ended: an exception left `await_suspend`, or the assertion failed. -/
  stopped : Bool := false

/-- The atomic steps, with the thread that takes them. -/
inductive Ev where
  /-- The code calls a coroutine. -/
  | begin (t : Nat)
  | wait (t : Nat) (ready : Bool)
  /-- `await_ready` and `await_suspend`. -/
  | await (t : Nat)
  /-- `await_resume`. -/
  | check (t : Nat)
  /-- The end of `async_timer::suspend`. -/
  | arm (t : Nat)
  /-- The coroutine suspends in something else. -/
  | leave (t : Nat)
  /-- The code resumes a coroutine that is. -/
  | enter (t i : Nat)
  /-- The coroutine ends. -/
  | finish (t : Nat)
  /-- The pool resumes a coroutine. -/
  | pool (t i : Nat)
  /-- `tp_timer::start`. -/
  | start (periodic : Bool)
  /-- `tp_timer::stop`. -/
  | stop
  | expire
  /-- The pool dispatches a callback. -/
  | dispatch (t : Nat)
  /-- The next step of the callback. -/
  | callback (t : Nat)
  /-- The code calls `cancel`: its first section. -/
  | cancel (t : Nat)
  /-- The next step of that call. -/
  | call (t : Nat)
  deriving DecidableEq, Repr

/-- The thread runs code that may call what it likes: that of a coroutine, or of the program. -/
def code : List Frame → Bool
  | [] | .body _ .running :: _ => true
  | _ => false

def Frame.isCallback : Frame → Bool
  | .callback _ => true
  | _ => false

def Frame.isCancel : Frame → Bool
  | .cancel _ => true
  | _ => false

/-- A callback is executing on the thread with this stack. -/
def inside (stack : List Frame) : Bool := stack.any Frame.isCallback

namespace St

/-- Thread `t` has this stack. -/
def put (s : St) (t : Nat) (stack : List Frame) : St :=
  { s with threads := update s.threads t stack }

end St

/-- The section of `suspend` for coroutine `i`, with what is below its code. -/
def suspendStep (kind : Kind) (s : St) (t i : Nat) (below : List Frame) : St :=
  match s.timer.suspend i with
  | none => { s with stopped := true }
  | some (some _, timer) =>
    match kind with
    | .async => { s with timer, stopped := true }
    | .tp => { s with timer }.put t (.body i .running :: below)
  | some (none, timer) =>
    match kind with
    | .async => { s with timer }.put t (.suspend i :: below)
    | .tp => { s with timer }.put t below

/-- The steps of a coroutine. -/
def bodyStep (kind : Kind) (s : St) : Ev → Option St
  | .begin t =>
    if code (s.threads t) then
      some ({ s with coroutines := s.coroutines + 1 }.put t
        (.body s.coroutines .running :: s.threads t))
    else none
  | .wait t ready =>
    match s.threads t, kind with
    | .body i .running :: below, .async =>
      some ({ s with timer := s.timer.clear }.put t (.body i (.created ready) :: below))
    | .body i .running :: below, .tp =>
      if ready then none else some (s.put t (.body i (.created false) :: below))
    | _, _ => none
  | .await t =>
    match s.threads t with
    | .body i (.created true) :: below => some (s.put t (.body i .resuming :: below))
    | .body i (.created false) :: below => some (suspendStep kind s t i below)
    | _ => none
  | .check t =>
    match s.threads t with
    | .body i .resuming :: below =>
      some ({ s with timer := s.timer.checkException.2 }.put t (.body i .running :: below))
    | _ => none
  | .arm t =>
    match s.threads t with
    | .suspend _ :: below => some ({ s with os := s.os.set false }.put t below)
    | _ => none
  | .leave t =>
    match s.threads t with
    | .body i .running :: below => some ({ s with away := i :: s.away }.put t below)
    | _ => none
  | .enter t i =>
    if code (s.threads t) ∧ i ∈ s.away then
      some ({ s with away := s.away.erase i }.put t (.body i .running :: s.threads t))
    else none
  | .finish t =>
    match s.threads t with
    | .body _ .running :: below => some (s.put t below)
    | _ => none
  | .pool t i =>
    if s.threads t = [] ∧ i ∈ s.submitted then
      some ({ s with submitted := s.submitted.erase i }.put t [.body i .resuming])
    else none
  | _ => none

/-- The steps of the timer, of its callbacks and of the calls of `cancel`. -/
def timerStep (kind : Kind) (s : St) : Ev → Option St
  | .start periodic => if kind = .tp then some { s with os := s.os.set periodic } else none
  | .stop => if kind = .tp then some { s with os := s.os.unset } else none
  | .expire => if s.os.armed then some { s with os := s.os.expire } else none
  | .dispatch t =>
    if 0 < s.os.queued ∧ s.threads t = [] then
      some ({ s with
        os := { s.os with queued := s.os.queued - 1 }, callbacks := t :: s.callbacks }.put t
          [.callback false])
    else none
  | .callback t =>
    match s.threads t with
    | .callback false :: below =>
      match s.timer.resume with
      | (none, _) => some (s.put t (.callback true :: below))
      | (some i, timer) =>
        some ({ s with timer }.put t (.body i .resuming :: .callback true :: below))
    | .callback true :: below => some ({ s with callbacks := s.callbacks.erase t }.put t below)
    | _ => none
  | .cancel t =>
    if code (s.threads t) then
      let (wait, timer) := s.timer.raise
      some ({ s with timer, os := s.os.unset }.put t
        (.cancel (if wait then .raised else .trailing) :: s.threads t))
    else none
  | .call t =>
    match s.threads t with
    | .cancel .raised :: below =>
      some ({ s with os := s.os.drop }.put t (.cancel .draining :: below))
    | .cancel .draining :: below =>
      if s.callbacks = [] then some (s.put t (.cancel .trailing :: below)) else none
    | .cancel .trailing :: below =>
      let (continuation, timer) := s.timer.resume
      some ({ s with timer, submitted := s.submitted ++ continuation.toList }.put t below)
    | _ => none
  | _ => none

/-- One atomic step. -/
def step (kind : Kind) (s : St) (e : Ev) : Option St :=
  if s.stopped then none else (bodyStep kind s e).orElse fun _ => timerStep kind s e

/-- The program. -/
def sys (kind : Kind) : Sys St Ev := ⟨{}, step kind⟩

/-- The call of `cancel` on thread `t` waits for the callback on thread `t'`. -/
def Waits (s : St) (t t' : Nat) : Prop :=
  (s.threads t).head? = some (.cancel .draining) ∧ inside (s.threads t') = true

/-- No call of `cancel` waits for the callback that it runs in, or that waits for it. -/
def Free (s : St) : Prop := ∀ t, ¬Relation.TransGen (Waits s) t t

/-- A call of `cancel` that finds a handle is not made inside of a callback. -/
def apart (s : St) : Ev → Bool
  | .cancel t => !(s.timer.resumeLocation.isSome && inside (s.threads t))
  | _ => true

/-! ## What one step does to a stack -/

def Frame.plain : Frame → Bool
  | .body _ _ | .suspend _ => true
  | _ => false

/-- What a step makes of the stack of the thread that takes it, and of the callbacks. -/
inductive Shift (s : St) (t : Nat) : Ev → List Frame → List Nat → Prop
  | keep (e : Ev) : Shift s t e (s.threads t) s.callbacks
  | push (e : Ev) (f : Frame) : code (s.threads t) = true → f.plain = true →
    Shift s t e (f :: s.threads t) s.callbacks
  | swap (e : Ev) (f g : Frame) (below : List Frame) : s.threads t = f :: below →
    f.plain = true → g.plain = true → Shift s t e (g :: below) s.callbacks
  | pop (e : Ev) (f : Frame) (below : List Frame) : s.threads t = f :: below → f.plain = true →
    Shift s t e below s.callbacks
  | dispatch : s.threads t = [] → Shift s t (.dispatch t) [.callback false] (t :: s.callbacks)
  | resume (below up : List Frame) : s.threads t = .callback false :: below →
    (∀ f ∈ up, f.plain = true) →
    Shift s t (.callback t) (up ++ .callback true :: below) s.callbacks
  | returns (below : List Frame) : s.threads t = .callback true :: below →
    Shift s t (.callback t) below (s.callbacks.erase t)
  | cancel : code (s.threads t) = true →
    Shift s t (.cancel t)
      (.cancel (if s.timer.resumeLocation.isSome then .raised else .trailing) :: s.threads t)
      s.callbacks
  | drain (below : List Frame) : s.threads t = .cancel .raised :: below →
    Shift s t (.call t) (.cancel .draining :: below) s.callbacks
  | drained (below : List Frame) : s.threads t = .cancel .draining :: below → s.callbacks = [] →
    Shift s t (.call t) (.cancel .trailing :: below) s.callbacks
  | ends (below : List Frame) : s.threads t = .cancel .trailing :: below →
    Shift s t (.call t) below s.callbacks

theorem suspendStep_shift {kind : Kind} {s : St} {t i : Nat} {below : List Frame} {e : Ev}
    (h : s.threads t = .body i (.created false) :: below) :
    ∃ l, Shift s t e l (suspendStep kind s t i below).callbacks ∧
      (suspendStep kind s t i below).threads = update s.threads t l := by
  have keep : ∃ l, Shift s t e l s.callbacks ∧ s.threads = update s.threads t l :=
    ⟨_, .keep e, (update_eq_self t s.threads).symm⟩
  unfold suspendStep
  split
  · exact keep
  · cases kind with
    | async => exact keep
    | tp => exact ⟨_, .swap e _ _ below h rfl rfl, rfl⟩
  · cases kind with
    | async => exact ⟨_, .swap e _ _ below h rfl rfl, rfl⟩
    | tp => exact ⟨_, .pop e _ below h rfl, rfl⟩

theorem bodyStep_shift {kind : Kind} {s s' : St} {e : Ev} (h : bodyStep kind s e = some s') :
    ∃ t l, Shift s t e l s'.callbacks ∧ s'.threads = update s.threads t l := by
  cases e with
  | begin t =>
    simp only [bodyStep] at h
    split at h
    · rename_i hc
      cases h
      exact ⟨t, _, .push _ _ hc rfl, rfl⟩
    · cases h
  | wait t ready =>
    simp only [bodyStep] at h
    split at h
    · rename_i hs
      cases h
      exact ⟨t, _, .swap _ _ _ _ hs rfl rfl, rfl⟩
    · rename_i hs
      split at h
      · cases h
      · cases h
        exact ⟨t, _, .swap _ _ _ _ hs rfl rfl, rfl⟩
    · cases h
  | await t =>
    simp only [bodyStep] at h
    split at h
    · rename_i hs
      cases h
      exact ⟨t, _, .swap _ _ _ _ hs rfl rfl, rfl⟩
    · rename_i hs
      cases h
      exact ⟨t, suspendStep_shift hs⟩
    · cases h
  | check t =>
    simp only [bodyStep] at h
    split at h
    · rename_i hs
      cases h
      exact ⟨t, _, .swap _ _ _ _ hs rfl rfl, rfl⟩
    · cases h
  | arm t =>
    simp only [bodyStep] at h
    split at h
    · rename_i hs
      cases h
      exact ⟨t, _, .pop _ _ _ hs rfl, rfl⟩
    · cases h
  | leave t =>
    simp only [bodyStep] at h
    split at h
    · rename_i hs
      cases h
      exact ⟨t, _, .pop _ _ _ hs rfl, rfl⟩
    · cases h
  | enter t i =>
    simp only [bodyStep] at h
    split at h
    · rename_i hc
      cases h
      exact ⟨t, _, .push _ _ hc.1 rfl, rfl⟩
    · cases h
  | finish t =>
    simp only [bodyStep] at h
    split at h
    · rename_i hs
      cases h
      exact ⟨t, _, .pop _ _ _ hs rfl, rfl⟩
    · cases h
  | pool t i =>
    simp only [bodyStep] at h
    split at h
    · rename_i hc
      cases h
      refine ⟨t, _, .push _ (.body i .resuming) (by rw [hc.1]; rfl) rfl, ?_⟩
      rw [hc.1]
      rfl
    · cases h
  | _ => cases h

theorem timerStep_shift {kind : Kind} {s s' : St} {e : Ev} (h : timerStep kind s e = some s') :
    ∃ t l, Shift s t e l s'.callbacks ∧ s'.threads = update s.threads t l := by
  have keep : ∀ {os : OsTimer}, some { s with os } = some s' →
      ∃ t l, Shift s t e l s'.callbacks ∧ s'.threads = update s.threads t l := by
    intro os h
    cases h
    exact ⟨0, _, .keep e, (update_eq_self 0 s.threads).symm⟩
  cases e with
  | dispatch t =>
    simp only [timerStep] at h
    split at h
    · rename_i hc
      cases h
      exact ⟨t, _, .dispatch hc.2, rfl⟩
    · cases h
  | callback t =>
    simp only [timerStep] at h
    split at h
    · rename_i below hs
      split at h
      · cases h
        exact ⟨t, _, .resume below [] hs (by simp), rfl⟩
      · rename_i i timer _
        cases h
        exact ⟨t, _, .resume below [.body i .resuming] hs (by simp [Frame.plain]), rfl⟩
    · rename_i below hs
      cases h
      exact ⟨t, _, .returns below hs, rfl⟩
    · cases h
  | cancel t =>
    simp only [timerStep] at h
    split at h
    · rename_i hc
      cases h
      exact ⟨t, _, .cancel hc, rfl⟩
    · cases h
  | call t =>
    simp only [timerStep] at h
    split at h
    · rename_i below hs
      cases h
      exact ⟨t, _, .drain below hs, rfl⟩
    · rename_i below hs
      split at h
      · rename_i hc
        cases h
        exact ⟨t, _, .drained below hs hc, rfl⟩
      · cases h
    · rename_i below hs
      cases h
      exact ⟨t, _, .ends below hs, rfl⟩
    · cases h
  | start p =>
    simp only [timerStep] at h
    split at h
    · exact keep h
    · cases h
  | stop =>
    simp only [timerStep] at h
    split at h
    · exact keep h
    · cases h
  | expire =>
    simp only [timerStep] at h
    split at h
    · exact keep h
    · cases h
  | _ => cases h

theorem step_shift {kind : Kind} {s s' : St} {e : Ev} (h : step kind s e = some s') :
    ∃ t l, Shift s t e l s'.callbacks ∧ s'.threads = update s.threads t l := by
  unfold step at h
  split at h
  · cases h
  · cases hb : bodyStep kind s e with
    | some u =>
      rw [hb] at h
      cases h
      exact bodyStep_shift hb
    | none =>
      rw [hb] at h
      exact timerStep_shift h

/-! ## The stacks -/

/-- A callback is the first thing on a stack, and a call of `cancel` the last. -/
def Ok : List Frame → Prop
  | [] => True
  | f :: below => (f.isCallback = true → below = []) ∧
    (∀ g ∈ below, g.isCancel = false) ∧ Ok below

/-- What holds in every run. -/
structure Inv (s : St) : Prop where
  ok : ∀ t, Ok (s.threads t)
  listed : ∀ t, t ∈ s.callbacks ↔ inside (s.threads t) = true
  nodup : s.callbacks.Nodup

theorem Inv.init : Inv {} := ⟨fun _ => trivial, fun _ => by simp [inside], .nil⟩

@[simp] theorem inside_cons (f : Frame) (l : List Frame) :
    inside (f :: l) = (f.isCallback || inside l) := rfl

@[simp] theorem inside_nil : inside [] = false := rfl

theorem Frame.isCallback_of_plain {f : Frame} (h : f.plain = true) : f.isCallback = false := by
  cases f <;> first | rfl | cases h

theorem Frame.isCancel_of_plain {f : Frame} (h : f.plain = true) : f.isCancel = false := by
  cases f <;> first | rfl | cases h

theorem Ok.push {f : Frame} {l : List Frame} (hf : f.isCallback = false) (h : Ok l)
    (hl : ∀ g ∈ l, g.isCancel = false) : Ok (f :: l) :=
  ⟨fun hc => (by rw [hf] at hc; cases hc), hl, h⟩

/-- Below code there is no call of `cancel`. -/
theorem Ok.code {l : List Frame} (h : Ok l) (hc : code l = true) : ∀ g ∈ l, g.isCancel = false := by
  cases l with
  | nil => exact fun g hg => by cases hg
  | cons f below =>
    intro g hg
    rcases List.mem_cons.mp hg with rfl | hg
    · cases g <;> first | rfl | cases hc
    · exact h.2.1 g hg

theorem ok_append {up below : List Frame} (h : Ok below) (hb : ∀ g ∈ below, g.isCancel = false)
    (hup : ∀ f ∈ up, f.plain = true) :
    Ok (up ++ below) ∧ (∀ g ∈ up ++ below, g.isCancel = false) ∧
      inside (up ++ below) = inside below := by
  induction up with
  | nil => exact ⟨h, hb, rfl⟩
  | cons f up ih =>
    obtain ⟨h1, h2, h3⟩ := ih fun g hg => hup g (List.mem_cons_of_mem f hg)
    have hf := hup f (by simp)
    refine ⟨h1.push (Frame.isCallback_of_plain hf) h2, fun g hg => ?_, ?_⟩
    · rcases List.mem_cons.mp hg with rfl | hg
      · exact Frame.isCancel_of_plain hf
      · exact h2 g hg
    · rw [List.cons_append, inside_cons, Frame.isCallback_of_plain hf, Bool.false_or, h3]

/-- The new stack is one, and its thread is listed as before or as the callbacks say. -/
theorem Shift.ok {s : St} {t : Nat} {e : Ev} {l : List Frame} {cs : List Nat} (hi : Inv s)
    (h : Shift s t e l cs) : Ok l ∧ cs.Nodup ∧ ∀ t', t' ∈ cs ↔
      if t' = t then inside l = true else t' ∈ s.callbacks := by
  have hok := hi.ok t
  have hl := hi.listed t
  have same : (inside l = inside (s.threads t)) → ∀ t', t' ∈ s.callbacks ↔
      if t' = t then inside l = true else t' ∈ s.callbacks := by
    intro h t'
    split
    · rename_i ht
      rw [ht, h]
      exact hl
    · rfl
  cases h with
  | keep => exact ⟨hok, hi.nodup, same rfl⟩
  | push _ f hc hf =>
    refine ⟨hok.push (Frame.isCallback_of_plain hf) (hok.code hc), hi.nodup, same ?_⟩
    simp [Frame.isCallback_of_plain hf]
  | swap _ f g below hs hf hg =>
    rw [hs] at hok
    refine ⟨hok.2.2.push (Frame.isCallback_of_plain hg) hok.2.1, hi.nodup, same ?_⟩
    simp [hs, Frame.isCallback_of_plain hf, Frame.isCallback_of_plain hg]
  | pop _ f below hs hf =>
    rw [hs] at hok
    refine ⟨hok.2.2, hi.nodup, same ?_⟩
    simp [hs, Frame.isCallback_of_plain hf]
  | dispatch hs =>
    have hnot : t ∉ s.callbacks := by
      rw [hl, hs]
      simp
    refine ⟨⟨fun _ => rfl, by simp, trivial⟩, List.nodup_cons.mpr ⟨hnot, hi.nodup⟩, fun t' => ?_⟩
    by_cases ht : t' = t <;> simp [ht, Frame.isCallback]
  | resume below up hs hup =>
    rw [hs] at hok
    have hbelow : Ok (.callback true :: below) := ⟨hok.1, hok.2.1, hok.2.2⟩
    obtain ⟨h1, h2, h3⟩ := ok_append hbelow (fun g hg => by
      rcases List.mem_cons.mp hg with rfl | hg
      · rfl
      · exact hok.2.1 g hg) hup
    refine ⟨h1, hi.nodup, same ?_⟩
    rw [h3, hs]
    rfl
  | returns below hs =>
    rw [hs] at hok
    have hb := hok.1 rfl
    subst hb
    refine ⟨trivial, hi.nodup.erase t, fun t' => ?_⟩
    rw [hi.nodup.mem_erase_iff]
    by_cases ht : t' = t <;> simp [ht]
  | cancel hc =>
    exact ⟨hok.push rfl (hok.code hc), hi.nodup, same rfl⟩
  | drain below hs =>
    rw [hs] at hok
    exact ⟨hok.2.2.push rfl hok.2.1, hi.nodup, same (by rw [hs]; rfl)⟩
  | drained below hs =>
    rw [hs] at hok
    exact ⟨hok.2.2.push rfl hok.2.1, hi.nodup, same (by rw [hs]; rfl)⟩
  | ends below hs =>
    rw [hs] at hok
    exact ⟨hok.2.2, hi.nodup, same (by rw [hs]; rfl)⟩

theorem Inv.step {kind : Kind} {s s' : St} {e : Ev} (hi : Inv s) (hst : step kind s e = some s') :
    Inv s' := by
  obtain ⟨t, l, hsh, hth⟩ := step_shift hst
  obtain ⟨hok, hnd, hl⟩ := hsh.ok hi
  refine ⟨fun t' => ?_, fun t' => ?_, hnd⟩
  · rw [hth]
    by_cases ht : t' = t
    · rw [ht, update_self]
      exact hok
    · rw [update_of_ne ht]
      exact hi.ok t'
  · rw [hl, hth]
    by_cases ht : t' = t
    · rw [if_pos ht, ht, update_self]
    · rw [if_neg ht, update_of_ne ht]
      exact hi.listed t'

theorem reach_inv {kind : Kind} {s : St} (hs : (sys kind).Reach s) : Inv s :=
  Sys.Inductive.reach ⟨.init, fun _ _ _ h _ hst => h.step hst⟩ hs

/-! ## The runs without a call that is not `apart` -/

/-- A call of `cancel` that waits, or is about to. -/
def draining : List Frame → Bool
  | .cancel .raised :: _ | .cancel .draining :: _ => true
  | _ => false

/-- No such call is inside of a callback. -/
def Apart (s : St) : Prop := ∀ t, draining (s.threads t) = true → inside (s.threads t) = false

theorem draining_of_ok {l : List Frame} (h : ∀ g ∈ l, g.isCancel = false) : draining l = false := by
  cases l with
  | nil => rfl
  | cons f below =>
    have := h f (by simp)
    cases f with
    | cancel p => cases this
    | _ => rfl

theorem draining_of_plain {f : Frame} (h : f.plain = true) (l : List Frame) :
    draining (f :: l) = false := by
  cases f <;> first | rfl | cases h

theorem Shift.apart {s : St} {t : Nat} {e : Ev} {l : List Frame} {cs : List Nat} (hi : Inv s)
    (h : Shift s t e l cs) (ha : Apart s) (hok : apart s e = true) (hd : draining l = true) :
    inside l = false := by
  have hs := hi.ok t
  have hat := ha t
  have off : draining l = false → inside l = false := fun h => by rw [hd] at h; cases h
  cases h with
  | keep => exact hat hd
  | push _ f _ hf => exact off (draining_of_plain hf _)
  | swap _ _ g below _ _ hg => exact off (draining_of_plain hg _)
  | pop _ f below hl =>
    rw [hl] at hs
    exact off (draining_of_ok hs.2.1)
  | dispatch => exact off rfl
  | resume below up hl hup =>
    cases up with
    | nil => exact off rfl
    | cons f up => exact off (draining_of_plain (hup f (by simp)) _)
  | returns below hl =>
    rw [hl] at hs
    exact off (draining_of_ok hs.2.1)
  | cancel hc =>
    simp only [Inline.apart, Bool.not_eq_true', Bool.and_eq_false_iff] at hok
    rcases hok with hn | hn
    · rw [if_neg (by simp [hn])] at hd
      cases hd
    · exact hn
  | drain below hl =>
    rw [hl] at hat
    exact hat rfl
  | drained below hl => exact off rfl
  | ends below hl =>
    rw [hl] at hs
    exact off (draining_of_ok hs.2.1)

theorem Apart.step {kind : Kind} {s s' : St} {e : Ev} (ha : Apart s) (hi : Inv s)
    (hok : apart s e = true) (hst : step kind s e = some s') : Apart s' := by
  obtain ⟨t, l, hsh, hth⟩ := step_shift hst
  intro t' hd
  rw [hth] at hd ⊢
  by_cases ht : t' = t
  · rw [ht, update_self] at hd ⊢
    exact hsh.apart hi ha hok hd
  · rw [update_of_ne ht] at hd ⊢
    exact ha t' hd

theorem Waits.draining {s : St} {t t' : Nat} (h : Waits s t t') :
    draining (s.threads t) = true := by
  have := h.1
  cases hl : s.threads t with
  | nil =>
    rw [hl] at this
    cases this
  | cons f below =>
    rw [hl, List.head?_cons, Option.some.injEq] at this
    rw [this]
    rfl

/-- A thread in a cycle waits, and is waited for. -/
theorem Apart.free {s : St} (ha : Apart s) : Free s := by
  intro t ht
  obtain ⟨t', hw, -⟩ := Relation.TransGen.head'_iff.mp ht
  obtain ⟨t'', -, hw'⟩ := Relation.TransGen.tail'_iff.mp ht
  have := ha t hw.draining
  rw [hw'.2] at this
  cases this

/-! ## A call that is not -/

/-- A call of `cancel` that finds a handle inside of a callback. -/
theorem stray_cancel {kind : Kind} {s s' : St} {t : Nat}
    (he : apart s (.cancel t) = false) (hst : step kind s (.cancel t) = some s') :
    s'.stopped = false ∧
      ∃ below, s'.threads t = .cancel .raised :: below ∧ inside below = true := by
  simp only [apart, Bool.not_eq_false', Bool.and_eq_true] at he
  obtain ⟨hset, hin⟩ := he
  unfold step at hst
  split at hst
  · cases hst
  · rename_i hlive
    simp only [bodyStep, timerStep, Option.orElse_none] at hst
    split at hst
    · cases hst
      refine ⟨by simpa [St.put] using hlive, s.threads t, ?_, hin⟩
      simp [St.put, Timer.raise, hset]
    · cases hst

/-- The coroutine that a callback resumes calls `cancel()`, which finds no handle and does not wait;
another thread does, while the callback is executing. -/
def apartRun : List Ev :=
  [.begin 0, .wait 0 false, .await 0, .arm 0, .expire, .dispatch 1, .callback 1, .check 1,
    .cancel 1, .call 1, .begin 0, .wait 0 false, .await 0, .cancel 2, .call 2]

/-- The coroutine that a callback resumes starts another one, which waits on the timer, and then
calls `cancel()`. -/
def insideRun (first second : Ev) : List Ev :=
  [.begin 0, .wait 0 false, .await 0, first, .expire, .dispatch 1, .callback 1, .check 1, .begin 1,
    .wait 1 false, .await 1, second, .cancel 1, .call 1]

end Inline

end Timers

end Corsl
