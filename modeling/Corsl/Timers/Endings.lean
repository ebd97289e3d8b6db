import Corsl.Conc.History
import Corsl.Conc.Measure
import Corsl.Timers.Lemmas

/-!
# How a cancelled wait ends

* `history`: a timer with the waits that have ended, and what each has thrown.
* `Hit`: wait `n` is in progress, the flag is up, and where the wait is parked call `k` of `cancel`
  has not taken its continuation yet. No step of any thread leads out of it but the one that ends
  the wait with `timer_cancelled`.
* `Hit.ends`: the threads that are at work already lead there: the wait ends once, and so. No timer
  has to expire for it, and no other call has to come.
-/

namespace Corsl

open Conc Function

namespace Timers

/-- The wait that a step ends, with what it throws. An `await_suspend` that is `noexcept` ends the
program, not the wait. -/
def endings (kind : Kind) (s : St) : Ev → List (Nat × Option Exception)
  | .await =>
    match kind, s.coro with
    | .tp, .created n false =>
      match s.timer.suspend n with
      | some (some e, _) => [(n, some e)]
      | _ => []
    | _, _ => []
  | .check =>
    match s.coro with
    | .resuming n _ => [(n, s.timer.checkException.1)]
    | _ => []
  | _ => []

/-- A timer, and the waits that have ended. -/
def history (kind : Kind) : Sys (St × List (Nat × Option Exception)) Ev :=
  (sys kind).logged (endings kind)

variable {kind : Kind} {s s' : St} {e : Ev}

/-! ## What one step does to the waits -/

theorem step_live (h : step kind s e = some s') :
    s.terminated = false ∧ liveStep kind s e = some s' := by
  unfold step at h
  split at h
  · cases h
  · rename_i ht
    exact ⟨by simpa using ht, h⟩

theorem step_of_live (ht : s.terminated = false) (h : liveStep kind s e = some s') :
    step kind s e = some s' := by
  rw [step, if_neg (by simp [ht])]
  exact h

/-- A wait begins; `async_timer::wait` clears the flag. -/
theorem wait_begins {ready : Bool} (h : step kind s (.wait ready) = some s') :
    s.coro = .idle ∧ s'.coro = .created s.waits ready ∧ s'.terminated = false ∧
      s'.timer = (if kind = .async then s.timer.clear else s.timer) ∧ s'.cancels = s.cancels ∧
      (kind = .tp → ready = false) := by
  obtain ⟨hl, h⟩ := step_live h
  simp only [liveStep] at h
  split at h
  · rename_i hc
    cases kind with
    | async =>
      cases h
      exact ⟨hc, rfl, hl, rfl, rfl, fun hk => by cases hk⟩
    | tp =>
      cases ready with
      | true => cases h
      | false =>
        cases h
        exact ⟨hc, rfl, hl, rfl, rfl, fun _ => rfl⟩
  · cases h

/-- What a step that ends the waits `es` does to the wait in progress: it stays, or a wait begins,
or it ends. -/
inductive Turn (s s' : St) : List (Nat × Option Exception) → Prop
  | stay : s'.coro.wait? = s.coro.wait? → s'.waits = s.waits → Turn s s' []
  | starts : s.coro = .idle → s'.coro.wait? = some s.waits → s'.waits = s.waits + 1 → Turn s s' []
  | ends (n : Nat) (thrown : Option Exception) : s.coro.wait? = some n → s'.coro = .idle →
    s'.waits = s.waits → Turn s s' [(n, thrown)]

theorem suspendStep_turn {n : Nat} (hc : s.coro = .created n false) :
    Turn s (suspendStep kind s n) (endings kind s .await) := by
  cases hs : s.timer.suspend n with
  | none => cases kind <;> simp only [endings, suspendStep, hs, hc] <;> exact .stay (by rw [hc]) rfl
  | some x =>
    obtain ⟨_ | ex, timer⟩ := x
    · cases kind <;> simp only [endings, suspendStep, hs, hc] <;> exact .stay (by rw [hc]; rfl) rfl
    · cases kind with
      | async =>
        simp only [endings, suspendStep, hs]
        exact .stay rfl rfl
      | tp =>
        simp only [endings, suspendStep, hs, hc]
        exact .ends n (some ex) (by rw [hc]; rfl) rfl rfl

theorem step_turn (h : step kind s e = some s') (hi : Inv s) : Turn s s' (endings kind s e) := by
  have hm := step_move h
  obtain ⟨-, h⟩ := step_live h
  cases e with
  | await =>
    simp only [liveStep] at h
    split at h
    · rename_i n hc
      cases h
      cases kind <;> simp only [endings, hc] <;> exact .stay (by rw [hc]; rfl) rfl
    · rename_i n hc
      cases h
      exact suspendStep_turn hc
    · cases h
  | check =>
    simp only [liveStep] at h
    split at h
    · rename_i n b hc
      cases h
      simp only [endings, hc]
      exact .ends n s.timer.checkException.1 (by rw [hc]; rfl) rfl rfl
    · cases h
  | wait ready =>
    cases hm with
    | wait _ _ hc => exact .starts hc rfl rfl
    | os => exact .stay rfl rfl
  | callback k =>
    cases hm with
    | callbackTake k n _ _ hc => exact .stay (by rw [hc]; rfl) rfl
    | callbackLost k n hl hc => exact absurd ((hi.stored n).mp hl) hc
    | callbackEnd => exact .stay rfl rfl
    | os => exact .stay rfl rfl
  | call k =>
    cases hm with
    | cancelTake k n _ _ hc => exact .stay (by rw [hc]; rfl) rfl
    | cancelLost k n hl hc => exact absurd ((hi.stored n).mp hl) hc
    | drain => exact .stay rfl rfl
    | os => exact .stay rfl rfl
  | _ => cases hm <;> exact .stay rfl rfl

/-- The waits that have ended are over. -/
def Over (s : St × List (Nat × Option Exception)) : Prop :=
  ∀ x ∈ s.2, x.1 < s.1.waits ∧ s.1.coro.wait? ≠ some x.1

theorem Over.turn {l es : List (Nat × Option Exception)} (h : Over (s, l)) (hi : Inv s)
    (ht : Turn s s' es) : Over (s', l ++ es) := by
  cases ht with
  | stay hw hn =>
    rw [List.append_nil]
    intro x hx
    rw [hn, hw]
    exact h x hx
  | starts hc hw hn =>
    rw [List.append_nil]
    intro x hx
    have := (h x hx).1
    simp only at this
    rw [hn, hw, Ne, Option.some.injEq]
    omega
  | ends n t hw hc hn =>
    intro x hx
    rw [hn, hc]
    refine ⟨?_, by simp [Coro.wait?]⟩
    rcases List.mem_append.mp hx with hx | hx
    · exact (h x hx).1
    · rw [List.mem_singleton.mp hx]
      exact hi.wait n hw

theorem reach_over {s : St × List (Nat × Option Exception)} {ok}
    (hs : (history kind).ReachBy ok s) : Over s :=
  hs.logged_induction (I := Inv) (fun _ h => reach_inv h) (fun _ h => (by cases h))
    fun _ _ _ _ hi hj _ hst => hj.turn hi (step_turn hst hi)

/-- The wait in progress has not ended. -/
theorem Over.results_nil {s : St × List (Nat × Option Exception)} (h : Over s) {n : Nat}
    (hn : s.1.coro.wait? = some n) : Sys.results s.2 n = [] :=
  Sys.results_eq_nil.mpr fun x hx hxn => (h x hx).2 (hxn ▸ hn)

/-- A step of `resume` takes the handle of the wait that is parked. -/
theorem resumer_takes {n : Nat} (hi : Inv s) (hst : step kind s e = some s')
    (hr : (s.resumer e).isSome = true) (hl : s.timer.resumeLocation = some n) :
    s.coro = .parked n ∧ s'.coro = .resuming n true ∧ s'.waits = s.waits ∧
      s'.terminated = false := by
  have hc := (hi.stored n).mp hl
  obtain ⟨hlive, hs⟩ := step_live hst
  refine ⟨hc, ?_⟩
  cases e with
  | callback k =>
    have hpc : (s.callbacks k).pc = .dispatched := by
      by_contra hn
      rw [St.resumer, if_neg hn] at hr
      cases hr
    simp only [liveStep, callbackStep, hpc, St.resume_parked hl hc] at hs
    cases hs
    exact ⟨rfl, rfl, hlive⟩
  | call k =>
    have hpc : (s.cancels k).pc = .trailing := by
      by_contra hn
      rw [St.resumer, if_neg hn] at hr
      cases hr
    simp only [liveStep, callStep, hpc, St.resume_parked hl hc] at hs
    cases hs
    exact ⟨rfl, rfl, hlive⟩
  | _ => cases hr

/-- The wait has ended with `r`. -/
structure Past (s : St × List (Nat × Option Exception)) (n : Nat) (r : Option Exception) :
    Prop where
  result : Sys.results s.2 n = [r]
  lt : n < s.1.waits
  ne : s.1.coro.wait? ≠ some n

/-- A wait that has ended does not end again. -/
theorem Past.turn {l es : List (Nat × Option Exception)} {n : Nat} {r : Option Exception}
    (h : Past (s, l) n r) (ht : Turn s s' es) : Past (s', l ++ es) n r := by
  obtain ⟨hr, hlt, hne⟩ := h
  simp only at hr hlt hne
  cases ht with
  | stay hw hn => exact ⟨by rw [List.append_nil]; exact hr, hn ▸ hlt, hw ▸ hne⟩
  | starts hc hw hn =>
    refine ⟨by rw [List.append_nil]; exact hr, ?_, ?_⟩
    · show n < s'.waits
      omega
    · show s'.coro.wait? ≠ some n
      rw [hw, Ne, Option.some.injEq]
      omega
  | ends m t hw hc hn =>
    refine ⟨?_, hn ▸ hlt, by simp [hc, Coro.wait?]⟩
    have hmn : m ≠ n := fun h => hne (h ▸ hw)
    rw [Sys.results_append, hr, Sys.results_eq_nil.mpr (by simpa using hmn)]
    rfl

/-- The wait in progress ends. -/
theorem Over.past {l : List (Nat × Option Exception)} (h : Over (s, l)) (hi : Inv s) {n : Nat}
    {r : Option Exception} (hn : s.coro.wait? = some n) (hc : s'.coro = .idle)
    (hw : s'.waits = s.waits) : Past (s', l ++ [(n, r)]) n r := by
  refine ⟨?_, ?_, by simp [hc, Coro.wait?]⟩
  · rw [Sys.results_append, h.results_nil hn, Sys.results_self, List.nil_append]
  · show n < s'.waits
    rw [hw]
    exact hi.wait n hn

/-! ## The wait that is hit -/

/-- Where the wait in progress is, when the flag is up. -/
def Place (kind : Kind) (s : St) (k n : Nat) : Prop :=
  match s.coro with
  | .idle => False
  | .created m ready => m = n ∧ (ready = true ∨ kind = .tp)
  | .parked m => m = n ∧ (s.cancels k).pc.active = true
  | .resuming m _ => m = n

/-- Wait `n` is in progress, and will throw (module doc). -/
structure Hit (kind : Kind) (s : St) (k n : Nat) : Prop where
  live : s.terminated = false
  flag : s.timer.cancellationRequested = true
  place : Place kind s k n

theorem Hit.wait? {k n : Nat} (h : Hit kind s k n) : s.coro.wait? = some n := by
  have hp := h.place
  unfold Place at hp
  split at hp <;> simp_all [Coro.wait?]

/-- A step that changes neither the coroutine nor the flag, nor where the call is. -/
theorem Hit.keep {k n : Nat} (h : Hit kind s k n) (hl : s'.terminated = s.terminated)
    (hf : s'.timer.cancellationRequested = true) (hc : s'.coro = s.coro)
    (hk : s.coro = .parked n → (s'.cancels k).pc.active = true) : Hit kind s' k n := by
  have hp := h.place
  refine ⟨hl ▸ h.live, hf, ?_⟩
  unfold Place at hp ⊢
  rw [hc]
  cases hco : s.coro with
  | parked m =>
    rw [hco] at hp
    obtain ⟨rfl, -⟩ := hp
    exact ⟨rfl, hk hco⟩
  | _ =>
    rw [hco] at hp
    exact hp

/-- A step that wakes the wait. -/
theorem Hit.wake {k n : Nat} (h : Hit kind s k n) {m : Nat} (hc : s.coro = .parked m)
    (hl : s'.terminated = s.terminated)
    (hf : s'.timer.cancellationRequested = s.timer.cancellationRequested)
    (hc' : s'.coro = .resuming m true) : Hit kind s' k n := by
  have hp := h.place
  rw [Place, hc] at hp
  refine ⟨hl ▸ h.live, hf ▸ h.flag, ?_⟩
  rw [Place, hc']
  exact hp.1

/-- While a wait is parked, a call of `cancel` that goes on has not taken it, or takes it now. -/
theorem call_active {k n : Nat} (h : step kind s (.call k) = some s')
    (hl : s.timer.resumeLocation = some n) (hl' : s'.timer.resumeLocation = some n) :
    (s'.cancels k).pc.active = true := by
  obtain ⟨-, h⟩ := step_live h
  simp only [liveStep, callStep] at h
  split at h
  · cases h
    simp [CancelPc.active]
  · split at h
    · cases h
      simp [CancelPc.active]
    · cases h
  · cases h
    simp [St.resume, Timer.resume, hl, St.wake] at hl'
    split at hl' <;> simp at hl'
  · cases h

theorem cancel_unborn {k : Nat} (h : step kind s (.cancel k) = some s') :
    (s.cancels k).pc = .unborn ∧ (s'.cancels k).pc.active = true ∧ s'.coro = s.coro ∧
      s'.terminated = s.terminated ∧ s'.timer.cancellationRequested = true := by
  obtain ⟨-, h⟩ := step_live h
  simp only [liveStep] at h
  split at h
  · rename_i hk
    cases h
    refine ⟨hk, ?_, rfl, rfl, rfl⟩
    simp only [update_self]
    split <;> rfl
  · cases h

/-- **No step but the end of the wait leads out.** -/
theorem Hit.step {k n : Nat} (h : Hit kind s k n) (hi : Inv s) (hst : step kind s e = some s') :
    (endings kind s e = [] ∧ Hit kind s' k n) ∨
      (endings kind s e = [(n, some .timerCancelled)] ∧ s'.coro = .idle ∧ s'.waits = s.waits) := by
  have hp := h.place
  have hm := step_move hst
  obtain ⟨hlive, hs⟩ := step_live hst
  cases e with
  | wait ready =>
    cases hm with
    | wait _ _ hc =>
      rw [Place, hc] at hp
      exact hp.elim
    | os => exact .inl ⟨rfl, h.keep rfl h.flag rfl fun hc => (by rw [Place, hc] at hp; exact hp.2)⟩
  | await =>
    simp only [liveStep] at hs
    unfold Place at hp
    split at hs
    · rename_i m hc
      cases hs
      rw [hc] at hp
      refine .inl ⟨by cases kind <;> simp [endings, hc], hlive, h.flag, ?_⟩
      exact hp.1
    · rename_i m hc
      cases hs
      rw [hc] at hp
      obtain ⟨rfl, hr | rfl⟩ := hp
      · cases hr
      · refine .inr ?_
        simp [endings, hc, suspendStep, Timer.suspend_cancelled h.flag]
    · cases hs
  | check =>
    simp only [liveStep] at hs
    unfold Place at hp
    split at hs
    · rename_i m b hc
      cases hs
      rw [hc] at hp
      refine .inr ⟨?_, rfl, rfl⟩
      simp only [endings, hc, Timer.checkException_cancelled h.flag, ← hp]
    · cases hs
  | callback i =>
    refine .inl ⟨rfl, ?_⟩
    cases hm with
    | callbackTake i m _ _ hc => exact h.wake hc rfl rfl rfl
    | callbackLost i m hl hc => exact absurd ((hi.stored m).mp hl) hc
    | callbackEnd => exact h.keep rfl h.flag rfl fun hc => (by rw [Place, hc] at hp; exact hp.2)
    | os => exact h.keep rfl h.flag rfl fun hc => (by rw [Place, hc] at hp; exact hp.2)
  | cancel i =>
    obtain ⟨hun, hact, hc, ht, hf⟩ := cancel_unborn hst
    refine .inl ⟨rfl, h.keep ht hf hc fun hpk => ?_⟩
    by_cases hik : k = i
    · rw [hik]
      exact hact
    · rw [Place, hpk] at hp
      cases hm with
      | cancel => simpa [hik] using hp.2
      | os => exact hp.2
  | call i =>
    refine .inl ⟨rfl, ?_⟩
    have hact := call_active hst (n := n)
    cases hm with
    | cancelTake i m _ _ hc => exact h.wake hc rfl rfl rfl
    | cancelLost i m hl hc => exact absurd ((hi.stored m).mp hl) hc
    | drain _ pc =>
      refine h.keep rfl h.flag rfl fun hpk => ?_
      by_cases hik : k = i
      · have hl := (hi.stored n).mpr hpk
        rw [hik]
        exact hact hl hl
      · rw [Place, hpk] at hp
        simpa [St.setCancel, hik] using hp.2
    | os => exact h.keep rfl h.flag rfl fun hc => (by rw [Place, hc] at hp; exact hp.2)
  | _ =>
    refine .inl ⟨rfl, ?_⟩
    cases hm <;>
      exact h.keep rfl h.flag rfl fun hc => (by rw [Place, hc] at hp; exact hp.2)

/-! ## The threads at work end it -/

/-- The callbacks that a call waits for are there. -/
structure Listed (s : St) : Prop where
  born : ∀ i, i < s.started → (s.callbacks i).pc ≠ .unborn
  waited : ∀ k ks, (s.cancels k).pc = .draining ks → ∀ i ∈ ks, i < s.started

theorem Listed.init : Listed {} := ⟨fun _ h => absurd h (Nat.not_lt_zero _), by simp⟩

theorem mem_running {i : Nat} : i ∈ s.running ↔ i < s.started ∧ (s.callbacks i).pc ≠ .done := by
  simp [St.running]

theorem callStep_draining {k i : Nat} {ks : List Nat} (h : step kind s (.call k) = some s')
    (hk : (s'.cancels i).pc = .draining ks) : (s.cancels i).pc = .draining ks ∨ ks = s.running := by
  obtain ⟨-, h⟩ := step_live h
  by_cases hik : i = k
  · subst hik
    simp only [liveStep, callStep] at h
    split at h
    · cases h
      simp only [update_self, CancelPc.draining.injEq] at hk
      exact .inr hk.symm
    · split at h
      · cases h
        simp at hk
      · cases h
    · cases h
      simp at hk
    · cases h
  · left
    rw [← hk]
    simp only [liveStep, callStep] at h
    split at h
    · cases h
      simp [hik]
    · split at h
      · cases h
        simp [hik]
      · cases h
    · cases h
      simp [hik]
    · cases h

theorem cancel_draining {k i : Nat} {ks : List Nat} (h : step kind s (.cancel k) = some s')
    (hk : (s'.cancels i).pc = .draining ks) : (s.cancels i).pc = .draining ks := by
  obtain ⟨-, h⟩ := step_live h
  simp only [liveStep] at h
  split at h
  · cases h
    by_cases hik : i = k
    · subst hik
      simp only [update_self] at hk
      split at hk <;> cases hk
    · simpa [hik] using hk
  · cases h

theorem callbackStep_born {k i : Nat} (h : step kind s (.callback k) = some s')
    (hi : (s.callbacks i).pc ≠ .unborn) : (s'.callbacks i).pc ≠ .unborn := by
  obtain ⟨-, h⟩ := step_live h
  simp only [liveStep, callbackStep] at h
  by_cases hik : i = k
  · subst hik
    split at h
    · cases h
      simp only [update_self]
      split <;> simp
    · split at h
      · cases h
      · cases h
        simp
    · cases h
  · split at h
    · cases h
      simpa [hik] using hi
    · split at h
      · cases h
      · cases h
        simpa [hik] using hi
    · cases h

theorem Listed.step (h : Listed s) (hst : step kind s e = some s') : Listed s' := by
  have hm := step_move hst
  have same : ∀ {s' : St}, s'.started = s.started → s'.callbacks = s.callbacks →
      s'.cancels = s.cancels → Listed s' := by
    intro s' h1 h2 h3
    exact ⟨by rw [h1, h2]; exact h.born, by rw [h1, h3]; exact h.waited⟩
  cases e with
  | dispatch =>
    cases hm with
    | dispatch os =>
      refine ⟨fun i hi => ?_, fun k ks hk i hi => ?_⟩
      · by_cases hs : i = s.started
        · simp [hs]
        · simp only at hi
          simpa [hs] using h.born i (by omega)
      · exact Nat.lt_succ_of_lt (h.waited k ks hk i hi)
    | os => exact same rfl rfl rfl
  | callback k =>
    have hb : ∀ i, (s.callbacks i).pc ≠ .unborn → (s'.callbacks i).pc ≠ .unborn :=
      fun i => callbackStep_born hst
    cases hm <;> exact ⟨fun i hi => hb i (h.born i hi), h.waited⟩
  | cancel k =>
    have hc : ∀ i ks, (s'.cancels i).pc = .draining ks → (s.cancels i).pc = .draining ks :=
      fun i ks => cancel_draining hst
    cases hm <;> exact ⟨h.born, fun i ks hi => h.waited i ks (hc i ks hi)⟩
  | call k =>
    have hc : ∀ i ks, (s'.cancels i).pc = .draining ks → ∀ j ∈ ks, j < s.started := by
      intro i ks hi j hj
      rcases callStep_draining hst hi with hd | hd
      · exact h.waited i ks hd j hj
      · exact (mem_running.mp (hd ▸ hj)).1
    cases hm <;> exact ⟨h.born, hc⟩
  | _ => cases hm <;> exact same rfl rfl rfl

theorem reach_listed (hs : (sys kind).Reach s) : Listed s :=
  Sys.Inductive.reach ⟨.init, fun _ _ _ h _ hst => h.step hst⟩ hs

/-- The steps of the coroutine, and of the callbacks and the calls that are under way. -/
def Ev.serves : Ev → Prop
  | .await | .check | .callback _ | .call _ => True
  | _ => False

/-- The steps that the call has left. -/
def CancelPc.left : CancelPc → Nat
  | .raised => 3
  | .draining _ => 2
  | .trailing => 1
  | .unborn | .done => 0

/-- The steps that the callback has left. -/
def CallbackPc.left : CallbackPc → Nat
  | .dispatched => 2
  | .inline _ => 1
  | .unborn | .done => 0

/-- The steps that call `k` and the callbacks have left. -/
def St.left (s : St) (k : Nat) : Nat :=
  match s.coro with
  | .created _ _ => 2
  | .parked _ =>
    1 + (s.cancels k).pc.left + total (fun c => c.pc.left) s.started s.callbacks
  | .resuming _ _ => 1
  | .idle => 0

/-- The call of `cancel` that is to take a parked wait, or a callback that it waits for, goes on. -/
theorem parked_serves {k n : Nat} (hi : Inv s) (hl : Listed s) (ht : s.terminated = false)
    (hc : s.coro = .parked n) (hk : (s.cancels k).pc.active = true) :
    ∃ e s', e.serves ∧ step kind s e = some s' ∧ s'.left k < s.left k := by
  have hloc := (hi.stored n).mpr hc
  have takes : ∀ {s' : St}, s'.coro = .resuming n true → s'.left k < s.left k := by
    intro s' h
    have : 0 < (s.cancels k).pc.left := by
      cases hp : (s.cancels k).pc <;> rw [hp] at hk <;> simp_all [CancelPc.active, CancelPc.left]
    simp only [St.left, h, hc]
    omega
  cases hp : (s.cancels k).pc with
  | unborn => rw [hp] at hk; cases hk
  | done => rw [hp] at hk; cases hk
  | raised =>
    refine ⟨.call k, _, trivial, step_of_live ht (by simp only [liveStep, callStep, hp]; rfl), ?_⟩
    simp [St.left, hc, hp, CancelPc.left]
  | trailing =>
    refine ⟨.call k, _, trivial, step_of_live ht (by simp only [liveStep, callStep, hp]; rfl), ?_⟩
    exact takes (by rw [St.resume_parked hloc hc]; rfl)
  | draining ks =>
    by_cases hall : ks.all fun i => (s.callbacks i).pc = .done
    · refine ⟨.call k, _, trivial, step_of_live ht
        (by simp only [liveStep, callStep, hp, hall]; rfl), ?_⟩
      simp [St.left, hc, hp, CancelPc.left]
    · -- a callback is in the way
      simp only [List.all_eq_true, decide_eq_true_eq, not_forall] at hall
      obtain ⟨i, hik, hd⟩ := hall
      have hlt := hl.waited k ks hp i hik
      cases hpc : (s.callbacks i).pc with
      | unborn => exact absurd hpc (hl.born i hlt)
      | done => exact absurd hpc hd
      | dispatched =>
        refine ⟨.callback i, _, trivial,
          step_of_live ht (by simp only [liveStep, callbackStep, hpc]; rfl), ?_⟩
        exact takes (by rw [St.resume_parked hloc hc]; rfl)
      | inline m =>
        have hne : s.coro ≠ .resuming m true := by rw [hc]; simp
        refine ⟨.callback i, _, trivial,
          step_of_live ht (by simp only [liveStep, callbackStep, hpc, hne]; rfl), ?_⟩
        have := total_update_lt (fun c : Callback => c.pc.left) s.callbacks hlt
          (a := { s.callbacks i with pc := .done }) (by simp [hpc, CallbackPc.left])
        simp only [St.left, hc]
        exact Nat.add_lt_add_left this _

/-- The threads at work go on, or have ended the wait. -/
theorem Hit.serves {k n : Nat} (h : Hit kind s k n) (hi : Inv s) (hl : Listed s) :
    ∃ e s', e.serves ∧ Timers.step kind s e = some s' ∧ s'.left k < s.left k := by
  have hp := h.place
  unfold Place at hp
  split at hp
  · exact hp.elim
  · rename_i m ready hc
    obtain ⟨rfl, hr⟩ := hp
    cases ready with
    | true =>
      refine ⟨.await, _, trivial, step_of_live h.live (by simp only [liveStep, hc]; rfl), ?_⟩
      simp [St.left, hc]
    | false =>
      obtain hr | rfl := hr
      · cases hr
      · refine ⟨.await, _, trivial, step_of_live h.live (by simp only [liveStep, hc]; rfl), ?_⟩
        simp [St.left, hc, suspendStep, Timer.suspend_cancelled h.flag]
  · rename_i m hc
    exact parked_serves hi hl h.live (hp.1 ▸ hc) hp.2
  · rename_i m b hc
    refine ⟨.check, _, trivial, step_of_live h.live (by simp only [liveStep, hc]; rfl), ?_⟩
    simp [St.left, hc]

/-- **A wait that is hit ends with `timer_cancelled`**, once, and what is at work ends it. -/
theorem Hit.ends {s : St × List (Nat × Option Exception)} (hs : (history kind).Reach s) {k n : Nat}
    (h : Hit kind s.1 k n) :
    (history kind).Ends (fun _ _ => True) (fun _ e => e.serves) s n (some .timerCancelled) := by
  refine Sys.Ends.of_measure (I := fun s => Inv s.1 ∧ Listed s.1 ∧ Over s)
    (P := fun s => Hit kind s.1 k n ∨ Past s n (some .timerCancelled))
    (μ := fun s => s.1.left k)
    (fun s hs => ⟨reach_inv hs.base, reach_listed hs.base, reach_over hs⟩)
    (fun _ _ _ => trivial) ?_ ?_ hs (.inl h)
  · rintro ⟨s, l⟩ e ⟨s', l'⟩ ⟨hi, -, hov⟩ hp - hst
    obtain ⟨hst, hl⟩ := Sys.logged_step.mp hst
    simp only at hl hst hp hi ⊢
    rw [hl]
    obtain hp | hp := hp
    · rcases hp.step hi hst with ⟨-, hp'⟩ | ⟨he, hc, hw⟩
      · exact .inl hp'
      · rw [he]
        exact .inr (hov.past hi hp.wait? hc hw)
    · exact .inr (hp.turn (step_turn hst hi))
  · rintro ⟨s, l⟩ ⟨hi, hl, hov⟩ hp
    obtain hp | hp := hp
    · refine .inr ⟨hov.results_nil hp.wait?, ?_⟩
      obtain ⟨e, s', he, hst, hlt⟩ := hp.serves hi hl
      exact ⟨e, _, he, Sys.logged_of_step hst l, hlt⟩
    · exact .inl hp.result

end Timers

end Corsl
