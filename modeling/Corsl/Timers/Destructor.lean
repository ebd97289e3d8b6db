import Corsl.Timers.AutoCancel
import Corsl.Timers.Lifetime

/-!
# The destructor of an `auto_cancel_timer`

The coroutine destroys its timer when no wait is in progress. The subscription goes first: its
destructor takes it off the token, and waits for its callback. The callback is in the timer's own
`cancel`, which waits for the callbacks of the timer if it has found a parked handle.

The system is that of `AutoCancel`, and `destroyer`: where the destructor runs, in the callback of
the timer that has resumed the coroutine (`resume(false)` runs it inline), or in another thread. The
callback returns after the destructor then. Submissions do not fail here.

* `Stuck`: the destructor runs in a callback that the `cancel` of its subscription waits for.
* `destructor_returns`: it returns by the steps of what is at work, unless it is stuck. Then it
  never does.
-/

namespace Corsl

open Conc Function

namespace Timers

namespace Destructor

/-- The state of the system. -/
structure St where
  base : AutoCancel.St := {}
  /-- The destructor has begun: in this callback of the timer, or in none. -/
  destroyer : Option (Option Nat) := none

/-- The atomic steps. -/
inductive Ev where
  | base (e : AutoCancel.Ev)
  /-- The destructor begins: the subscription is taken off the token. -/
  | destroy (inside : Option Nat)
  deriving DecidableEq, Repr

/-- The coroutine runs in callback `k`: it has not been suspended by the timer since. -/
def inCallback (t : Timers.St) (k : Nat) : Bool :=
  match (t.callbacks k).pc with
  | .inline n => t.ended.getLast?.map Prod.fst = some n
  | _ => false

/-- The coroutine may be there. -/
def mayRun (t : Timers.St) : Option Nat → Bool
  | none => true
  | some k => inCallback t k

/-- The rules for the steps of `AutoCancel`. -/
def allowed (u : Nat) (s : St) : AutoCancel.Ev → Bool
  | .cancel (.subRemove v) => v ≠ u
  -- the destructor that runs in the callback returns first
  | .timer (.callback k) => s.destroyer ≠ some (some k) || (s.base.cancel.subs u).phase = .gone
  | _ => true

/-- One atomic step. -/
def step (kind : Kind) (u : Nat) (s : St) : Ev → Option St
  | .base e =>
    if allowed u s e then (AutoCancel.step kind u s.base e).map fun base => { s with base }
    else none
  | .destroy inside =>
    if mayRun s.base.timer inside then
      (AutoCancel.step kind u s.base (.cancel (.subRemove u))).map fun base =>
        { base, destroyer := some inside }
    else none

/-- The timer, its subscription, the threads that use them, and the destructor. -/
def sys (kind : Kind) (u : Nat) : Sys St Ev := ⟨{}, step kind u⟩

/-- The call waits for callback `k`, or is about to. -/
def awaits (k : Nat) : CancelPc → Bool
  | .raised => true
  | .draining ks => ks.contains k
  | .unborn | .trailing | .done => false

/-- The destructor waits for the subscription's callback, and this one for the callback of the timer
that the destructor runs in. -/
def Stuck (u : Nat) (s : St) : Prop := (s.base.cancel.subs u).phase = .removed ∧
  ∃ k, s.destroyer = some (some k) ∧ awaits k (s.base.timer.cancels 0).pc = true

/-- The steps of the threads that the destructor waits for, and its own. -/
def serves (u : Nat) : Ev → Prop
  | .base (.cancel (.call _)) => True
  | .base (.cancel (.callback v)) | .base (.cancel (.complete v)) | .base (.cancel (.subDone v)) =>
    v = u
  | .base (.timer (.cancel k)) | .base (.timer (.call k)) => k = 0
  | .base (.timer (.callback _)) => True
  | _ => False

variable {kind : Kind} {u : Nat} {s s' : St} {e : Ev}

/-! ## What one step does -/

/-- One step, by who takes it. -/
theorem step_cases (h : step kind u s e = some s') :
    (∃ e₀ base, e = .base e₀ ∧ allowed u s e₀ = true ∧
      AutoCancel.step kind u s.base e₀ = some base ∧ s' = { s with base }) ∨
    ∃ inside base, e = .destroy inside ∧ mayRun s.base.timer inside = true ∧
      AutoCancel.step kind u s.base (.cancel (.subRemove u)) = some base ∧
      s' = { base, destroyer := some inside } := by
  cases e with
  | base e₀ =>
    simp only [step] at h
    split at h
    · rename_i ha
      obtain ⟨base, hb, rfl⟩ := Option.map_eq_some_iff.mp h
      exact .inl ⟨e₀, base, rfl, ha, hb, rfl⟩
    · cases h
  | destroy inside =>
    simp only [step] at h
    split at h
    · rename_i hr
      obtain ⟨base, hb, rfl⟩ := Option.map_eq_some_iff.mp h
      exact .inr ⟨inside, base, rfl, hr, hb, rfl⟩
    · cases h

theorem reach_base (hs : (sys kind u).Reach s) : (AutoCancel.sys kind u).Reach s.base := by
  induction hs with
  | init => exact .init
  | step e _ _ hst ih =>
    obtain ⟨e₀, base, -, -, hb, rfl⟩ | ⟨inside, base, -, -, hb, rfl⟩ := step_cases hst
    · exact .step e₀ ih trivial hb
    · exact .step _ ih trivial hb

/-- A step of the timer, of the coroutine or of the threads that use cancellation. -/
theorem base_cases {b b' : AutoCancel.St} {e : AutoCancel.Ev}
    (h : AutoCancel.step kind u b e = some b') :
    (∃ e₀ c, e = .cancel e₀ ∧ Cancel.step b.cancel e₀ = some c ∧ b'.cancel = c ∧
      b'.timer = b.timer) ∨
    (∃ e₀ t, (e = .timer e₀ ∨ ∃ ready promise, e = .wait ready promise ∧ e₀ = .wait ready) ∧
      Timers.step kind b.timer e₀ = some t ∧ b'.cancel = b.cancel ∧ b'.timer = t) ∨
    (e = .transform ∧ b'.cancel = b.cancel ∧
      (b'.timer = b.timer ∨ b'.timer = { b.timer with coro := .idle })) := by
  obtain ⟨-, -, t, hn, rfl⟩ := AutoCancel.step_next h
  cases e with
  | cancel e₀ =>
    obtain ⟨c, hc, rfl⟩ := Option.map_eq_some_iff.mp hn
    exact .inl ⟨e₀, c, rfl, hc, rfl, rfl⟩
  | timer e₀ =>
    obtain ⟨t, ht, rfl⟩ := Option.map_eq_some_iff.mp hn
    exact .inr (.inl ⟨e₀, t, .inl rfl, ht, rfl, rfl⟩)
  | wait ready promise =>
    obtain ⟨t, ht, rfl⟩ := Option.map_eq_some_iff.mp hn
    exact .inr (.inl ⟨_, t, .inr ⟨ready, promise, rfl, rfl⟩, ht, rfl, rfl⟩)
  | transform =>
    obtain ⟨promise, -, ⟨-, rfl⟩ | ⟨-, rfl⟩⟩ := AutoCancel.transform_next hn
    · exact .inr (.inr ⟨rfl, rfl, .inr rfl⟩)
    · exact .inr (.inr ⟨rfl, rfl, .inl rfl⟩)

/-- The timer of a coroutine that does not wait, and does not begin to. -/
theorem idle_stays {t t' : Timers.St} {e : Timers.Ev} (hi : Timers.Inv t) (hc : t.coro = .idle)
    (he : ∀ ready, e ≠ .wait ready) (h : Timers.step kind t e = some t') :
    t'.coro = .idle ∧ t'.terminated = t.terminated := by
  have hl : ∀ m, t.timer.resumeLocation ≠ some m := fun m hm => by
    cases hc.symm.trans ((hi.stored m).mp hm)
  cases step_move h with
  | wait ready => exact absurd rfl (he ready)
  | ready _ hco => cases hc.symm.trans hco
  | park _ _ hco => cases hc.symm.trans hco
  | refuse _ _ _ hco => cases hc.symm.trans hco
  | twice _ hco => cases hc.symm.trans hco
  | throws _ _ hco => cases hc.symm.trans hco
  | returns _ _ hco => cases hc.symm.trans hco
  | callbackTake _ m _ hm => exact absurd hm (hl m)
  | callbackLost _ m hm => exact absurd hm (hl m)
  | cancelTake _ m _ hm => exact absurd hm (hl m)
  | cancelLost _ m hm => exact absurd hm (hl m)
  | _ => exact ⟨hc, rfl⟩

/-- The destructor of the subscription has begun. -/
def ending : Cancel.SubPhase → Bool
  | .removed | .gone => true
  | .unborn | .begun | .checked | .threw | .live => false

/-- It begins by `subRemove`. -/
theorem over_step {c c' : Cancel.St} {e : Cancel.Ev} (hi : Cancel.Inv c)
    (h : Cancel.step c e = some c') (he : e ≠ .subRemove u) :
    ending (c'.subs u).phase = ending (c.subs u).phase ∧
      ((c'.subs u).phase = .removed → (c.subs u).phase = .removed) := by
  have key := fun (i : Nat) (v : Cancel.Subscription) =>
    update_rel (m := c.subs) (i := i) (v := v) (j := u)
      (r := fun a b => ending b.phase = ending a.phase ∧ (b.phase = .removed → a.phase = .removed))
      fun _ => ⟨rfl, id⟩
  cases Cancel.step_move h with
  | source hm =>
    rw [(hm.frame hi.born.body).subs]
    exact ⟨rfl, id⟩
  | token hm =>
    rw [hm.frame.subs]
    exact ⟨rfl, id⟩
  | sub hm =>
    cases hm with
    | begin v t _ hp => exact key v _ (by simp [hp, ending])
    | throws v hp => exact key v _ (by simp [hp, ending])
    | checked v hp => exact key v _ (by simp [hp, ending])
    | add v hp => exact key v _ (by simp [hp, ending])
    | remove v hp =>
      show ending (update c.subs v _ u).phase = _ ∧ ((update c.subs v _ u).phase = _ → _)
      rw [update_of_ne fun huv : u = v => he (huv ▸ rfl)]
      exact ⟨rfl, id⟩
    | done v hp => exact key v _ (by simp [hp, ending])
    | callback v => exact key v _ ⟨rfl, id⟩
    | complete v => exact key v _ ⟨rfl, id⟩
  | call k _ hm =>
    cases hm with
    | run t v => exact key v _ ⟨rfl, id⟩
    | submit t v => exact key v _ ⟨rfl, id⟩
    | _ => exact ⟨rfl, id⟩

/-- It ends when the callback is over. -/
theorem gone_step {c c' : Cancel.St} {e : Cancel.Ev} (hi : Cancel.Inv c)
    (h : Cancel.step c e = some c') (hp : (c.subs u).phase = .removed)
    (hg : (c'.subs u).phase = .gone) : (c.subs u).completed = true := by
  have key := fun (i : Nat) (v : Cancel.Subscription) => update_rel (m := c.subs) (i := i) (v := v)
    (j := u) (r := fun a b => a.phase = .removed → b.phase = .gone → a.completed = true)
      fun a hr hg => by cases hr.symm.trans hg
  cases Cancel.step_move h with
  | source hm =>
    rw [(hm.frame hi.born.body).subs, hp] at hg
    cases hg
  | token hm =>
    rw [hm.frame.subs, hp] at hg
    cases hg
  | sub hm =>
    cases hm with
    | done v _ hc => exact key v _ (fun _ _ => hc) hp hg
    | begin v t _ hq => exact key v _ (fun hr => by cases hr.symm.trans hq) hp hg
    | throws v hq => exact key v _ (fun hr => by cases hr.symm.trans hq) hp hg
    | checked v hq => exact key v _ (fun hr => by cases hr.symm.trans hq) hp hg
    | add v hq => exact key v _ (fun hr => by cases hr.symm.trans hq) hp hg
    | remove v hq => exact key v _ (fun hr => by cases hr.symm.trans hq) hp hg
    | callback v => exact key v _ (fun hr hg => by cases hr.symm.trans hg) hp hg
    | complete v => exact key v _ (fun hr hg => by cases hr.symm.trans hg) hp hg
  | call k _ hm =>
    cases hm with
    | run t v => exact key v _ (fun hr hg => by cases hr.symm.trans hg) hp hg
    | submit t v => exact key v _ (fun hr hg => by cases hr.symm.trans hg) hp hg
    | _ => cases hp.symm.trans hg

/-- A callback of the subscription runs until it returns. -/
theorem running_step {c c' : Cancel.St} {e : Cancel.Ev} (hi : Cancel.Inv c)
    (h : Cancel.step c e = some c') (he : e ≠ .complete u) :
    (c.subs u).running ≤ (c'.subs u).running := by
  have key := fun (i : Nat) (v : Cancel.Subscription) => update_rel (m := c.subs) (i := i) (v := v)
    (j := u) (r := fun a b => a.running ≤ b.running) fun _ => Nat.le_refl _
  cases Cancel.step_move h with
  | source hm => rw [(hm.frame hi.born.body).subs]
  | token hm => rw [hm.frame.subs]
  | sub hm =>
    cases hm with
    | begin v t _ hp => exact key v _ (by rw [hi.born.sub v hp])
    | callback v => exact key v _ (Nat.le_succ _)
    | complete v =>
      show _ ≤ (update c.subs v _ u).running
      rw [update_of_ne fun huv : u = v => he (huv ▸ rfl)]
    | _ => exact key _ _ (Nat.le_refl _)
  | call k _ hm =>
    cases hm with
    | run t v => exact key v _ (Nat.le_refl _)
    | submit t v => exact key v _ (Nat.le_refl _)
    | _ => exact Nat.le_refl _

/-! ## The invariant -/

/-- The invariant. -/
structure Inv (u : Nat) (s : St) : Prop where
  numbered : ∀ i, (s.base.timer.callbacks i).pc ≠ .unborn → i < s.base.timer.started
  /-- The callback of the subscription makes the call. -/
  attended : (s.base.timer.cancels 0).pc.active = true → 0 < (s.base.cancel.subs u).running
  destroyed : s.destroyer.isSome = ending (s.base.cancel.subs u).phase
  idle : s.destroyer.isSome = true →
    s.base.timer.coro = .idle ∧ s.base.timer.terminated = false
  inside : ∀ k, s.destroyer = some (some k) → (s.base.cancel.subs u).phase = .removed →
    ∃ n, (s.base.timer.callbacks k).pc = .inline n

theorem Inv.init : Inv u {} := by
  constructor <;> simp [ending, CancelPc.active]

/-- A step of the system without its destructor keeps the first two parts. -/
theorem attended_step {b b' : AutoCancel.St} {e : AutoCancel.Ev}
    (hc : Cancel.sys.Reach b.cancel) (h : AutoCancel.step kind u b e = some b')
    (ha : (b.timer.cancels 0).pc.active = true → 0 < (b.cancel.subs u).running) :
    (b'.timer.cancels 0).pc.active = true → 0 < (b'.cancel.subs u).running := by
  intro hact
  obtain ⟨-, hall, -⟩ := AutoCancel.step_next h
  obtain ⟨e₀, c, rfl, hst, rfl, ht⟩ | ⟨e₀, t, he, hst, hcan, rfl⟩ | ⟨rfl, hcan, ht⟩ := base_cases h
  · rw [ht] at hact
    have hrun := ha hact
    refine Nat.lt_of_lt_of_le hrun (running_step (Cancel.reach_inv hc) hst fun he => ?_)
    -- the callback returns after its call of `cancel`
    have hdone : (b.timer.cancels 0).pc = .done := by simpa [he, AutoCancel.allowed] using hall
    rw [hdone] at hact
    cases hact
  · rw [hcan]
    obtain hk | ⟨rfl, -⟩ | ⟨rfl, hact', -⟩ := AutoCancel.cancels_step 0 hst
    · exact ha (hk ▸ hact)
    · obtain rfl | ⟨_, _, -, he⟩ := he
      · simpa [AutoCancel.allowed] using hall
      · cases he
    · exact ha hact'
  · rw [hcan]
    obtain ht | ht := ht
    · exact ha (ht ▸ hact)
    · exact ha (by rw [ht] at hact; exact hact)

theorem removes {c c' : Cancel.St} (h : Cancel.step c (.subRemove u) = some c') :
    (c.subs u).phase = .live ∧ (c'.subs u).phase = .removed := by
  cases Cancel.step_move h with
  | source hm => cases hm
  | token hm => cases hm
  | call _ he => cases he
  | sub hm =>
    cases hm with
    | remove _ hp => exact ⟨hp, by simp⟩

/-- The callback that the destructor runs in goes on when the destructor has returned. -/
theorem inside_step {t t' : Timers.St} {e : Timers.Ev} {k n : Nat}
    (h : Timers.step kind t e = some t') (hn : ∀ i, (t.callbacks i).pc ≠ .unborn → i < t.started)
    (he : e ≠ .callback k) (hk : (t.callbacks k).pc = .inline n) :
    (t'.callbacks k).pc = .inline n := by
  obtain ⟨hc, -⟩ | ⟨-, -, c, hc⟩ | ⟨k', c, rfl, -, -, -, hc⟩ := callbacks_step h
  · rw [hc]
    exact hk
  · have hlt := hn k (by simp [hk])
    rw [hc, update_of_ne (Nat.ne_of_lt hlt)]
    exact hk
  · rw [hc, update_of_ne fun hkk : k = k' => he (hkk ▸ rfl)]
    exact hk

theorem Inv.step (h : Inv u s) (hr : (sys kind u).Reach s) (hst : step kind u s e = some s') :
    Inv u s' := by
  obtain ⟨hcan, hsound⟩ := AutoCancel.reach_base (reach_base hr)
  obtain ⟨e₀, b, -, hown, hb, rfl⟩ | ⟨inside, b, -, hrun, hb, rfl⟩ := step_cases hst
  · have hatt := attended_step hcan hb h.attended
    obtain ⟨-, hall, -⟩ := AutoCancel.step_next hb
    obtain ⟨e₁, c, rfl, hc, rfl, ht⟩ | ⟨e₁, t, he, ht, hc, rfl⟩ | ⟨rfl, hc, ht⟩ := base_cases hb
    · have hne : e₁ ≠ .subRemove u := by
        rintro rfl
        simp [allowed] at hown
      obtain ⟨hover, hrem⟩ := over_step (Cancel.reach_inv hcan) hc hne
      exact ⟨ht ▸ h.numbered, hatt, h.destroyed.trans hover.symm, ht ▸ h.idle,
        fun k hk hp => ht ▸ h.inside k hk (hrem hp)⟩
    · refine ⟨numbered_step ht h.numbered, hatt, hc ▸ h.destroyed, fun hd => ?_, fun k hk hp => ?_⟩
      · have hw : ∀ ready, e₁ ≠ .wait ready := by
          rintro ready rfl
          obtain rfl | ⟨_, _, rfl, -⟩ := he
          · simp [AutoCancel.allowed] at hall
          · have hover := h.destroyed ▸ hd
            simp only [AutoCancel.allowed, Bool.and_eq_true, decide_eq_true_eq] at hall
            rw [hall.1] at hover
            cases hover
        obtain ⟨hco, hte⟩ := idle_stays hsound.inv (h.idle hd).1 hw ht
        exact ⟨hco, hte.trans (h.idle hd).2⟩
      · have hp' : (s.base.cancel.subs u).phase = .removed := hc ▸ hp
        obtain ⟨n, hn⟩ := h.inside k hk hp'
        refine ⟨n, inside_step ht h.numbered ?_ hn⟩
        rintro rfl
        obtain rfl | ⟨_, _, -, hwait⟩ := he
        · have hk : s.destroyer = some (some k) := hk
          simp [allowed, hk, hp'] at hown
        · cases hwait
    · refine ⟨?_, hatt, hc ▸ h.destroyed, fun hd => ?_, fun k hk hp => ?_⟩
      · obtain ht | ht := ht <;> rw [ht] <;> exact h.numbered
      · obtain ht | ht := ht <;> rw [ht]
        · exact h.idle hd
        · exact ⟨rfl, (h.idle hd).2⟩
      · obtain ht | ht := ht <;> rw [ht] <;> exact h.inside k hk (hc ▸ hp)
  · have hatt := attended_step hcan hb h.attended
    obtain ⟨hlive, hall, -⟩ := AutoCancel.step_next hb
    obtain ⟨e₁, c, he, hc, rfl, ht⟩ | ⟨_, _, he | ⟨_, _, he, -⟩, -⟩ | ⟨he, -⟩ := base_cases hb <;>
      cases he
    have hidle : s.base.timer.coro = .idle := by simpa [AutoCancel.allowed] using hall
    refine ⟨ht ▸ h.numbered, hatt, by simp [(removes hc).2, ending], fun _ => ?_, fun k hk _ => ?_⟩
    · rw [ht]
      exact ⟨hidle, hlive⟩
    · obtain rfl := Option.some.inj hk
      rw [ht]
      simp only [mayRun, inCallback] at hrun
      split at hrun
      · rename_i n hn
        exact ⟨n, hn⟩
      · cases hrun

theorem reach_inv (hs : (sys kind u).Reach s) : Inv u s :=
  hs.rec_on (fun _ hr => hr) .init fun _ _ _ hr h _ hst => h.step hr hst

/-! ## A destructor that is stuck -/

/-- While the coroutine does not wait, the call waits for the same callbacks. -/
theorem awaits_step {t t' : Timers.St} {e : Timers.Ev} {k n : Nat} (hi : Timers.Inv t)
    (hc : t.coro = .idle) (hn : ∀ i, (t.callbacks i).pc ≠ .unborn → i < t.started)
    (hk : (t.callbacks k).pc = .inline n) (h : Timers.step kind t e = some t') :
    awaits k (t'.cancels 0).pc = awaits k (t.cancels 0).pc := by
  have hl : t.timer.resumeLocation = none := Option.eq_none_iff_forall_ne_some.mpr fun m hm => by
    cases hc.symm.trans ((hi.stored m).mp hm)
  obtain ⟨-, hs⟩ := step_live h
  obtain he | ⟨rfl, hpc⟩ | ⟨rfl, -, -⟩ := AutoCancel.cancels_step 0 h
  · rw [he]
  · have hu := (cancel_unborn h).1
    rw [hpc, hu, hl]
    rfl
  · simp only [liveStep, callStep] at hs
    split at hs
    · rename_i hpc
      cases hs
      have hmem : k ∈ t.running := mem_running.mpr ⟨hn k (by simp [hk]), by simp [hk]⟩
      simp [hpc, awaits, hmem]
    · rename_i ks hpc
      split at hs
      · rename_i hall
        cases hs
        have hk' : k ∉ ks := fun hmem => by
          have := List.all_eq_true.mp hall k hmem
          simp [hk] at this
        simp [hpc, awaits, hk']
      · cases hs
    · rename_i hpc
      cases hs
      simp [hpc, awaits]
    · cases hs

/-- What a step does to a destructor that has begun. -/
theorem removed_step (hr : (sys kind u).Reach s) (hp : (s.base.cancel.subs u).phase = .removed)
    (hst : step kind u s e = some s') : s'.destroyer = s.destroyer ∧
      ((s'.base.cancel.subs u).phase = .removed ∨
        (s'.base.cancel.subs u).phase = .gone ∧ (s.base.cancel.subs u).completed = true) ∧
      ∀ k, s.destroyer = some (some k) →
        awaits k (s'.base.timer.cancels 0).pc = awaits k (s.base.timer.cancels 0).pc := by
  have hi := reach_inv hr
  obtain ⟨hcan, hsound⟩ := AutoCancel.reach_base (reach_base hr)
  have hd : s.destroyer.isSome = true := by rw [hi.destroyed, hp]; rfl
  obtain ⟨e₀, b, -, hown, hb, rfl⟩ | ⟨inside, b, -, -, hb, rfl⟩ := step_cases hst
  · obtain ⟨e₁, c, rfl, hc, rfl, ht⟩ | ⟨e₁, t, -, ht, hc, rfl⟩ | ⟨-, hc, ht⟩ := base_cases hb
    · refine ⟨rfl, ?_, fun k _ => by rw [ht]⟩
      have hne : e₁ ≠ .subRemove u := by
        rintro rfl
        simp [allowed] at hown
      have hover := (over_step (Cancel.reach_inv hcan) hc hne).1
      cases hp' : (b.cancel.subs u).phase with
      | removed => exact .inl rfl
      | gone => exact .inr ⟨rfl, gone_step (Cancel.reach_inv hcan) hc hp hp'⟩
      | _ => rw [hp, hp'] at hover; cases hover
    · refine ⟨rfl, .inl (by rw [hc]; exact hp), fun k hk => ?_⟩
      obtain ⟨n, hn⟩ := hi.inside k hk hp
      exact awaits_step hsound.inv (hi.idle hd).1 hi.numbered hn ht
    · refine ⟨rfl, .inl (by rw [hc]; exact hp), fun k _ => ?_⟩
      obtain ht | ht := ht <;> rw [ht]
  · obtain ⟨e₁, c, he, hc, rfl, -⟩ | ⟨_, _, he | ⟨_, _, he, -⟩, -⟩ | ⟨he, -⟩ := base_cases hb <;>
      cases he
    cases hp.symm.trans (removes hc).1

/-- A destructor that is stuck does not return. -/
theorem stuck_step (hr : (sys kind u).Reach s) (h : Stuck u s)
    (hst : step kind u s e = some s') : Stuck u s' := by
  obtain ⟨hp, k, hk, haw⟩ := h
  obtain ⟨hd, hp' | ⟨-, hcomp⟩, hw⟩ := removed_step hr hp hst
  · exact ⟨hp', k, hd.trans hk, (hw k hk).trans haw⟩
  · have hact : (s.base.timer.cancels 0).pc.active = true := by
      cases hpc : (s.base.timer.cancels 0).pc <;> rw [hpc] at haw <;> first | rfl | cases haw
    obtain ⟨g, hg⟩ := Cancel.reach_staged (AutoCancel.reach_base (reach_base hr)).1 u
    have := hg.running_of_pos ((reach_inv hr).attended hact)
    subst this
    rw [hg.completed] at hcomp
    cases hcomp

/-! ## A destructor that returns -/

/-- The steps that the run of the subscription has left. -/
def stageLeft : Cancel.Stage → Nat
  | .submitting => 3
  | .pending => 2
  | .running => 1
  | .before | .finished => 0

def subLeft (v : Cancel.Subscription) : Nat :=
  (if v.phase = .removed then 1 else 0) +
    if v.completed then 0 else if 0 < v.running then 1 else if 0 < v.pending then 2 else 3

def callLeft : CancelPc → Nat
  | .unborn => 4
  | pc => pc.left

/-- The steps that the destructor waits for. -/
def St.left (u : Nat) (s : St) : Nat :=
  subLeft (s.base.cancel.subs u) + callLeft (s.base.timer.cancels 0).pc +
    total (fun c => c.pc.left) s.base.timer.started s.base.timer.callbacks

theorem subLeft_of_stage {c : Cancel.St} {g : Cancel.Stage} (hg : Cancel.AtStage c u g) :
    subLeft (c.subs u) = (if (c.subs u).phase = .removed then 1 else 0) + stageLeft g := by
  unfold subLeft
  rw [hg.completed, hg.running, hg.pending]
  cases g <;> rfl

theorem base_step {e : AutoCancel.Ev} {b : AutoCancel.St} (ha : allowed u s e = true)
    (h : AutoCancel.step kind u s.base e = some b) :
    step kind u s (.base e) = some { s with base := b } := by
  simp [step, ha, h]

/-- A step of the threads that use cancellation. -/
theorem cancel_serves (kind : Kind) {e : Cancel.Ev} {c : Cancel.St}
    (hl : s.base.timer.terminated = false) (ha : AutoCancel.allowed u s.base (.cancel e) = true)
    (he : e ≠ .subRemove u) (h : Cancel.step s.base.cancel e = some c) :
    ∃ s', step kind u s (.base (.cancel e)) = some s' ∧
      s'.base.cancel = c ∧ s'.base.timer = s.base.timer := by
  have hown : allowed u s (.cancel e) = true := by
    unfold allowed
    split
    · rename_i hv
      cases hv
      simpa using he
    · rename_i hv
      cases hv
    · rfl
  have hst : AutoCancel.step kind u s.base (.cancel e) = _ :=
    AutoCancel.step_of_next hl ha (Option.map_eq_some_iff.mpr ⟨c, h, rfl⟩)
  exact ⟨_, base_step hown hst, rfl, rfl⟩

/-- A step of the timer. -/
theorem timer_serves {e : Timers.Ev} {t : Timers.St}
    (ha : AutoCancel.allowed u s.base (.timer e) = true) (hown : allowed u s (.timer e) = true)
    (h : Timers.step kind s.base.timer e = some t) :
    ∃ s', step kind u s (.base (.timer e)) = some s' ∧
      s'.base.cancel = s.base.cancel ∧ s'.base.timer = t := by
  have hst := AutoCancel.timer_step h ha
  exact ⟨_, base_step hown hst, rfl, rfl⟩

/-- The run of the subscription goes on, apart from its call of the timer's `cancel`. -/
theorem run_serves (hr : (sys kind u).Reach s) (hp : (s.base.cancel.subs u).phase = .removed)
    (hw : (s.base.cancel.subs u).completed = true ∨ (s.base.cancel.subs u).running = 0 ∨
      (s.base.timer.cancels 0).pc = .done) :
    ∃ e s', serves u e ∧ step kind u s e = some s' ∧ s'.left u < s.left u := by
  have hi := reach_inv hr
  have hcan := (AutoCancel.reach_base (reach_base hr)).1
  have hlive := (hi.idle (by rw [hi.destroyed, hp]; rfl)).2
  obtain ⟨g, hg⟩ := Cancel.reach_staged hcan u
  -- the next stage is nearer to the end
  have next : ∀ (e : Cancel.Ev) {c : Cancel.St} {g' : Cancel.Stage}, serves u (.base (.cancel e)) →
      AutoCancel.allowed u s.base (.cancel e) = true → e ≠ .subRemove u →
      Cancel.step s.base.cancel e = some c → Cancel.AtStage c u g' → stageLeft g' < stageLeft g →
      ∃ e s', serves u e ∧ step kind u s e = some s' ∧ s'.left u < s.left u := by
    intro e c g' hse ha hne hst hg' hlt
    obtain ⟨s', hst', hc, ht⟩ := cancel_serves kind hlive ha hne hst
    refine ⟨_, s', hse, hst', ?_⟩
    unfold St.left
    rw [hc, ht, subLeft_of_stage hg, subLeft_of_stage hg', hp]
    split <;> simp only [if_true] <;> omega
  -- it has returned, so `wait_while` does
  have ends : (s.base.cancel.subs u).completed = true →
      ∃ e s', serves u e ∧ step kind u s e = some s' ∧ s'.left u < s.left u := by
    intro hcomp
    have hst : ∃ c, Cancel.step s.base.cancel (.subDone u) = some c ∧
        (c.subs u).phase = .gone ∧ (c.subs u).completed = true :=
      ⟨_, by
        simp [Cancel.step, Cancel.sourceStep, Cancel.tokenStep, Cancel.subStep, hp, hcomp]
        rfl, by simp, by simp⟩
    obtain ⟨c, hst, hgone, hcomp'⟩ := hst
    obtain ⟨s', hst', hc, ht⟩ := cancel_serves kind (u := u) hlive rfl (by simp) hst
    refine ⟨.base (.cancel (.subDone u)), s', rfl, hst', ?_⟩
    simp [St.left, hc, ht, subLeft, hgone, hp, hcomp, hcomp']
  cases g with
  | before => exact ends hg.completed
  | finished => exact ends hg.completed
  | submitting =>
    obtain ⟨k, hk⟩ := hg.submits.mpr rfl
    obtain ⟨c, hst, hpend⟩ := Cancel.submit_step hk
    obtain ⟨g', hg'⟩ := Cancel.reach_staged (hcan.step (.call k) trivial hst) u
    have := hg'.pending_of_pos hpend
    subst this
    exact next (.call k) trivial rfl (by simp) hst hg' (by decide)
  | pending =>
    obtain ⟨c, hst, hrun⟩ := Cancel.callback_step (s := s.base.cancel) (u := u)
      (by simp [hg.pending, Cancel.Stage.counts])
    obtain ⟨g', hg'⟩ := Cancel.reach_staged (hcan.step (.callback u) trivial hst) u
    have := hg'.running_of_pos hrun
    subst this
    exact next (.callback u) rfl rfl (by simp) hst hg' (by decide)
  | running =>
    have hdone : (s.base.timer.cancels 0).pc = .done := by
      obtain h | h | h := hw
      · cases hg.completed.symm.trans h
      · cases hg.running.symm.trans h
      · exact h
    obtain ⟨c, hst, hcomp⟩ := Cancel.complete_step (s := s.base.cancel) (u := u)
      (by simp [hg.running, Cancel.Stage.counts])
    obtain ⟨g', hg'⟩ := Cancel.reach_staged (hcan.step (.complete u) trivial hst) u
    refine next (.complete u) rfl (by simp [AutoCancel.allowed, hdone]) (by simp) hst hg' ?_
    have := hg'.completed.symm.trans hcomp
    cases g' <;> first | decide | cases this

/-- A callback that the call waits for returns, unless the destructor runs in it. -/
theorem callback_serves (hr : (sys kind u).Reach s) (hp : (s.base.cancel.subs u).phase = .removed)
    {i : Nat} (hi : i < s.base.timer.started) (hne : (s.base.timer.callbacks i).pc ≠ .done)
    (hd : s.destroyer ≠ some (some i)) :
    ∃ e s', serves u e ∧ step kind u s e = some s' ∧ s'.left u < s.left u := by
  have hinv := reach_inv hr
  have hsound := (AutoCancel.reach_base (reach_base hr)).2
  obtain ⟨hco, hlive⟩ := hinv.idle (by rw [hinv.destroyed, hp]; rfl)
  have hl : s.base.timer.timer.resumeLocation = none :=
    Option.eq_none_iff_forall_ne_some.mpr fun m hm => by
      cases hco.symm.trans ((hsound.inv.stored m).mp hm)
  have hst : Timers.step kind s.base.timer (.callback i) =
      some (s.base.timer.setCallback i .done) := by
    refine step_of_live hlive ?_
    simp only [liveStep, callbackStep]
    split
    · simp only [hl, St.resume_none hl]
      rfl
    · rw [if_neg (by simp [hco])]
      rfl
    · rename_i h1 h2
      cases hpc : (s.base.timer.callbacks i).pc with
      | unborn => exact absurd hpc (hsound.listed.born i hi)
      | dispatched => exact absurd hpc h1
      | inline n => exact absurd hpc (h2 n)
      | done => exact absurd hpc hne
  obtain ⟨s', hst', hc, ht⟩ := timer_serves (u := u) rfl (by simp [allowed, hd]) hst
  refine ⟨.base (.timer (.callback i)), s', trivial, hst', ?_⟩
  have hlt : 0 < (s.base.timer.callbacks i).pc.left := by
    cases hpc : (s.base.timer.callbacks i).pc with
    | unborn => exact absurd hpc (hsound.listed.born i hi)
    | done => exact absurd hpc hne
    | _ => simp [CallbackPc.left]
  have := total_update_lt (fun c : Callback => c.pc.left) s.base.timer.callbacks
    (a := { s.base.timer.callbacks i with pc := .done }) hi hlt
  unfold St.left
  rw [hc, ht]
  exact Nat.add_lt_add_left this _

/-- The call of the timer's `cancel` goes on, unless it waits for the destructor's own callback. -/
theorem call_serves (hr : (sys kind u).Reach s) (hp : (s.base.cancel.subs u).phase = .removed)
    (hrun : 0 < (s.base.cancel.subs u).running) (hd : (s.base.timer.cancels 0).pc ≠ .done)
    (hn : ¬Stuck u s) : ∃ e s', serves u e ∧ step kind u s e = some s' ∧ s'.left u < s.left u := by
  have hinv := reach_inv hr
  have hsound := (AutoCancel.reach_base (reach_base hr)).2
  obtain ⟨hco, hlive⟩ := hinv.idle (by rw [hinv.destroyed, hp]; rfl)
  have hl : s.base.timer.timer.resumeLocation = none :=
    Option.eq_none_iff_forall_ne_some.mpr fun m hm => by
      cases hco.symm.trans ((hsound.inv.stored m).mp hm)
  -- a step of the call
  have goes : ∀ (e : Timers.Ev) (t : Timers.St), e = .cancel 0 ∨ e = .call 0 →
      liveStep kind s.base.timer e = some t → t.started = s.base.timer.started →
      t.callbacks = s.base.timer.callbacks →
      callLeft (t.cancels 0).pc < callLeft (s.base.timer.cancels 0).pc →
      ∃ e s', serves u e ∧ step kind u s e = some s' ∧ s'.left u < s.left u := by
    intro e t he hst hsame hcb hlt
    have ha : AutoCancel.allowed u s.base (.timer e) = true := by
      obtain rfl | rfl := he <;> simp [AutoCancel.allowed, hrun]
    obtain ⟨s', hst', hc, ht⟩ := timer_serves (u := u) ha
      (by obtain rfl | rfl := he <;> rfl) (step_of_live hlive hst)
    refine ⟨.base (.timer e), s', by obtain rfl | rfl := he <;> rfl, hst', ?_⟩
    unfold St.left
    rw [hc, ht, hsame, hcb]
    omega
  cases hpc : (s.base.timer.cancels 0).pc with
  | unborn =>
    refine goes (.cancel 0) _ (.inl rfl) (by simp only [liveStep, hpc, if_true]; rfl) (by rfl)
      (by rfl) ?_
    simp [Timer.raise, hl, hpc, callLeft, CancelPc.left]
  | raised =>
    refine goes (.call 0) _ (.inr rfl) (by simp only [liveStep, callStep, hpc]; rfl)
      (by rfl) (by rfl) ?_
    simp [hpc, callLeft, CancelPc.left]
  | draining ks =>
    by_cases hall : ∀ i ∈ ks, (s.base.timer.callbacks i).pc = .done
    · have hall' : (ks.all fun i => (s.base.timer.callbacks i).pc = .done) = true := by
        simpa using hall
      refine goes (.call 0) _ (.inr rfl)
        (by simp only [liveStep, callStep, hpc, hall', if_true]; rfl) (by rfl) (by rfl) ?_
      simp [hpc, callLeft, CancelPc.left]
    · push Not at hall
      obtain ⟨i, hi, hne⟩ := hall
      refine callback_serves hr hp (hsound.listed.waited 0 ks hpc i hi) hne fun hk => hn ?_
      exact ⟨hp, i, hk, by simpa [hpc, awaits] using hi⟩
  | trailing =>
    refine goes (.call 0) (s.base.timer.setCancel 0 .done) (.inr rfl) ?_ rfl rfl ?_
    · simp only [liveStep, callStep, hpc, St.resume_none hl]
      rfl
    · simp [hpc, callLeft, CancelPc.left, St.setCancel]
  | done => exact absurd hpc hd

/-- What the destructor of an `auto_cancel_timer` comes to. -/
structure Destroys (kind : Kind) (u : Nat) (s : St) : Prop where
  returns : ¬Stuck u s →
    ∃ s', (sys kind u).Later (fun _ e => serves u e) s s' ∧ (s'.base.cancel.subs u).phase = .gone
  never : Stuck u s → ∀ s', (sys kind u).Later (fun _ _ => True) s s' →
    (s'.base.cancel.subs u).phase ≠ .gone

/-- **The destructor of an `auto_cancel_timer`** returns, by what is at work, unless it runs in a
callback of the timer that its own subscription waits for. -/
theorem destructor_returns (hr : (sys kind u).Reach s)
    (hp : (s.base.cancel.subs u).phase = .removed) : Destroys kind u s where
  returns hn := by
    refine Sys.exists_later (S := sys kind u) (μ := St.left u)
      (J := fun s => (sys kind u).Reach s ∧ ((s.base.cancel.subs u).phase = .gone ∨
        (s.base.cancel.subs u).phase = .removed ∧ ¬Stuck u s))
      (fun s hs => ?_) ⟨hr, .inr ⟨hp, hn⟩⟩
    obtain ⟨hr, hg | ⟨hp, hn⟩⟩ := hs
    · exact .inl hg
    · right
      have key : ∃ e s', serves u e ∧ step kind u s e = some s' ∧ s'.left u < s.left u := by
        by_cases hw : (s.base.cancel.subs u).running = 0 ∨ (s.base.timer.cancels 0).pc = .done
        · exact run_serves hr hp (.inr hw)
        · push Not at hw
          exact call_serves hr hp (Nat.pos_of_ne_zero hw.1) hw.2 hn
      obtain ⟨e, s', he, hst, hlt⟩ := key
      refine ⟨e, s', he, hst, ⟨hr.step e trivial hst, ?_⟩, hlt⟩
      obtain ⟨hd, hp' | ⟨hg, -⟩, hw⟩ := removed_step hr hp hst
      · refine .inr ⟨hp', fun hstuck => hn ?_⟩
        obtain ⟨-, k, hk, haw⟩ := hstuck
        have hk' := hd.symm.trans hk
        exact ⟨hp, k, hk', (hw k hk').symm.trans haw⟩
      · exact .inl hg
  never hn s' hl hg := by
    have := hl.keep (P := Stuck u) (fun s hs => hs) (fun _ _ _ hr h _ hst => stuck_step hr h hst)
      hr hn
    cases hg.symm.trans this.1

/-- The subscription's callback finds the handle, and the expiry callback takes it. -/
def takenRun : List AutoCancel.Ev :=
  AutoCancel.setup none ++ [.wait false none, .transform] ++
    [.await, .arm, .expire, .dispatch].map .timer ++ AutoCancel.cancelSource ++
    [.cancel (.call 0), .timer (.cancel 0), .timer (.callback 0), .timer .check]

/-- The coroutine catches `timer_cancelled`, and destroys the timer. -/
def stuckRun : List Ev := takenRun.map .base ++ [.destroy (some 0)]

theorem destructor_returns_stuck : Destroys .async 0 ((sys .async 0).after stuckRun) ∧
    Stuck 0 ((sys .async 0).after stuckRun) :=
  ⟨destructor_returns (Sys.reach_after (by decide)) (by decide), by decide, 0, by decide, by decide⟩

/-! ## After the destructor -/

/-- The timer's steps are in order. -/
def orderly (s : St) : Ev → Bool
  | .base (.timer e) => Timers.orderly s.base.timer e
  | _ => true

theorem tidy_step (h : Tidy s.base.timer) (hr : (sys .async u).Reach s) (hok : orderly s e = true)
    (hst : step .async u s e = some s') : Tidy s'.base.timer := by
  have hi := (AutoCancel.reach_base (reach_base hr)).2.inv
  obtain ⟨e₀, b, rfl, -, hb, rfl⟩ | ⟨inside, b, rfl, -, hb, rfl⟩ := step_cases hst
  · obtain ⟨e₁, c, rfl, -, rfl, ht⟩ | ⟨e₁, t, he, ht, -, rfl⟩ | ⟨-, -, ht⟩ := base_cases hb
    · exact ht ▸ h
    · obtain rfl | ⟨ready, _, rfl, rfl⟩ := he
      · exact h.step hi hok ht
      · exact h.step hi rfl ht
    · obtain ht | ht := ht <;> rw [ht]
      · exact h
      · exact h.same rfl rfl rfl rfl rfl rfl
  · obtain ⟨e₁, c, -, -, rfl, ht⟩ | ⟨_, _, he | ⟨_, _, he, -⟩, -⟩ | ⟨he, -⟩ := base_cases hb
    · exact ht ▸ h
    · cases he
    · cases he
    · cases he

theorem reach_tidy (hs : (sys .async u).ReachBy (fun s e => orderly s e = true) s) :
    Tidy s.base.timer :=
  hs.rec_on (I := (sys .async u).Reach) (fun _ h => h.reach) .init
    fun _ _ _ hr h hok hst => tidy_step h hr hok hst

/-- The timer is destroyed, and nothing is about to use it. -/
structure Untouched (u : Nat) (s : St) : Prop where
  gone : (s.base.cancel.subs u).phase = .gone
  unused : Unused s.base.timer
  calls : ∀ k, (s.base.timer.cancels k).pc.active = false

/-- The step uses the timer. The end of a callback that is past `resume(false)` does not. -/
def uses (t : Timers.St) : AutoCancel.Ev → Bool
  | .timer (.callback k) => (t.callbacks k).pc = .dispatched
  | .timer _ | .wait _ _ => true
  | .cancel _ | .transform => false

/-- No such step can happen. -/
theorem Untouched.not_used (h : Untouched u s) (hr : (sys .async u).Reach s) {e : AutoCancel.Ev}
    (he : uses s.base.timer e = true) : step .async u s (.base e) = none := by
  have hinv := reach_inv hr
  have hcan := (AutoCancel.reach_base (reach_base hr)).1
  have hidle := (hinv.idle (by rw [hinv.destroyed, h.gone]; rfl)).1
  obtain ⟨h1, h2, h3, h4⟩ := h.unused
  by_contra hne
  obtain ⟨s', hst⟩ := Option.ne_none_iff_exists'.mp hne
  obtain ⟨e₀, b, he₀, -, hb, -⟩ | ⟨_, _, he₀, -⟩ := step_cases hst <;> cases he₀
  obtain ⟨-, hall, t, hn, -⟩ := AutoCancel.step_next hb
  cases e with
  | cancel e => cases he
  | transform => cases he
  | wait ready promise => simp [AutoCancel.allowed, h.gone] at hall
  | timer e =>
  obtain ⟨t, ht, -⟩ := Option.map_eq_some_iff.mp hn
  obtain ⟨-, hs⟩ := step_live ht
  cases e with
  | wait ready => simp [AutoCancel.allowed] at hall
  | await => simp [liveStep, hidle] at hs
  | check => simp [liveStep, hidle] at hs
  | arm => simp [liveStep, h1] at hs
  | start periodic => simp [liveStep] at hs
  | stop => simp [liveStep] at hs
  | expire => simp [liveStep, h2] at hs
  | dispatch => simp [liveStep, h3] at hs
  | callback k => exact h4 k (by simpa [uses] using he)
  | cancel k =>
    cases k with
    | zero =>
      -- the callback of the subscription is over
      have hcomp := (Cancel.reach_settled hcan).gone u h.gone
      obtain ⟨g, hg⟩ := Cancel.reach_staged hcan u
      have hrun : 0 < (s.base.cancel.subs u).running := by simpa [AutoCancel.allowed] using hall
      have := hg.running_of_pos hrun
      subst this
      cases hg.completed.symm.trans hcomp
    | succ k => simp [AutoCancel.allowed, h.gone] at hall
  | call k =>
    have hact := h.calls k
    simp only [liveStep, callStep] at hs
    split at hs
    · rename_i hpc
      simp [hpc, CancelPc.active] at hact
    · rename_i hpc
      simp [hpc, CancelPc.active] at hact
    · rename_i hpc
      simp [hpc, CancelPc.active] at hact
    · cases hs

theorem Untouched.step (h : Untouched u s) (hr : (sys .async u).Reach s)
    (hst : step .async u s e = some s') : Untouched u s' := by
  have hinv := reach_inv hr
  have hcan := (AutoCancel.reach_base (reach_base hr)).1
  obtain ⟨e₀, b, rfl, hown, hb, rfl⟩ | ⟨_, b, rfl, -, hb, rfl⟩ := step_cases hst
  · have hnot : uses s.base.timer e₀ ≠ true := fun hu => by
      cases hst.symm.trans (h.not_used hr hu)
    obtain ⟨e₁, c, rfl, hc, rfl, ht⟩ | ⟨e₁, t, he, ht, hc, rfl⟩ | ⟨rfl, hc, ht⟩ := base_cases hb
    · have hne : e₁ ≠ .subRemove u := by
        rintro rfl
        simp [allowed] at hown
      obtain ⟨hover, hrem⟩ := over_step (Cancel.reach_inv hcan) hc hne
      rw [h.gone] at hover hrem
      refine ⟨?_, ht ▸ h.unused, ht ▸ h.calls⟩
      cases hp : (b.cancel.subs u).phase with
      | gone => rfl
      | removed => cases hrem hp
      | _ => rw [hp] at hover; cases hover
    · obtain rfl | ⟨_, _, rfl, -⟩ := he
      · cases e₁ with
        | callback k =>
          -- it is past `resume(false)`
          obtain ⟨-, hs⟩ := step_live ht
          simp only [liveStep, callbackStep] at hs
          split at hs
          · rename_i hpc
            exact absurd (by simpa [uses] using hpc) hnot
          · split at hs
            · cases hs
            · have hb' := (Option.some.inj hs).symm
              refine ⟨hc ▸ h.gone, ?_, fun i => by rw [hb']; exact h.calls i⟩
              rw [hb']
              obtain ⟨h1, h2, h3, h4⟩ := h.unused
              refine ⟨h1, h2, h3, fun i hi => ?_⟩
              by_cases hik : i = k
              · simp [hik] at hi
              · exact h4 i (by simpa [hik] using hi)
          · cases hs
        | _ => exact absurd rfl hnot
      · exact absurd rfl hnot
    · refine ⟨hc ▸ h.gone, ?_, ?_⟩ <;> obtain ht | ht := ht <;> rw [ht]
      · exact h.unused
      · exact ⟨h.unused.1, h.unused.2, h.unused.3, h.unused.4⟩
      · exact h.calls
      · exact h.calls
  · obtain ⟨e₁, c, he, hc, rfl, -⟩ | ⟨_, _, he | ⟨_, _, he, -⟩, -⟩ | ⟨he, -⟩ := base_cases hb <;>
      cases he
    cases h.gone.symm.trans (removes hc).1

/-- No continuation of the run uses the timer. -/
def NeverUsed (u : Nat) (s : St) : Prop := ∀ s', (sys .async u).Later (fun _ _ => True) s s' →
  ∀ e, uses s'.base.timer e = true → step .async u s' (.base e) = none

/-- **The timer of an `auto_cancel_timer` is not used after its destructor**, in the runs that are
in order, if no other thread is in its `cancel`. -/
theorem timer_destroyed (hs : (sys .async u).ReachBy (fun s e => orderly s e = true) s)
    (hg : (s.base.cancel.subs u).phase = .gone)
    (hf : ∀ k, k ≠ 0 → (s.base.timer.cancels k).pc.active = false) : NeverUsed u s := by
  have hr := hs.reach
  have hinv := reach_inv hr
  obtain ⟨hcan, hsound⟩ := AutoCancel.reach_base (reach_base hr)
  have hidle := (hinv.idle (by rw [hinv.destroyed, hg]; rfl)).1
  have h : Untouched u s := by
    refine ⟨hg, (reach_tidy hs).unused hsound.inv (by simp [hidle]), fun k => ?_⟩
    by_cases hk : k = 0
    · -- its own callback is over
      subst hk
      by_contra hact
      obtain ⟨g, hst⟩ := Cancel.reach_staged hcan u
      have := hst.running_of_pos (hinv.attended (by simpa using hact))
      subst this
      cases hst.completed.symm.trans ((Cancel.reach_settled hcan).gone u hg)
    · exact hf k hk
  intro s' hl e he
  have h' : Untouched u s' :=
    hl.keep (P := Untouched u) (fun _ h => h) (fun _ _ _ hr h _ hst => h.step hr hst) hr h
  exact h'.not_used (hr.later hl) he

/-- A wait that expires. -/
def expiredRun : List AutoCancel.Ev :=
  AutoCancel.setup none ++ [.wait false none, .transform] ++
    [.await, .arm, .expire, .dispatch, .callback 0, .check].map .timer

/-- The coroutine destroys the timer in the callback. -/
def insideRun : List Ev :=
  expiredRun.map .base ++ [.destroy (some 0), .base (.cancel (.subDone 0))]

theorem timer_destroyed_inside : NeverUsed 0 ((sys .async 0).after insideRun) ∧
    ((sys .async 0).after insideRun).destroyer = some (some 0) :=
  ⟨timer_destroyed (Sys.reachBy_meets (by decide)) (by decide) fun _ _ => rfl, by decide⟩

end Destructor

end Timers

end Corsl
