import Corsl.Cancel.Stages
import Corsl.Timers.Endings

/-!
# Timers that cancel themselves (`auto_cancel_timer.h`)

`auto_cancel_timer` is a timer with a subscription to a token, whose callback calls the timer's own
`cancel`. The system has the threads of `Cancel.sys` and those of `Timers.sys`: subscription `u` is
the timer's, and the callback's call of `cancel` is call 0, which begins in the callback and has
returned when the callback does. Other threads may call `cancel`, too.

A wait is `timer.wait(..)`, then `await_transform` of the promise of the coroutine that waits, if it
has one (`fire_and_forget` has none), then the awaiter. Which coroutine that is may change from one
wait to the next. Rules of the language: the timer is used after its construction, and it is not
destroyed during a wait. Submissions do not fail here, neither of the callback nor in
`resume(true)`; the latter would end the process, and the wait would neither stay parked nor
expire.

* `first`: the first wait that is parked while the callback runs, or that is started afterwards.
* `Obeys`: this wait ends with `timer_cancelled` or `operation_cancelled`.
* `met`: the wait is parked when the flag goes up, its coroutine's promise is cancelled, or it is a
  wait of a `tp_timer` whose flag is still up.
* `obeys_token`: this holds in the runs whose steps are `met`. The waits of the coroutine that the
  token belongs to are; a step that is not lets the wait return.
-/

namespace Corsl

open Conc Function

namespace Timers

namespace AutoCancel

/-- The state of both systems. -/
structure St where
  cancel : Cancel.St := {}
  timer : Timers.St := {}
  /-- `await_transform` is next, of a coroutine with this promise. -/
  transform : Option (Option Nat) := none
  /-- The first wait that the callback is to end. -/
  first : Option Nat := none

/-- The atomic steps. -/
inductive Ev where
  /-- A step of the threads that use cancellation. -/
  | cancel (e : Cancel.Ev)
  /-- A step of the timer, other than `wait`. -/
  | timer (e : Timers.Ev)
  /-- `wait`, in a coroutine with this promise. -/
  | wait (ready : Bool) (promise : Option Nat)
  | transform
  deriving DecidableEq, Repr

/-- `await_transform`, where the promise has one. -/
def awaitTransform (s : St) : Option Nat → Except Exception Unit
  | none => .ok ()
  | some p => (s.cancel.promises p).awaitTransform ()

/-- The rules for the steps of the other threads. -/
def allowed (u : Nat) (s : St) : Ev → Bool
  -- `f` returns when its call of `cancel` has returned
  | .cancel (.complete v) => v ≠ u || (s.timer.cancels 0).pc = .done
  | .cancel (.subRemove v) => v ≠ u || s.timer.coro = .idle
  | .cancel _ => true
  | .timer (.wait _) => false
  | .timer .await => s.transform.isNone
  | .timer (.cancel 0) => 0 < (s.cancel.subs u).running
  | .timer (.cancel _) => (s.cancel.subs u).phase = .live
  | .timer _ => true
  | .wait _ _ => (s.cancel.subs u).phase = .live && s.transform.isNone
  | .transform => true

/-- The wait that the callback is to end, if the step says which. -/
def covers (s : St) : Ev → Option Nat
  | .timer (.cancel 0) => s.timer.timer.resumeLocation
  | .timer .await =>
    match s.timer.coro with
    | .created n false =>
      if (s.timer.cancels 0).pc.active && !s.timer.timer.cancellationRequested then some n else none
    | _ => none
  | .wait _ _ => if (s.timer.cancels 0).pc = .done then some s.timer.waits else none
  | _ => none

/-- A step, without its mark on the history. -/
def next (kind : Kind) (s : St) : Ev → Option St
  | .cancel e => (Cancel.step s.cancel e).map fun cancel => { s with cancel }
  | .timer e => (Timers.step kind s.timer e).map fun timer => { s with timer }
  | .wait ready promise =>
    (Timers.step kind s.timer (.wait ready)).map fun timer =>
      { s with timer, transform := some promise }
  | .transform =>
    match s.transform with
    | none => none
    | some promise =>
      match awaitTransform s promise with
      | .error _ => some { s with timer := { s.timer with coro := .idle }, transform := none }
      | .ok _ => some { s with transform := none }

/-- One atomic step. -/
def step (kind : Kind) (u : Nat) (s : St) (e : Ev) : Option St :=
  if s.timer.terminated || !allowed u s e then none
  else (next kind s e).map fun s' => { s' with first := s.first.or (covers s e) }

/-- The timer, its subscription and the threads that use them. -/
def sys (kind : Kind) (u : Nat) : Sys St Ev := ⟨{}, step kind u⟩

/-- The wait that a step ends, with what it throws. -/
def endings (kind : Kind) (s : St) : Ev → List (Nat × Option Exception)
  | .timer e => Timers.endings kind s.timer e
  | .transform =>
    match s.transform, s.timer.coro with
    | some promise, .created n _ =>
      match awaitTransform s promise with
      | .error e => [(n, some e)]
      | .ok _ => []
    | _, _ => []
  | _ => []

/-- The system, and the waits that have ended. -/
def history (kind : Kind) (u : Nat) : Sys (St × List (Nat × Option Exception)) Ev :=
  (sys kind u).logged (endings kind)

/-- The steps of the coroutine, of the callbacks and of the calls of the timer's `cancel` that are
under way. -/
def Ev.serves : Ev → Prop
  | .timer e => e.serves
  | .transform => True
  | _ => False

/-- What a wait that is cancelled throws. -/
def Refused (thrown : Option Exception) : Prop :=
  thrown = some .timerCancelled ∨ thrown = some .operationCancelled

/-- The first wait that the callback is to end, ends so: once, and by what is at work. -/
def Obeys (kind : Kind) (u : Nat) (s : St × List (Nat × Option Exception)) : Prop :=
  ∀ n, s.1.first = some n →
    (history kind u).EndsIn (fun _ _ => True) (fun _ e => e.serves) s n Refused

/-- The wait that a step makes the first one will be refused (module doc). -/
def met (kind : Kind) (s : St) : Ev → Bool
  | .timer .await => s.first.isSome || (covers s (.timer .await)).isNone
  | .wait ready promise =>
    s.first.isSome || (covers s (.wait ready promise)).isNone ||
      !(awaitTransform s promise).isOk || (kind = .tp && s.timer.timer.cancellationRequested)
  | _ => true

variable {kind : Kind} {u : Nat} {s s' : St} {e : Ev}

/-! ## What one step does -/

theorem step_next (h : step kind u s e = some s') : s.timer.terminated = false ∧
    allowed u s e = true ∧ ∃ t, next kind s e = some t ∧
      s' = { t with first := s.first.or (covers s e) } := by
  unfold step at h
  split at h
  · cases h
  · rename_i hn
    obtain ⟨t, ht, rfl⟩ := Option.map_eq_some_iff.mp h
    simp only [Bool.or_eq_true, not_or, Bool.not_eq_true, Bool.not_eq_false'] at hn
    exact ⟨hn.1, hn.2, t, ht, rfl⟩

theorem step_of_next (hl : s.timer.terminated = false) (ha : allowed u s e = true)
    (h : next kind s e = some s') :
    step kind u s e = some { s' with first := s.first.or (covers s e) } := by
  simp [step, hl, ha, h]

/-- The timer, while it is not awaited. -/
structure Sound (s : St) : Prop where
  inv : Timers.Inv s.timer
  listed : Listed s.timer
  transform : s.transform.isSome = true → ∃ n ready, s.timer.coro = .created n ready

theorem Sound.init : Sound {} := ⟨.init, .init, fun h => by cases h⟩

/-- The awaiter is destroyed. -/
theorem inv_idle {t : Timers.St} (h : Timers.Inv t) {n : Nat} {ready : Bool}
    (hc : t.coro = .created n ready) : Timers.Inv { t with coro := .idle } := by
  obtain ⟨h1, h2, h3, h4, h5, h6, h7⟩ := h
  refine ⟨h1, fun m => ?_, fun m hm => (by cases hm), h4, fun k m ready hm => (by cases hm),
    fun k m _ _ hm => (by cases hm), h7⟩
  rw [h2 m, hc]
  simp

/-- A step of the timer that is not the coroutine's leaves its awaiter alone. -/
theorem created_stays {t t' : Timers.St} {e : Timers.Ev} {n : Nat} {ready : Bool}
    (hi : Timers.Inv t) (hc : t.coro = .created n ready) (he : e ≠ .await)
    (h : Timers.step kind t e = some t') : t'.coro = .created n ready ∧
      t'.terminated = t.terminated ∧
      (t.timer.cancellationRequested = true → t'.timer.cancellationRequested = true) := by
  have hl : ∀ m, t.timer.resumeLocation ≠ some m := fun m hm => by
    rw [(hi.stored m).mp hm] at hc
    cases hc
  cases Timers.step_move h with
  | wait _ _ hidle =>
    rw [hc] at hidle
    cases hidle
  | ready => exact absurd rfl he
  | park => exact absurd rfl he
  | refuse => exact absurd rfl he
  | twice => exact absurd rfl he
  | throws _ _ hres =>
    rw [hc] at hres
    cases hres
  | returns _ _ hres =>
    rw [hc] at hres
    cases hres
  | callbackTake _ m _ hm => exact absurd hm (hl m)
  | callbackLost _ m hm => exact absurd hm (hl m)
  | cancelTake _ m _ hm => exact absurd hm (hl m)
  | cancelLost _ m hm => exact absurd hm (hl m)
  | cancel => exact ⟨hc, rfl, fun _ => rfl⟩
  | _ => exact ⟨hc, rfl, id⟩

theorem endings_created {t : Timers.St} {e : Timers.Ev} {n : Nat} {ready : Bool}
    (hc : t.coro = .created n ready) (he : e ≠ .await) : Timers.endings kind t e = [] := by
  cases e with
  | await => exact absurd rfl he
  | check => simp only [Timers.endings, hc]
  | _ => rfl

/-- `await_transform`, where it throws and where it does not. -/
theorem transform_next (h : next kind s .transform = some s') : ∃ promise,
    s.transform = some promise ∧
    ((awaitTransform s promise = .error .operationCancelled ∧
      s' = { s with timer := { s.timer with coro := .idle }, transform := none }) ∨
    (awaitTransform s promise = .ok () ∧ s' = { s with transform := none })) := by
  simp only [next] at h
  cases hp : s.transform with
  | none =>
    rw [hp] at h
    cases h
  | some promise =>
    refine ⟨promise, rfl, ?_⟩
    have herr : ∀ ex, awaitTransform s promise = .error ex → ex = .operationCancelled := by
      intro ex hex
      cases promise with
      | none => cases hex
      | some p =>
        simp only [awaitTransform, PromiseBase0.awaitTransform] at hex
        split at hex <;> cases hex
        rfl
    rw [hp] at h
    cases ha : awaitTransform s promise with
    | error ex =>
      have := herr ex ha
      subst this
      simp only [ha] at h
      cases h
      exact .inl ⟨rfl, rfl⟩
    | ok x =>
      simp only [ha] at h
      cases h
      exact .inr ⟨rfl, rfl⟩

theorem Sound.next (h : Sound s) (ha : allowed u s e = true) (hn : next kind s e = some s') :
    Sound s' ∧ Turn s.timer s'.timer (endings kind s e) := by
  obtain ⟨hi, hl, ht⟩ := h
  cases e with
  | cancel e =>
    obtain ⟨c, -, rfl⟩ := Option.map_eq_some_iff.mp hn
    exact ⟨⟨hi, hl, ht⟩, .stay rfl rfl⟩
  | timer e =>
    obtain ⟨t, hst, rfl⟩ := Option.map_eq_some_iff.mp hn
    refine ⟨⟨hi.move (step_move hst), hl.step hst, fun hsome => ?_⟩, step_turn hst hi⟩
    obtain ⟨n, ready, hc⟩ := ht hsome
    have hne : e ≠ .await := by
      rintro rfl
      simp only [allowed, Option.isNone_iff_eq_none] at ha
      rw [ha] at hsome
      cases hsome
    exact ⟨n, ready, (created_stays hi hc hne hst).1⟩
  | wait ready promise =>
    obtain ⟨t, hst, rfl⟩ := Option.map_eq_some_iff.mp hn
    refine ⟨⟨hi.move (step_move hst), hl.step hst, fun _ => ?_⟩, step_turn hst hi⟩
    obtain ⟨-, hs⟩ := step_live hst
    simp only [liveStep] at hs
    split at hs
    · split at hs
      · cases hs
        exact ⟨_, _, rfl⟩
      · split at hs <;> cases hs
        exact ⟨_, _, rfl⟩
    · cases hs
  | transform =>
    obtain ⟨promise, hp, ⟨hex, rfl⟩ | ⟨hok, rfl⟩⟩ := transform_next hn
    · obtain ⟨n, ready, hc⟩ := ht (by rw [hp]; rfl)
      refine ⟨⟨inv_idle hi hc, ⟨hl.born, hl.waited⟩, fun h => by cases h⟩, ?_⟩
      simp only [endings, hp, hc, hex]
      exact .ends n _ (by rw [hc]; rfl) rfl rfl
    · obtain ⟨n, ready, hc⟩ := ht (by rw [hp]; rfl)
      refine ⟨⟨hi, hl, fun h => by cases h⟩, ?_⟩
      simp only [endings, hp, hc, hok]
      exact .stay rfl rfl

/-! ## The wait that will be refused -/

/-- Wait `n` is in progress, and what is next for it refuses it. -/
structure Meant (kind : Kind) (s : St) (n : Nat) : Prop where
  live : s.timer.terminated = false
  waiting : s.timer.coro.wait? = some n
  hit : s.transform = none → Hit kind s.timer 0 n
  /-- `await_transform` throws, or what follows it does. -/
  transform : ∀ promise, s.transform = some promise →
    awaitTransform s promise = .error .operationCancelled ∨
      kind = .tp ∧ s.timer.timer.cancellationRequested = true

theorem Meant.cancel (h : Meant kind s n) {e : Cancel.Ev} {c : Cancel.St}
    (hc : Cancel.sys.Reach s.cancel) (hst : Cancel.step s.cancel e = some c) :
    Meant kind { s with cancel := c } n := by
  refine ⟨h.live, h.waiting, h.hit,
    fun promise hp => (h.transform promise hp).imp_left fun ha => ?_⟩
  cases promise with
  | none => cases ha
  | some p =>
    have hcan : (s.cancel.promises p).cancelled = true := by
      by_contra hn
      simp [awaitTransform, PromiseBase0.awaitTransform, PromiseBase0.isCancelled, hn] at ha
    exact PromiseBase0.awaitTransform_cancelled
      (Cancel.promise_cancelled_later hc p hcan (.step e .refl trivial hst)) ()

/-- No step but the end of the wait leads out. -/
theorem Meant.next {n : Nat} (h : Meant kind s n) (hs : Sound s) (hc : Cancel.sys.Reach s.cancel)
    (ha : allowed u s e = true) (hn : next kind s e = some s') :
    (endings kind s e = [] ∧ Meant kind s' n) ∨
      ∃ r, Refused r ∧ endings kind s e = [(n, r)] ∧ s'.timer.coro = .idle ∧
        s'.timer.waits = s.timer.waits := by
  cases e with
  | cancel e =>
    obtain ⟨c, hst, rfl⟩ := Option.map_eq_some_iff.mp hn
    exact .inl ⟨rfl, h.cancel hc hst⟩
  | wait ready promise =>
    obtain ⟨t, hst, rfl⟩ := Option.map_eq_some_iff.mp hn
    have := h.waiting
    rw [(wait_begins hst).1] at this
    cases this
  | timer e =>
    obtain ⟨t, hst, rfl⟩ := Option.map_eq_some_iff.mp hn
    cases htr : s.transform with
    | none =>
      rcases (h.hit htr).step hs.inv hst with ⟨he, hhit⟩ | ⟨he, hidle, hw⟩
      · refine .inl ⟨he, hhit.live, hhit.wait?, fun _ => hhit, fun promise hp => ?_⟩
        cases hp
      · exact .inr ⟨_, .inl rfl, he, hidle, hw⟩
    | some promise =>
      -- the coroutine is before `await_transform`
      obtain ⟨m, ready, hco⟩ := hs.transform (by rw [htr]; rfl)
      have hne : e ≠ .await := by
        rintro rfl
        simp [allowed, htr] at ha
      obtain ⟨hco', hlive, hf⟩ := created_stays hs.inv hco hne hst
      refine .inl ⟨endings_created hco hne, hlive ▸ h.live, ?_, fun hnone => ?_,
        fun promise' hp => ?_⟩
      · show t.coro.wait? = some n
        rw [hco', ← h.waiting, hco]
      · cases hnone
      · cases hp
        exact (h.transform promise htr).imp_right (And.imp_right hf)
  | transform =>
    obtain ⟨promise, hp, ⟨hex, rfl⟩ | ⟨hok, rfl⟩⟩ := transform_next hn
    · obtain ⟨m, ready, hco⟩ := hs.transform (by rw [hp]; rfl)
      have hmn := h.waiting
      rw [hco] at hmn
      cases hmn
      refine .inr ⟨_, .inr rfl, ?_, rfl, rfl⟩
      simp only [endings, hp, hco, hex]
    · obtain ⟨m, ready, hco⟩ := hs.transform (by rw [hp]; rfl)
      have hmn := h.waiting
      rw [hco] at hmn
      cases hmn
      have htp := (h.transform promise hp).resolve_left (by rw [hok]; simp)
      refine .inl ⟨by simp only [endings, hp, hco, hok], h.live, h.waiting, fun _ => ?_,
        fun _ hp => by cases hp⟩
      refine ⟨h.live, htp.2, ?_⟩
      simp only [Place, hco]
      exact ⟨trivial, .inr htp.1⟩

theorem reach_base {ok} (hs : (sys kind u).ReachBy ok s) : Cancel.sys.Reach s.cancel ∧ Sound s := by
  induction hs with
  | init => exact ⟨.init, .init⟩
  | step e _ _ hst ih =>
    obtain ⟨-, ha, t, hn, rfl⟩ := step_next hst
    refine ⟨?_, ?_⟩
    · cases e with
      | cancel e =>
        obtain ⟨c, hc, rfl⟩ := Option.map_eq_some_iff.mp hn
        exact .step e ih.1 trivial hc
      | timer e =>
        obtain ⟨t, -, rfl⟩ := Option.map_eq_some_iff.mp hn
        exact ih.1
      | wait ready promise =>
        obtain ⟨t, -, rfl⟩ := Option.map_eq_some_iff.mp hn
        exact ih.1
      | transform =>
        obtain ⟨promise, -, ⟨-, rfl⟩ | ⟨-, rfl⟩⟩ := transform_next hn <;> exact ih.1
    · obtain ⟨h1, h2, h3⟩ := (ih.2.next ha hn).1
      exact ⟨h1, h2, h3⟩

/-- The history, and the timer in it. -/
theorem reach_over {s : St × List (Nat × Option Exception)} {ok}
    (hs : (history kind u).ReachBy ok s) : Over (s.1.timer, s.2) := by
  refine hs.logged_induction (I := Sound) (J := fun s => Over (s.1.timer, s.2))
    (fun _ h => (reach_base h).2) (fun _ h => (by cases h)) ?_
  intro s e s' l hi hj _ hst
  obtain ⟨-, ha, t, hn, rfl⟩ := step_next hst
  exact hj.turn hi.inv (hi.next ha hn).2

/-- What is at work goes on, or has ended the wait. -/
theorem Meant.serves {n : Nat} (h : Meant kind s n) (hs : Sound s) : ∃ e s', e.serves ∧
    step kind u s e = some s' ∧ s'.timer.left 0 + (if s'.transform.isSome then 1 else 0) <
      s.timer.left 0 + if s.transform.isSome then 1 else 0 := by
  cases htr : s.transform with
  | none =>
    obtain ⟨e, t, he, hst, hlt⟩ := (h.hit htr).serves hs.inv hs.listed
    have ha : allowed u s (.timer e) = true := by
      cases e <;> first | exact he.elim | simp [allowed, htr]
    refine ⟨.timer e, _, he, step_of_next h.live ha (Option.map_eq_some_iff.mpr ⟨t, hst, rfl⟩), ?_⟩
    simpa [htr] using hlt
  | some promise =>
    obtain ⟨m, ready, hco⟩ := hs.transform (by rw [htr]; rfl)
    cases hat : awaitTransform s promise with
    | error ex =>
      have hn : AutoCancel.next kind s .transform =
          some { s with timer := { s.timer with coro := .idle }, transform := none } := by
        simp only [AutoCancel.next, htr, hat]
      refine ⟨.transform, _, trivial, step_of_next h.live rfl hn, ?_⟩
      simp [St.left, hco]
    | ok x =>
      have hn : AutoCancel.next kind s .transform = some { s with transform := none } := by
        simp only [AutoCancel.next, htr, hat]
      refine ⟨.transform, _, trivial, step_of_next h.live rfl hn, ?_⟩
      simp

/-- A wait that is meant is refused, once, and by what is at work. -/
theorem Meant.ends {s : St × List (Nat × Option Exception)} (hs : (history kind u).Reach s)
    {n : Nat} (h : Meant kind s.1 n) :
    (history kind u).EndsIn (fun _ _ => True) (fun _ e => e.serves) s n Refused := by
  refine Sys.EndsIn.of_measure
    (I := fun s => Cancel.sys.Reach s.1.cancel ∧ Sound s.1 ∧ Over (s.1.timer, s.2))
    (J := fun s => Meant kind s.1 n ∨ ∃ r, Refused r ∧ Past (s.1.timer, s.2) n r)
    (μ := fun s => s.1.timer.left 0 + if s.1.transform.isSome then 1 else 0)
    (fun s hs => ⟨(reach_base hs.base).1, (reach_base hs.base).2, reach_over hs⟩)
    (fun _ _ _ => trivial) ?_ ?_ hs (.inl h)
  · rintro ⟨s, l⟩ e ⟨s', l'⟩ ⟨hc, hi, hov⟩ hp - hst
    obtain ⟨hst, hl⟩ := Sys.logged_step.mp hst
    obtain ⟨-, ha, t, hn, rfl⟩ := step_next hst
    simp only at hl hc hi hov hp ha hn ⊢
    rw [hl]
    obtain hp | ⟨r, hr, hp⟩ := hp
    · rcases hp.next hi hc ha hn with ⟨-, hp'⟩ | ⟨r, hr, he, hidle, hw⟩
      · exact .inl ⟨hp'.live, hp'.waiting, hp'.hit, hp'.transform⟩
      · rw [he]
        exact .inr ⟨r, hr, hov.past hi.inv hp.waiting hidle hw⟩
    · exact .inr ⟨r, hr, hp.turn (hi.next ha hn).2⟩
  · rintro ⟨s, l⟩ ⟨-, hi, hov⟩ hp
    obtain hp | ⟨r, hr, hp⟩ := hp
    · refine .inr ⟨hov.results_nil hp.waiting, ?_⟩
      obtain ⟨e, s', he, hst, hlt⟩ := hp.serves (u := u) hi
      exact ⟨e, _, he, Sys.logged_of_step hst l, hlt⟩
    · exact .inl ⟨r, hr, hp.result⟩

/-! ## The runs whose steps are met -/

/-- A step that is met makes the first wait one that will be refused. -/
theorem Meant.covered {n : Nat} (hs : Sound s) (hok : met kind s e = true) (hf : s.first = none)
    (hcov : covers s e = some n) (hst : step kind u s e = some s') : Meant kind s' n := by
  obtain ⟨-, ha, t, hn, rfl⟩ := step_next hst
  cases e with
  | timer e =>
    obtain ⟨t, hb, rfl⟩ := Option.map_eq_some_iff.mp hn
    cases e with
    | cancel k =>
      cases k with
      | zero =>
        -- it is parked when the flag goes up
        have hc := (hs.inv.stored n).mp hcov
        obtain ⟨-, hact, hco, hlive, hup⟩ := cancel_unborn hb
        have htr : s.transform = none := by
          by_contra hne
          obtain ⟨m, ready, hcr⟩ := hs.transform (Option.isSome_iff_ne_none.mpr hne)
          rw [hc] at hcr
          cases hcr
        have hhit : Hit kind t 0 n := by
          refine ⟨hlive ▸ (step_live hb).1, hup, ?_⟩
          rw [Place, hco, hc]
          exact ⟨rfl, hact⟩
        exact ⟨hhit.live, hhit.wait?, fun _ => hhit, fun promise hp => by cases htr.symm.trans hp⟩
      | succ k => cases hcov
    | await =>
      simp only [met, hf, Option.isSome_none, Bool.false_or, Option.isNone_iff_eq_none] at hok
      rw [hok] at hcov
      cases hcov
    | _ => cases hcov
  | wait ready promise =>
    obtain ⟨t, hb, rfl⟩ := Option.map_eq_some_iff.mp hn
    obtain ⟨-, hco, hlive, hti, -, -⟩ := wait_begins hb
    simp only [covers] at hcov
    split at hcov
    · rename_i hdone
      cases hcov
      refine ⟨hlive, by rw [hco]; rfl, fun hnone => (by cases hnone),
        fun promise' hp => ?_⟩
      cases hp
      simp only [met, hf, covers, hdone, if_true, Option.isSome_none, Option.isNone_some,
        Bool.or_false, Bool.false_or, Bool.or_eq_true, Bool.and_eq_true, decide_eq_true_eq] at hok
      rcases hok with hok | ⟨htp, hup⟩
      · left
        cases promise with
        | none => cases hok
        | some p =>
          simp only [awaitTransform, PromiseBase0.awaitTransform] at hok ⊢
          split at hok
          · rename_i hcan
            rw [if_pos hcan]
          · cases hok
      · right
        refine ⟨htp, ?_⟩
        rw [hti, htp]
        exact hup
    · cases hcov
  | _ => cases hcov

theorem reach_obeys {s : St × List (Nat × Option Exception)}
    (hs : (history kind u).ReachBy (fun s e => met kind s.1 e = true) s) : Obeys kind u s := by
  induction hs with
  | init => exact fun n hn => by cases hn
  | @step s s' e hr hok hst ih =>
    have hlater : (history kind u).Later (fun _ _ => True) s s' := .step e .refl trivial hst
    obtain ⟨hst', -⟩ := Sys.logged_step.mp hst
    obtain ⟨-, -, t, -, heq⟩ := step_next hst'
    intro n hn
    rw [heq] at hn
    cases hf : s.1.first with
    | some m =>
      simp only [hf, Option.some_or] at hn
      exact (ih n (hf.trans hn)).later hlater
    | none =>
      simp only [hf, Option.none_or] at hn
      exact (Meant.covered (reach_base hr.base).2 hok hf hn hst').ends (hr.reach.later hlater)

/-! ## The callback's call -/

/-- What a step does to call `k` of `cancel`. -/
theorem cancels_step {t t' : Timers.St} {e : Timers.Ev} (k : Nat)
    (h : Timers.step kind t e = some t') : t'.cancels k = t.cancels k ∨
      (e = .cancel k ∧ (t'.cancels k).pc =
        if t.timer.resumeLocation.isSome then .raised else .trailing) ∨
      (e = .call k ∧ (t.cancels k).pc.active = true ∧
        ((t.cancels k).pc = .trailing → (t'.cancels k).pc = .done)) := by
  have hm := step_move h
  obtain ⟨-, hs⟩ := step_live h
  cases e with
  | cancel i =>
    simp only [liveStep] at hs
    split at hs
    · cases hs
      by_cases hik : k = i
      · subst hik
        refine .inr (.inl ⟨rfl, ?_⟩)
        simp only [update_self]
        rfl
      · exact .inl (update_of_ne hik _ _)
    · cases hs
  | call i =>
    by_cases hik : k = i
    · subst hik
      right; right
      refine ⟨rfl, ?_⟩
      simp only [liveStep, callStep] at hs
      split at hs
      · rename_i hpc
        exact ⟨by rw [hpc]; rfl, fun ht => by rw [hpc] at ht; cases ht⟩
      · rename_i hpc
        exact ⟨by rw [hpc]; rfl, fun ht => by rw [hpc] at ht; cases ht⟩
      · rename_i hpc
        cases hs
        exact ⟨by rw [hpc]; rfl, fun _ => by simp⟩
      · cases hs
    · left
      cases hm <;> first | rfl | exact update_of_ne hik _ _
  | _ =>
    left
    cases hm <;> rfl

/-- The callback is what calls `cancel`, after `run()`; where it has found no wait, it does not wait
for the callbacks of the timer. -/
structure Called (u : Nat) (s : St) : Prop where
  run : (s.timer.cancels 0).pc ≠ .unborn → 0 < (s.cancel.subs u).runs
  unseen : s.first = none → (s.timer.cancels 0).pc.active = true →
    (s.timer.cancels 0).pc = .trailing

theorem Called.init : Called u {} := ⟨fun h => absurd rfl h, fun _ h => (by cases h)⟩

/-- A step that leaves the call alone. -/
theorem Called.keep (h : Called u s) (hc : s'.timer.cancels 0 = s.timer.cancels 0)
    (hr : (s.cancel.subs u).runs ≤ (s'.cancel.subs u).runs)
    (hf : s'.first = none → s.first = none) : Called u s' := by
  refine ⟨fun hp => ?_, fun hn ha => ?_⟩
  · have := h.run (by rwa [hc] at hp)
    omega
  · rw [hc] at ha ⊢
    exact h.unseen (hf hn) ha

theorem first_none {o o' : Option Nat} (h : o.or o' = none) : o = none ∧ o' = none := by
  cases o with
  | none => exact ⟨rfl, by simpa using h⟩
  | some n => cases h

theorem Called.step (h : Called u s) (hc : Cancel.sys.Reach s.cancel)
    (hst : step kind u s e = some s') : Called u s' := by
  obtain ⟨-, ha, t, hn, rfl⟩ := step_next hst
  have hf : ∀ {o : Option Nat}, s.first.or o = none → s.first = none := fun h => (first_none h).1
  cases e with
  | cancel e =>
    obtain ⟨c, hb, rfl⟩ := Option.map_eq_some_iff.mp hn
    exact h.keep rfl (Cancel.runs_le (Cancel.reach_inv hc) hb u) hf
  | timer e =>
    obtain ⟨t, hb, rfl⟩ := Option.map_eq_some_iff.mp hn
    rcases cancels_step 0 hb with hk | ⟨rfl, hpc⟩ | ⟨rfl, hact, hpc⟩
    · exact h.keep hk (Nat.le_refl _) hf
    · have hrun : 0 < (s.cancel.subs u).running := by simpa [allowed] using ha
      obtain ⟨g, hg⟩ := Cancel.reach_staged hc u
      have hg' := hg.running_of_pos hrun
      subst hg'
      refine ⟨fun _ => ?_, fun hnone _ => ?_⟩
      · show 0 < (s.cancel.subs u).runs
        rw [hg.runs]
        decide
      · have hcov := (first_none hnone).2
        simp only [covers] at hcov
        show (t.cancels 0).pc = .trailing
        rw [hpc, hcov]
        rfl
    · refine ⟨fun _ => h.run fun hu => ?_, fun hnone hact' => ?_⟩
      · rw [hu] at hact
        cases hact
      · have := hpc (h.unseen (hf hnone) hact)
        simp only [this] at hact'
        cases hact'
  | wait ready promise =>
    obtain ⟨t, hb, rfl⟩ := Option.map_eq_some_iff.mp hn
    refine h.keep ?_ (Nat.le_refl _) hf
    show t.cancels 0 = _
    rw [(wait_begins hb).2.2.2.2.1]
  | transform =>
    obtain ⟨promise, -, ⟨-, rfl⟩ | ⟨-, rfl⟩⟩ := transform_next hn <;>
      exact h.keep rfl (Nat.le_refl _) hf

theorem reach_called (hs : (sys kind u).Reach s) : Called u s :=
  hs.rec_on (fun _ h => (reach_base h).1) .init fun _ _ _ hc h _ hst => h.step hc hst

/-- The waits of the coroutine that the token belongs to are met. -/
theorem own_met (hs : (sys kind u).Reach s) {p : Nat}
    (hp : (s.cancel.tokens (s.cancel.subs u).token).coro = some p) (ready : Bool) :
    met kind s (.wait ready (some p)) = true := by
  by_cases hd : (s.timer.cancels 0).pc = .done
  · have hcan := (Cancel.reach_promised (reach_base hs).1).run u p
      ((reach_called hs).run (by rw [hd]; simp)) hp
    simp [met, awaitTransform, PromiseBase0.awaitTransform_cancelled hcan, Except.isOk,
      Except.toBool]
  · simp [met, covers, hd]

/-! ## A step that is not met -/

/-- The steps that the timer, its callbacks and `await_resume` can take at any time. -/
def free : Timers.Ev → Bool
  | .check | .arm | .start _ | .expire | .dispatch | .callback _ | .call _ => true
  | _ => false

theorem timer_step {e : Timers.Ev} {t : Timers.St} (hst : Timers.step kind s.timer e = some t)
    (ha : allowed u s (.timer e) = true) : step kind u s (.timer e) =
      some { s with timer := t, first := s.first.or (covers s (.timer e)) } :=
  step_of_next (step_live hst).1 ha (Option.map_eq_some_iff.mpr ⟨t, hst, rfl⟩)

/-- They are steps of the whole system. -/
theorem lift_later {s : St × List (Nat × Option Exception)} {t : Timers.St}
    (hl : (Timers.sys kind).Later (fun _ e => free e = true) s.1.timer t) :
    ∃ s', (history kind u).Later (fun _ _ => True) s s' ∧ s'.1.timer = t := by
  induction hl with
  | refl => exact ⟨s, .refl, rfl⟩
  | @step t t' e _ hok hst ih =>
    obtain ⟨s', hl, rfl⟩ := ih
    have ha : allowed u s'.1 (.timer e) = true := by
      cases e <;> first | rfl | cases hok
    exact ⟨_, .step (.timer e) hl trivial (Sys.logged_of_step (timer_step hst ha) s'.2), rfl⟩

/-- Where the coroutine is about to return from wait `n`. -/
structure Returning (t : Timers.St) (n : Nat) : Prop where
  live : t.terminated = false
  flag : t.timer.cancellationRequested = false
  coro : ∃ b, t.coro = .resuming n b

/-- Then it does, and the wait was not refused. -/
theorem Returning.not_ends {s : St × List (Nat × Option Exception)} {n : Nat}
    (hs : (history kind u).Reach s) (h : Returning s.1.timer n) :
    ¬(history kind u).EndsIn (fun _ _ => True) (fun _ e => e.serves) s n Refused := by
  obtain ⟨hlive, hflag, b, hc⟩ := h
  have hov := reach_over hs
  have hst : Timers.step kind s.1.timer .check = some { s.1.timer with
      coro := .idle, ended := s.1.timer.ended ++ if b then [(n, none)] else [] } := by
    refine step_of_live hlive ?_
    simp only [liveStep, hc, Timer.checkException_clear hflag]
  have hend : endings kind s.1 (.timer .check) = [(n, none)] := by
    simp only [endings, Timers.endings, hc, Timer.checkException_clear hflag]
  have hstep : (history kind u).step s (.timer .check) = some _ :=
    Sys.logged_of_step (S := sys kind u) (timer_step hst rfl) s.2
  rw [hend] at hstep
  intro hends
  have hres : Sys.results (s.2 ++ [(n, (none : Option Exception))]) n = [none] := by
    rw [Sys.results_append, hov.results_nil (by rw [hc]; rfl), Sys.results_self]
    rfl
  rcases (hends _ (.step _ .refl trivial hstep)).1 with h | ⟨r, hr, h⟩
  · rw [hres] at h
    cases h
  · rw [hres] at h
    cases h
    rcases hr with h | h <;> cases h

/-- Wait `n` is parked, and no one has cancelled it. -/
structure Waiting (t : Timers.St) (n : Nat) : Prop where
  live : t.terminated = false
  coro : t.coro = .parked n
  stored : t.timer.resumeLocation = some n
  flag : t.timer.cancellationRequested = false

theorem Waiting.arms {t : Timers.St} {n : Nat} (h : Waiting t n)
    (harm : kind = .async → 0 < t.arming) : ∃ e t', free e = true ∧
      Timers.step kind t e = some t' ∧ Waiting t' n ∧ t'.os.armed = true := by
  obtain ⟨h1, h2, h3, h4⟩ := h
  cases kind with
  | async =>
    have hst : Timers.step .async t .arm =
        some { t with os := t.os.set false, arming := t.arming - 1 } :=
      step_of_live h1 (by simp only [liveStep, harm rfl, if_true])
    exact ⟨.arm, _, rfl, hst, ⟨h1, h2, h3, h4⟩, rfl⟩
  | tp =>
    have hst : Timers.step .tp t (.start false) = some { t with os := t.os.set false } :=
      step_of_live h1 (by simp only [liveStep, if_true])
    exact ⟨.start false, _, rfl, hst, ⟨h1, h2, h3, h4⟩, rfl⟩

theorem Waiting.expire (kind : Kind) {t : Timers.St} {n : Nat} (h : Waiting t n)
    (ha : t.os.armed = true) :
    ∃ t', Timers.step kind t .expire = some t' ∧ Waiting t' n ∧ 0 < t'.os.queued := by
  obtain ⟨h1, h2, h3, h4⟩ := h
  have hst : Timers.step kind t .expire = some { t with os := t.os.expire } :=
    step_of_live h1 (by simp only [liveStep, ha, if_true])
  exact ⟨_, hst, ⟨h1, h2, h3, h4⟩, Nat.succ_pos _⟩

theorem Waiting.dispatch (kind : Kind) {t : Timers.St} {n : Nat} (h : Waiting t n)
    (hq : 0 < t.os.queued) :
    ∃ t', Timers.step kind t .dispatch = some t' ∧ Waiting t' n ∧
      (t'.callbacks t.started).pc = .dispatched := by
  obtain ⟨h1, h2, h3, h4⟩ := h
  have hst : Timers.step kind t .dispatch = some { t with
      os := { t.os with queued := t.os.queued - 1 }, started := t.started + 1
      callbacks := update t.callbacks t.started
        { pc := .dispatched, seen := t.timer.resumeLocation }
      dispatched := t.dispatched ++ t.timer.resumeLocation.toList } :=
    step_of_live h1 (by simp only [liveStep, hq, if_true])
  exact ⟨_, hst, ⟨h1, h2, h3, h4⟩, by simp⟩

theorem Waiting.callback (kind : Kind) {t : Timers.St} {n k : Nat} (h : Waiting t n)
    (hk : (t.callbacks k).pc = .dispatched) :
    ∃ t', Timers.step kind t (.callback k) = some t' ∧ Returning t' n := by
  obtain ⟨h1, h2, h3, h4⟩ := h
  have hst : Timers.step kind t (.callback k) = some ((t.taken n).setCallback k (.inline n)) :=
    step_of_live h1 (by
      simp only [liveStep, callbackStep, hk, h3, St.resume_parked h3 h2]
      rfl)
  exact ⟨_, hst, h1, h4, true, rfl⟩

/-- Its timer expires. -/
theorem Waiting.expires {t : Timers.St} {n : Nat} (h : Waiting t n)
    (harm : kind = .async → 0 < t.arming) :
    ∃ t', (Timers.sys kind).Later (fun _ e => free e = true) t t' ∧ Returning t' n := by
  obtain ⟨e, t₁, he, hst₁, h₁, harmed⟩ := h.arms harm
  obtain ⟨t₂, hst₂, h₂, hq⟩ := h₁.expire kind harmed
  obtain ⟨t₃, hst₃, h₃, hk⟩ := h₂.dispatch kind hq
  obtain ⟨t₄, hst₄, h₄⟩ := h₃.callback kind hk
  exact ⟨t₄, .step _ (.step _ (.step _ (.step e .refl he hst₁) rfl hst₂) rfl hst₃) rfl hst₄, h₄⟩

/-- The awaiter of a wait that no one has cancelled. -/
theorem await_parks (kind : Kind) {t : Timers.St} {n : Nat} (hlive : t.terminated = false)
    (hc : t.coro = .created n false) (hl : t.timer.resumeLocation = none)
    (hf : t.timer.cancellationRequested = false) :
    ∃ t', Timers.step kind t .await = some t' ∧ t'.cancels = t.cancels ∧ Waiting t' n ∧
      (kind = .async → 0 < t'.arming) := by
  have hst : Timers.step kind t .await = some (suspendStep kind t n) :=
    step_of_live hlive (by simp only [liveStep, hc])
  refine ⟨_, hst, ?_⟩
  rw [suspendStep, Timer.suspend_free hf hl]
  cases kind with
  | async => exact ⟨rfl, ⟨hlive, rfl, rfl, hf⟩, fun _ => Nat.succ_pos _⟩
  | tp => exact ⟨rfl, ⟨hlive, rfl, rfl, hf⟩, fun h => by cases h⟩

theorem await_returns (kind : Kind) {t : Timers.St} {n : Nat} (hlive : t.terminated = false)
    (hc : t.coro = .created n true) (hf : t.timer.cancellationRequested = false) :
    ∃ t', Timers.step kind t .await = some t' ∧ Returning t' n := by
  have hst : Timers.step kind t .await = some { t with coro := .resuming n false } :=
    step_of_live hlive (by simp only [liveStep, hc])
  exact ⟨_, hst, hlive, hf, false, rfl⟩

theorem Waiting.trailing (kind : Kind) {t : Timers.St} {n : Nat} (h : Waiting t n)
    (hk : (t.cancels 0).pc = .trailing) :
    ∃ t', Timers.step kind t (.call 0) = some t' ∧ Returning t' n := by
  obtain ⟨h1, h2, h3, h4⟩ := h
  have hst : Timers.step kind t (.call 0) = some ((t.taken n).setCancel 0 .done) :=
    step_of_live h1 (by
      simp only [liveStep, callStep, hk, St.resume_parked h3 h2]
      rfl)
  exact ⟨_, hst, h1, h4, true, rfl⟩

/-- Steps that lead to the return of wait `n`. -/
theorem not_ends_later {s s' : St × List (Nat × Option Exception)} {n : Nat} {t : Timers.St}
    (hs : (history kind u).Reach s) (hl : (history kind u).Later (fun _ _ => True) s s')
    (hl' : (Timers.sys kind).Later (fun _ e => free e = true) s'.1.timer t) (h : Returning t n) :
    ¬(history kind u).EndsIn (fun _ _ => True) (fun _ e => e.serves) s n Refused := by
  obtain ⟨s'', hl'', rfl⟩ := lift_later (u := u) hl'
  intro hends
  exact h.not_ends ((hs.later hl).later hl'') ((hends.later hl).later hl'')

theorem created_free {t : Timers.St} {n : Nat} {ready : Bool} (hi : Timers.Inv t)
    (hc : t.coro = .created n ready) : t.timer.resumeLocation = none :=
  Option.eq_none_iff_forall_ne_some.mpr fun m hm => by
    rw [(hi.stored m).mp hm] at hc
    cases hc

/-- A wait that parks between the two sections of the callback's call. -/
theorem stray_await {s s' : St × List (Nat × Option Exception)} (hs : (history kind u).Reach s)
    (he : met kind s.1 (.timer .await) = false)
    (hst : (history kind u).step s (.timer .await) = some s') : ¬Obeys kind u s' := by
  obtain ⟨hstep, -⟩ := Sys.logged_step.mp hst
  obtain ⟨hlive, -, t, hn, heq⟩ := step_next hstep
  obtain ⟨t, hb, rfl⟩ := Option.map_eq_some_iff.mp hn
  have hsound := (reach_base hs.base).2
  simp only [met, Bool.or_eq_false_iff, Option.isSome_eq_false_iff, Option.isNone_iff_eq_none,
    Option.isNone_eq_false_iff, Option.isSome_iff_exists] at he
  obtain ⟨hfirst, n, hcov⟩ := he
  have hcov' := hcov
  simp only [covers] at hcov'
  split at hcov'
  · rename_i m hc
    split at hcov'
    · rename_i hcond
      cases hcov'
      simp only [Bool.and_eq_true, Bool.not_eq_true'] at hcond
      obtain ⟨t', ht', hk, hwait, -⟩ :=
        await_parks kind hlive hc (created_free hsound.inv hc) hcond.2
      cases hb.symm.trans ht'
      have htr := (reach_called hs.base).unseen hfirst hcond.1
      obtain ⟨t'', hcall, hret⟩ := hwait.trailing kind (by rw [hk]; exact htr)
      intro hobeys
      have htimer : s'.1.timer = t := by rw [heq]
      refine not_ends_later (hs.step _ trivial hst) .refl
        (.step (.call 0) .refl rfl (htimer ▸ hcall)) hret (hobeys n ?_)
      rw [heq, hfirst, Option.none_or]
      exact hcov
    · cases hcov'
  · cases hcov'

theorem transform_passes (kind : Kind) (u : Nat) {s : St × List (Nat × Option Exception)}
    {promise : Option Nat} (hlive : s.1.timer.terminated = false)
    (hp : s.1.transform = some promise)
    (hok : awaitTransform s.1 promise = .ok ()) :
    ∃ s', (history kind u).step s .transform = some s' ∧ s'.1.timer = s.1.timer ∧
      s'.1.transform = none := by
  have hn : next kind s.1 .transform = some { s.1 with transform := none } := by
    simp only [next, hp, hok]
  exact ⟨_, Sys.logged_of_step (S := sys kind u) (step_of_next hlive rfl hn) s.2, rfl, rfl⟩

theorem timer_awaits {s : St × List (Nat × Option Exception)} {t : Timers.St}
    (hnone : s.1.transform = none) (hst : Timers.step kind s.1.timer .await = some t) :
    ∃ s', (history kind u).step s (.timer .await) = some s' ∧ s'.1.timer = t := by
  have ha : allowed u s.1 (.timer .await) = true := by simp [allowed, hnone]
  exact ⟨_, Sys.logged_of_step (S := sys kind u) (timer_step hst ha) s.2, rfl⟩

/-- A wait that is started after the callback, where nothing refuses it. -/
theorem stray_wait {s s' : St × List (Nat × Option Exception)} {ready : Bool} {promise : Option Nat}
    (hs : (history kind u).Reach s) (he : met kind s.1 (.wait ready promise) = false)
    (hst : (history kind u).step s (.wait ready promise) = some s') : ¬Obeys kind u s' := by
  obtain ⟨hstep, -⟩ := Sys.logged_step.mp hst
  obtain ⟨hlive, -, t, hn, heq⟩ := step_next hstep
  obtain ⟨t, hb, rfl⟩ := Option.map_eq_some_iff.mp hn
  simp only [met, Bool.or_eq_false_iff, Option.isSome_eq_false_iff, Option.isNone_iff_eq_none,
    Option.isNone_eq_false_iff, Option.isSome_iff_exists, Bool.not_eq_false', Bool.and_eq_false_iff,
    decide_eq_false_iff_not] at he
  obtain ⟨⟨⟨hfirst, n, hcov⟩, hok⟩, hflag⟩ := he
  obtain ⟨-, hco, hlive', hti, -, -⟩ := wait_begins hb
  have hn : n = s.1.timer.waits := by
    simp only [covers] at hcov
    split at hcov <;> cases hcov
    rfl
  subst hn
  have hf : t.timer.cancellationRequested = false := by
    rw [hti]
    split
    · rfl
    · rename_i hk
      have htp : kind = .tp := by cases kind <;> simp_all
      simpa [htp] using hflag
  have hr' : (history kind u).Reach s' := hs.step _ trivial hst
  have htimer : s'.1.timer = t := by rw [heq]
  have hpass : awaitTransform s'.1 promise = .ok () := by
    have hsame : awaitTransform s'.1 promise = awaitTransform s.1 promise := by rw [heq]; rfl
    rw [hsame]
    cases hat : awaitTransform s.1 promise with
    | ok x => rfl
    | error ex =>
      rw [hat] at hok
      cases hok
  -- `await_transform` lets it through, and so does the timer
  obtain ⟨s₁, hst₁, ht₁, hnone⟩ :=
    transform_passes kind u (htimer ▸ hlive') (by rw [heq]) hpass
  have hgo : ∃ t' t'', Timers.step kind t .await = some t' ∧
      (Timers.sys kind).Later (fun _ e => free e = true) t' t'' ∧
        Returning t'' s.1.timer.waits := by
    cases ready with
    | true =>
      obtain ⟨t', ht', hret⟩ := await_returns kind hlive' hco hf
      exact ⟨t', t', ht', .refl, hret⟩
    | false =>
      have hinv := (reach_base hr'.base).2.inv
      rw [htimer] at hinv
      obtain ⟨t', ht', -, hwait, harm⟩ := await_parks kind hlive' hco (created_free hinv hco) hf
      obtain ⟨t'', hl, hret⟩ := hwait.expires harm
      exact ⟨t', t'', ht', hl, hret⟩
  obtain ⟨t', t'', ht', hl, hret⟩ := hgo
  obtain ⟨s₂, hst₂, ht₂⟩ := timer_awaits (u := u) hnone (by rw [ht₁, htimer]; exact ht')
  intro hobeys
  refine not_ends_later hr'
    (.step (.timer .await) (.step .transform .refl trivial hst₁) trivial hst₂)
    (by rw [ht₂]; exact hl) hret (hobeys _ ?_)
  rw [heq, hfirst, Option.none_or]
  exact hcov

/-- **An `auto_cancel_timer` obeys its token**, in the runs whose first wait is met; the waits of
the coroutine that the token belongs to are, and a step that is not met breaks it. -/
theorem obeys_token (kind : Kind) (u : Nat) :
    (∀ s, (history kind u).ReachBy (fun s e => met kind s.1 e = true) s → Obeys kind u s) ∧
    (∀ s, (sys kind u).Reach s → ∀ p, (s.cancel.tokens (s.cancel.subs u).token).coro = some p →
      ∀ ready, met kind s (.wait ready (some p)) = true) ∧
    ∀ s, (history kind u).Reach s → ∀ e s', met kind s.1 e = false →
      (history kind u).step s e = some s' → ¬Obeys kind u s' := by
  refine ⟨fun _ hs => reach_obeys hs, fun _ hs _ hp ready => own_met hs hp ready, ?_⟩
  intro s hs e s' he hst
  cases e with
  | timer e =>
    cases e with
    | await => exact stray_await hs he hst
    | _ => cases he
  | wait ready promise => exact stray_wait hs he hst
  | _ => cases he

/-- The source, a token of it for this promise, and the timer with its subscription. -/
def setup (coro : Option Nat) : List Ev :=
  [.newSource 0, .tokenBegin 0 0 coro, .tokenRead 0, .tokenCheck 0, .tokenAdd 0, .subBegin 0 0,
    .subCheck 0, .subAdd 0].map .cancel

/-- `cancel()` of the source, up to the start of the callback. -/
def cancelSource : List Ev :=
  [.cancel 0 0, .call 0, .call 0, .call 0, .call 0, .call 0, .callback 0].map .cancel

/-- The callback, and a wait that is started afterwards. -/
def lateWait (promise : Option Nat) : List Ev :=
  [.timer (.cancel 0), .timer (.call 0), .cancel (.complete 0), .wait false promise, .transform]

/-- The coroutine that waits is the one that the token belongs to. -/
def ownRun : List Ev := setup (some 7) ++ cancelSource ++ lateWait (some 7)

theorem obeys_token_own : Obeys .async 0 ((history .async 0).after ownRun) ∧
    ((history .async 0).after ownRun).1.first = some 0 ∧
    ((history .async 0).after ownRun).2 = [(0, some .operationCancelled)] := by
  have hs : (history .async 0).ReachBy (fun s e => met .async s.1 e = true)
      ((history .async 0).after ownRun) := Sys.reachBy_meets (by decide)
  exact ⟨(obeys_token .async 0).1 _ hs, by decide, by decide⟩

/-- The token was made without `co_await`: the wait clears the flag, and expires. -/
def deafRun : List Ev :=
  setup none ++ cancelSource ++ lateWait none ++
    [.await, .arm, .expire, .dispatch, .callback 0, .check].map .timer

/-- The callback raises the flag while wait 0, which has expired, is resumed: it throws, and wait 1
finds the flag down. -/
def consumedRun : List Ev :=
  setup none ++ [.wait false none, .transform] ++
    [.await, .start false, .expire, .dispatch, .callback 0].map .timer ++ cancelSource ++
    [.timer (.cancel 0), .timer .check, .timer (.call 0), .cancel (.complete 0), .wait false none,
      .transform] ++ [.await, .start false, .expire, .dispatch, .callback 1, .check].map .timer

/-- The first wait after the callback completes by expiry. -/
theorem deaf_timer : (¬∀ s, (history .async 0).Reach s → Obeys .async 0 s) ∧
    ¬∀ s, (history .tp 0).Reach s → Obeys .tp 0 s := by
  have key : ∀ (kind : Kind) (run : List Ev) (n : Nat),
      ((history kind 0).exec (history kind 0).init run).isSome = true →
      ((history kind 0).after run).1.first = some n →
      Sys.results ((history kind 0).after run).2 n = [none] →
      ¬∀ s, (history kind 0).Reach s → Obeys kind 0 s := by
    intro kind run n hr hf hres h
    rcases (h _ (Sys.reach_after hr) n hf _ .refl).1 with hn | ⟨r, hrf, hn⟩
    · rw [hres] at hn
      cases hn
    · rw [hres] at hn
      cases hn
      rcases hrf with h | h <;> cases h
  exact ⟨key .async deafRun 0 (by decide) (by decide) (by decide),
    key .tp consumedRun 1 (by decide) (by decide) (by decide)⟩

end AutoCancel

end Timers

end Corsl
