import Corsl.Cancel.Stages
import Corsl.Conc.History

/-!
# `co_await token.wait_cancelled()`

One `co_await` of token `t`, whose operation has the subscription `u`, among all threads that use
cancellation.

* `await_suspend` is `noexcept` and emplaces the subscription: the constructor's check
  (`construct`, `check`), its locked `add` and the mark of the optional (`engage`) are steps of
  their own. The coroutine is suspended from before the first of them on.
* The callback `f` submits the coroutine (`submit`), and the pool resumes it (`resume`), maybe
  before `await_suspend` is over. The operation is in the coroutine's frame: it is destroyed at the
  end of the `co_await` (`destroy`), with its subscription if the optional is marked.
* `Place`: where the `await_suspend`, the coroutine and the subscription can be. `Fits` is the
  invariant of the runs that `met` describes: the flag of the token is not set between a false
  `await_ready` and the end of `add`, the operation is not destroyed before the mark, and the token
  was not added too late for a `cancel()`. `Comes`: a call of `cancel` comes to the token then.

Submissions do not fail here.
-/

namespace Corsl

open Conc Function

namespace Cancel

namespace WaitCancelled

/-- Where the `co_await` is, in the thread that does it. -/
inductive Pc where
  | unborn
  /-- `await_ready` is next. -/
  | ready
  /-- In `await_suspend`: the subscription's constructor is next. -/
  | begin
  /-- Its `check_cancelled` is next. -/
  | check
  /-- Its `add` is next. -/
  | add
  /-- The mark of the optional is next. -/
  | engage
  | returned
  deriving DecidableEq, Repr

/-- Where the coroutine is. -/
inductive Coro where
  /-- In the `co_await`, or before it. -/
  | running
  | suspended
  /-- After the `co_await`; the operation's destructor is next. -/
  | resumed
  /-- In the destructor of the subscription. -/
  | destroying
  /-- The operation is destroyed. -/
  | after
  deriving DecidableEq, Repr

/-- The state of the system. -/
structure St where
  base : Cancel.St := {}
  pc : Pc := .unborn
  coro : Coro := .running
  /-- The optional is marked. -/
  engaged : Bool := false
  /-- The number of calls of `resume_on_background(resume)`. -/
  submitted : Nat := 0
  /-- Those that the pool has not run yet. -/
  queued : Nat := 0
  undefined : Bool := false
  terminated : Bool := false

/-- The atomic steps. -/
inductive Ev where
  /-- A step of the other threads, of the pool's `run()`, or of a call of `cancel`. -/
  | base (e : Cancel.Ev)
  /-- `wait_cancelled()`, which makes the operation. -/
  | await
  | awaitReady
  | construct
  | check
  | add
  | engage
  /-- `f` calls `resume_on_background(resume)`. -/
  | submit
  | resume
  | destroy
  /-- The subscription's destructor returns. -/
  | done
  deriving DecidableEq, Repr

/-- The step is one of the constructor or the destructor of subscription `u`. -/
def builds (u : Nat) : Cancel.Ev → Bool
  | .subBegin v _ | .subCheck v | .subAdd v | .subRemove v | .subDone v => v = u
  | _ => false

/-- The steps of others: the subscription `u` is the operation's own, the token outlives the
operation, and `run()` goes on after `f` has returned. -/
def allowed (t u : Nat) (s : St) (e : Cancel.Ev) : Bool :=
  !builds u e && match e with
  | .tokenRemove v => v ≠ t || s.pc = .unborn || s.coro = .after
  | .complete v => v ≠ u || (s.base.subs u).invoked < s.submitted + (s.base.subs u).running
  | _ => true

/-- A step of the cancellation system. -/
def lift (s : St) (e : Cancel.Ev) : Option St :=
  (Cancel.step s.base e).map fun base => { s with base }

/-- One atomic step. -/
def step (t u : Nat) (s : St) (e : Ev) : Option St :=
  if s.terminated then none
  else match e with
  | .base e => if allowed t u s e then lift s e else none
  | .await =>
    if s.pc = .unborn ∧ (s.base.tokens t).phase = .live then some { s with pc := .ready } else none
  | .awaitReady =>
    if s.pc = .ready then
      if (s.base.tokens t).isCancelled then some { s with pc := .returned, coro := .resumed }
      else some { s with pc := .begin, coro := .suspended }
    else none
  | .construct =>
    if s.pc = .begin then (lift s (.subBegin u t)).map ({ · with pc := .check }) else none
  | .check =>
    if s.pc = .check then
      (lift s (.subCheck u)).map fun s =>
        -- the exception would leave a `noexcept` function
        if (s.base.subs u).phase = .threw then { s with terminated := true }
        else { s with pc := .add }
    else none
  | .add => if s.pc = .add then (lift s (.subAdd u)).map ({ · with pc := .engage }) else none
  | .engage =>
    if s.pc = .engage then
      -- the optional may be gone with the operation
      some { s with
        pc := .returned, engaged := true, undefined := s.undefined || s.coro = .after }
    else none
  | .submit =>
    if s.submitted < (s.base.subs u).invoked then
      some { s with submitted := s.submitted + 1, queued := s.queued + 1 }
    else none
  | .resume =>
    if 0 < s.queued then
      if s.coro = .suspended then some { s with queued := s.queued - 1, coro := .resumed }
      else some { s with queued := s.queued - 1, undefined := true }
    else none
  | .destroy =>
    if s.coro = .resumed then
      if s.engaged then (lift s (.subRemove u)).map ({ · with coro := .destroying })
      else some { s with coro := .after }
    else none
  | .done =>
    if s.coro = .destroying then (lift s (.subDone u)).map ({ · with coro := .after }) else none

/-- The threads that use cancellation, and one `co_await`. -/
def sys (t u : Nat) : Sys St Ev := ⟨{}, step t u⟩

/-- The coroutine continues. -/
def note (t : Nat) (s : St) : Ev → List (Unit × Unit)
  | .awaitReady => if (s.base.tokens t).isCancelled then [((), ())] else []
  | .resume => [((), ())]
  | _ => []

/-- The same with the history of the coroutine. -/
def history (t u : Nat) : Sys (St × List (Unit × Unit)) Ev := (sys t u).logged (note t)

/-- The source of token `t` is cancelled. -/
def SourceCancelled (t : Nat) (s : St) : Prop :=
  (s.base.bodies (s.base.tokens t).body).cancelled = true

/-- What holds at any time (module doc). -/
structure Exact (t u : Nat) (s : St × List (Unit × Unit)) : Prop where
  alive : s.1.terminated = false
  defined : s.1.undefined = false
  once : s.2.length ≤ 1
  cancelled : s.2 ≠ [] → SourceCancelled t s.1
  unlinked : s.1.coro = .after → u ∉ (s.1.base.tokens t).callbacks

/-- Between a false `await_ready` and the end of `add`. -/
def Pc.window : Pc → Bool
  | .begin | .check | .add => true
  | .unborn | .ready | .engage | .returned => false

/-- The call that cancels the source of token `t` has yet to come to the token. -/
def coming (s : Cancel.St) (t : Nat) : Bool :=
  match (s.bodies (s.tokens t).body).lock with
  | none => false
  | some k => t ∈ (s.calls k).pc.untouched

/-- The source of token `t` is cancelled, and the token does not learn of it. -/
def late (s : Cancel.St) (t : Nat) : Bool :=
  (s.bodies (s.tokens t).body).cancelled && !(s.tokens t).cancelled && !coming s t

/-- The condition on the steps (module doc). -/
def met (t : Nat) (s : St) : Ev → Bool
  | .await => !late s.base t
  | .base (.call k) =>
    match (s.base.calls k).pc with
    | .tokens (v :: _) => v ≠ t || !s.pc.window
    | _ => true
  | .destroy => s.pc ≠ .engage
  | _ => true

/-! ## One token and one subscription in a step of the others -/

section Base

variable {s s' : Cancel.St} {e : Cancel.Ev} {t u : Nat}

/-- A step of another subscription leaves the subscription alone. -/
theorem sub_apart (hm : SubMove s e s') (hb : builds u e = false) (hcb : e ≠ .callback u)
    (hco : e ≠ .complete u) : s'.subs u = s.subs u := by
  have key : ∀ {x : Nat} {v : Subscription}, x ≠ u → update s.subs x v u = s.subs u :=
    fun hx => update_of_ne (Ne.symm hx) ..
  cases hm with
  | begin x => exact key (by simpa [builds] using hb)
  | throws x => exact key (by simpa [builds] using hb)
  | checked x => exact key (by simpa [builds] using hb)
  | add x => exact key (by simpa [builds] using hb)
  | remove x => exact key (by simpa [builds] using hb)
  | done x => exact key (by simpa [builds] using hb)
  | callback x => exact key fun hx => hcb (by rw [hx])
  | complete x => exact key fun hx => hco (by rw [hx])

theorem sub_frame (hst : Cancel.step s e = some s') (hi : Inv s) (hb : builds u e = false) :
    (s'.subs u).phase = (s.subs u).phase ∧ (s'.subs u).token = (s.subs u).token := by
  cases step_move hst with
  | source hm => rw [(hm.frame hi.born.body).subs]; exact ⟨rfl, rfl⟩
  | token hm => rw [hm.frame.subs]; exact ⟨rfl, rfl⟩
  | sub hm =>
    by_cases hcb : e = .callback u
    · subst hcb
      cases hm
      simp
    · by_cases hco : e = .complete u
      · subst hco
        cases hm
        simp
      · rw [sub_apart hm hb hcb hco]
        exact ⟨rfl, rfl⟩
  | call k _ hm => exact ⟨hm.frame.subPhase u, hm.frame.subToken u⟩

/-- Another step runs the callback, or leaves it alone. -/
theorem sub_counts (hst : Cancel.step s e = some s') (hi : Inv s) (hb : builds u e = false)
    (hcb : e ≠ .callback u) (hco : e ≠ .complete u) :
    (s'.subs u).running = (s.subs u).running ∧ (s'.subs u).invoked = (s.subs u).invoked := by
  have key := fun (x : Nat) (v : Subscription) => update_rel (m := s.subs) (i := x) (v := v)
    (j := u) (r := fun a b => b.running = a.running ∧ b.invoked = a.invoked) fun _ => ⟨rfl, rfl⟩
  cases step_move hst with
  | source hm => rw [(hm.frame hi.born.body).subs]; exact ⟨rfl, rfl⟩
  | token hm => rw [hm.frame.subs]; exact ⟨rfl, rfl⟩
  | sub hm => rw [sub_apart hm hb hcb hco]; exact ⟨rfl, rfl⟩
  | call k _ hm =>
    cases hm with
    | run => exact key _ _ ⟨rfl, rfl⟩
    | submit => exact key _ _ ⟨rfl, rfl⟩
    | _ => exact ⟨rfl, rfl⟩

theorem callback_counts (hst : Cancel.step s (.callback u) = some s') :
    0 < (s.subs u).pending ∧ (s'.subs u).running = (s.subs u).running + 1 ∧
      (s'.subs u).invoked = (s.subs u).invoked + 1 := by
  cases step_move hst with
  | source hm => cases hm
  | token hm => cases hm
  | sub hm => cases hm; simpa
  | call k he hm => cases he

theorem complete_counts (hst : Cancel.step s (.complete u) = some s') :
    (s'.subs u).running = (s.subs u).running - 1 ∧ (s'.subs u).invoked = (s.subs u).invoked := by
  cases step_move hst with
  | source hm => cases hm
  | token hm => cases hm
  | sub hm => cases hm; simp
  | call k he hm => cases he

/-- A live token that is not destroyed. -/
structure Stays (s s' : Cancel.St) (t : Nat) : Prop where
  phase : (s'.tokens t).phase = .live
  body : (s'.tokens t).body = (s.tokens t).body
  flag : (s.tokens t).cancelled = true → (s'.tokens t).cancelled = true

theorem token_stays (hst : Cancel.step s e = some s') (ht : (s.tokens t).phase = .live)
    (he : e ≠ .tokenRemove t) : Stays s s' t := by
  cases step_move hst with
  | source hm => cases hm <;> exact ⟨ht, rfl, id⟩
  | token hm =>
    have hne : (s.tokens t).phase ≠ .unborn := by simp [ht]
    refine ⟨?_, (hm.kept hne).body, fun hf => ?_⟩
    · have key : ∀ {x : Nat} {v : Token}, x ≠ t → (update s.tokens x v t).phase = .live :=
        fun hx => by rw [update_of_ne (Ne.symm hx), ht]
      have hother : ∀ {x : Nat}, (s.tokens x).phase ≠ .live → x ≠ t :=
        fun hp hx => hp (hx ▸ ht)
      cases hm with
      | begin x b coro _ _ hp => exact key (hother (by simp [hp]))
      | read x hp => exact key (hother (by simp [hp]))
      | throws x hp => exact key (hother (by simp [hp]))
      | checked x hp => exact key (hother (by simp [hp]))
      | add x hp => exact key (hother (by simp [hp]))
      | remove x => exact key fun hx => he (by rw [hx])
      | release x hp => exact key (hother (by simp [hp]))
    · rw [(hm.flag t).1 hne (by simp [ht])]
      exact hf
  | sub hm =>
    have hf := hm.frame
    exact ⟨hf.phase t ▸ ht, hf.body t, fun h => hf.cancelled t ▸ h⟩
  | call k _ hm =>
    have hf := hm.frame
    exact ⟨hf.tokenPhase t ▸ ht, hf.tokenBody t, hf.flag t⟩

theorem source_cancelled_step (hst : Cancel.step s e = some s') (hi : Inv s) {b : Nat}
    (h : (s.bodies b).cancelled = true) : (s'.bodies b).cancelled = true := by
  cases step_move hst with
  | source hm => rw [(hm.frame hi.born.body).cancelled]; exact h
  | token hm => rw [hm.frame.cancelled]; exact h
  | sub hm => rw [hm.frame.bodies]; exact h
  | call k _ hm => exact hm.frame.cancelled b h

/-- Only a call that comes to the token sets its flag. -/
theorem flag_set (hst : Cancel.step s e = some s') (ht : (s.tokens t).phase = .live)
    (hf : (s.tokens t).cancelled = false) (hf' : (s'.tokens t).cancelled = true) :
    ∃ k todo, e = .call k ∧ (s.calls k).pc = .tokens (t :: todo) := by
  have hkeep : (s'.tokens t).cancelled = (s.tokens t).cancelled → False := by
    intro he
    rw [he, hf] at hf'
    cases hf'
  cases step_move hst with
  | source hm => exact (hkeep (by cases hm <;> rfl)).elim
  | token hm => exact (hkeep ((hm.flag t).1 (by simp [ht]) (by simp [ht]))).elim
  | sub hm => exact (hkeep (hm.frame.cancelled t)).elim
  | call k he hm =>
    rcases hm.flag t with hsame | ⟨todo, hpc, -⟩
    · exact (hkeep hsame).elim
    · exact ⟨k, todo, he, hpc⟩

/-- A call has the token on its list, and has yet to come to it. -/
def Coming (s : Cancel.St) (t : Nat) : Prop := ∃ k, t ∈ (s.calls k).pc.untouched

theorem coming_of_not_late (h : late s t = false)
    (hc : (s.bodies (s.tokens t).body).cancelled = true) :
    (s.tokens t).cancelled = true ∨ Coming s t := by
  cases hf : (s.tokens t).cancelled with
  | true => exact .inl rfl
  | false =>
    simp only [late, hc, hf, Bool.not_false, Bool.and_self, Bool.true_and, Bool.not_eq_false',
      coming] at h
    split at h
    · cases h
    · rename_i k _
      exact .inr ⟨k, by simpa using h⟩

/-- A call comes to the tokens on its list, one by one. -/
theorem call_untouched {k b : Nat} (hm : CallMove s k b s')
    (h : t ∈ (s.calls k).pc.untouched) :
    (s'.tokens t).cancelled = true ∨ t ∈ (s'.calls k).pc.untouched := by
  have hnone : ∀ {pc : CancelPc}, (s.calls k).pc = pc → pc.untouched = [] → False := by
    rintro _ rfl hn
    rw [hn] at h
    cases h
  have key : ∀ {pc pc' : CancelPc}, (s.calls k).pc = pc → (s'.calls k).pc = pc' →
      pc'.untouched = pc.untouched → t ∈ (s'.calls k).pc.untouched := by
    rintro _ _ rfl rfl he
    rwa [he]
  cases hm with
  | token v todo hpc =>
    rw [hpc] at h
    rcases List.mem_cons.mp h with rfl | h
    · exact .inl (by simp)
    · refine .inr ?_
      show t ∈ ((s.goto k (.promise v todo)).calls k).pc.untouched
      rwa [goto_pc]
  | again hpc => exact (hnone hpc rfl).elim
  | enter hpc => exact (hnone hpc rfl).elim
  | tokensDone hpc => exact (hnone hpc rfl).elim
  | relatedDone hpc => exact (hnone hpc rfl).elim
  | skip v todo hpc => exact (hnone hpc rfl).elim
  | nestedDone v k' todo hpc => exact (hnone hpc rfl).elim
  | noPromise v todo hpc => exact .inr (key hpc (goto_pc ..) rfl)
  | promise v p todo hpc => exact .inr (key hpc (goto_pc ..) rfl)
  | tokenDone v todo hpc => exact .inr (key hpc (goto_pc ..) rfl)
  | run v w subs todo hpc => exact .inr (key hpc (goto_pc ..) rfl)
  | submit v w subs todo hpc => exact .inr (key hpc (goto_pc ..) rfl)

/-- A token of a cancelled source has its flag set, or will be come to. -/
theorem coming_step (hst : Cancel.step s e = some s') (hi : Inv s)
    (ht : (s.tokens t).phase = .live) (he : e ≠ .tokenRemove t)
    (h : (s.bodies (s.tokens t).body).cancelled = true → (s.tokens t).cancelled = true ∨ Coming s t)
    (hc : (s'.bodies (s'.tokens t).body).cancelled = true) :
    (s'.tokens t).cancelled = true ∨ Coming s' t := by
  have hs := token_stays hst ht he
  rw [hs.body] at hc
  by_cases hb : (s.bodies (s.tokens t).body).cancelled = true
  · rcases h hb with hf | ⟨k, hk⟩
    · exact .inl (hs.flag hf)
    · rcases hi.call_step hst k with hkept | hm
      · exact .inr ⟨k, hkept.untouched ▸ hk⟩
      · exact (call_untouched hm hk).imp_right fun hk => ⟨k, hk⟩
  · -- the step cancels the source, and the list of the call is all its tokens
    cases step_move hst with
    | source hm => exact absurd ((hm.frame hi.born.body).cancelled _ ▸ hc) hb
    | token hm => exact absurd (hm.frame.cancelled _ ▸ hc) hb
    | sub hm => exact absurd (hm.frame.bodies ▸ hc) hb
    | call k _ hm =>
      rcases hm.cancels (s.tokens t).body with hsame | ⟨-, -, hpc⟩
      · exact absurd (hsame ▸ hc) hb
      · refine .inr ⟨k, ?_⟩
        rw [hpc]
        exact (hi.registered.token _ t).mpr ⟨ht, rfl⟩

/-- A call is at the token, and has yet to run the callback. -/
def Will (s : Cancel.St) (t u : Nat) : Prop :=
  ∃ k, (s.calls k).pc.at? = some t ∧ u ∈ (s.calls k).pc.toRun (s.tokens t).callbacks

theorem toRun_mono {pc : CancelPc} {l l' : List Nat} (h : u ∈ pc.toRun l)
    (hl : u ∈ l → u ∈ l') : u ∈ pc.toRun l' := by
  cases pc <;> first | exact hl h | exact h

/-- A subscription of a token whose flag is set was run, or will be. -/
theorem will_step (hst : Cancel.step s e = some s') (hi : Inv s) (hb : builds u e = false)
    (ht : (s.tokens t).phase = .live) (he : e ≠ .tokenRemove t) (hu : (s.subs u).phase = .live)
    (hut : (s.subs u).token = t)
    (h : (s.tokens t).cancelled = true → 0 < (s.subs u).runs ∨ Will s t u)
    (hf : (s'.tokens t).cancelled = true) : 0 < (s'.subs u).runs ∨ Will s' t u := by
  obtain ⟨hphase, htoken⟩ := sub_frame hst hi hb
  have hmem : u ∈ (s'.tokens t).callbacks :=
    ((hi.move (step_move hst)).registered.sub t u).mpr ⟨hphase.trans hu, htoken.trans hut⟩
  cases hf0 : (s.tokens t).cancelled with
  | false =>
    obtain ⟨k, todo, rfl, hpc⟩ := flag_set hst ht hf0 hf
    have hpc' : (s'.calls k).pc = .promise t todo := by
      simp only [Cancel.step, callStep, hpc] at hst
      split at hst <;> cases hst
      simp [St.goto]
    exact .inr ⟨k, by rw [hpc']; rfl, by rw [hpc']; exact hmem⟩
  | true =>
    rcases h hf0 with hr | ⟨k, hk, hrun⟩
    · exact .inl (Nat.lt_of_lt_of_le hr (runs_le hi hst u))
    · rcases hi.call_step hst k with hkept | hm
      · refine .inr ⟨k, hkept.at?.trans hk, ?_⟩
        rw [hkept.toRun]
        exact toRun_mono hrun fun _ => hmem
      · rcases hm.list hk ((hi.current.lock t k).mpr hk) hrun with ⟨hl, hrun'⟩ | hr
        · have hi' := hi.move (step_move hst)
          exact .inr ⟨k, (hi'.current.lock t k).mp hl, toRun_mono hrun' fun _ => hmem⟩
        · exact .inl (by omega)

/-- A token keeps its source. -/
theorem token_body (hst : Cancel.step s e = some s') (ht : (s.tokens t).phase ≠ .unborn) :
    (s'.tokens t).phase ≠ .unborn ∧ (s'.tokens t).body = (s.tokens t).body := by
  cases step_move hst with
  | source hm => cases hm <;> exact ⟨ht, rfl⟩
  | token hm => exact ⟨(hm.kept ht).phase, (hm.kept ht).body⟩
  | sub hm => exact ⟨hm.frame.phase t ▸ ht, hm.frame.body t⟩
  | call k _ hm => exact ⟨hm.frame.tokenPhase t ▸ ht, hm.frame.tokenBody t⟩

/-- The steps of the subscription's own constructor and destructor. -/
theorem builds_move (hst : Cancel.step s e = some s') (hb : builds u e = true) :
    SubMove s e s' := by
  cases step_move hst with
  | source hm => cases hm <;> cases hb
  | token hm => cases hm <;> cases hb
  | sub hm => exact hm
  | call k he hm =>
    subst he
    cases hb

theorem begin_eq (hst : Cancel.step s (.subBegin u t) = some s') :
    s' = { s with
      tokens := update s.tokens t { s.tokens t with users := u :: (s.tokens t).users }
      subs := update s.subs u { phase := .begun, token := t } } := by
  cases builds_move hst (by simp [builds] : builds u _ = true)
  rfl

/-- `check_cancelled` does not throw while the flag is not set. -/
theorem check_eq (hst : Cancel.step s (.subCheck u) = some s')
    (hf : (s.tokens (s.subs u).token).cancelled = false) :
    s' = { s with subs := update s.subs u { s.subs u with phase := .checked } } := by
  cases builds_move hst (by simp [builds] : builds u _ = true) with
  | throws _ _ hc =>
    rw [hf] at hc
    cases hc
  | checked => rfl

theorem add_eq (hst : Cancel.step s (.subAdd u) = some s') :
    s' = { s with
      tokens := update s.tokens (s.subs u).token
        ((s.tokens (s.subs u).token).addSubscription u)
      subs := update s.subs u { s.subs u with phase := .live } } := by
  cases builds_move hst (by simp [builds] : builds u _ = true)
  rfl

theorem remove_eq (hst : Cancel.step s (.subRemove u) = some s') :
    s' = { s with
      tokens := update s.tokens (s.subs u).token
        ((s.tokens (s.subs u).token).removeSubscription u)
      subs := update s.subs u { s.subs u with phase := .removed } } := by
  cases builds_move hst (by simp [builds] : builds u _ = true)
  rfl

theorem done_eq (hst : Cancel.step s (.subDone u) = some s') :
    s' = { s with
      tokens := update s.tokens (s.subs u).token { s.tokens (s.subs u).token with
        users := (s.tokens (s.subs u).token).users.erase u }
      subs := update s.subs u { s.subs u with phase := .gone } } := by
  cases builds_move hst (by simp [builds] : builds u _ = true)
  rfl

end Base

/-! ## One step -/

/-- What one step does, with the branch that it takes. -/
inductive Turn (t u : Nat) (s : St) : Ev → St → Prop
  | base (e : Cancel.Ev) (base : Cancel.St) : allowed t u s e = true →
    Cancel.step s.base e = some base → Turn t u s (.base e) { s with base }
  | await : s.pc = .unborn → (s.base.tokens t).phase = .live →
    Turn t u s .await { s with pc := .ready }
  | skip : s.pc = .ready → (s.base.tokens t).cancelled = true →
    Turn t u s .awaitReady { s with pc := .returned, coro := .resumed }
  | suspend : s.pc = .ready → (s.base.tokens t).cancelled = false →
    Turn t u s .awaitReady { s with pc := .begin, coro := .suspended }
  | construct (base : Cancel.St) : s.pc = .begin →
    Cancel.step s.base (.subBegin u t) = some base →
    Turn t u s .construct { s with base, pc := .check }
  | terminate (base : Cancel.St) : s.pc = .check → Cancel.step s.base (.subCheck u) = some base →
    (base.subs u).phase = .threw → Turn t u s .check { s with base, terminated := true }
  | check (base : Cancel.St) : s.pc = .check → Cancel.step s.base (.subCheck u) = some base →
    Turn t u s .check { s with base, pc := .add }
  | add (base : Cancel.St) : s.pc = .add → Cancel.step s.base (.subAdd u) = some base →
    Turn t u s .add { s with base, pc := .engage }
  | engage : s.pc = .engage →
    Turn t u s .engage { s with
      pc := .returned, engaged := true, undefined := s.undefined || s.coro = .after }
  | submit : s.submitted < (s.base.subs u).invoked →
    Turn t u s .submit { s with submitted := s.submitted + 1, queued := s.queued + 1 }
  | resume : 0 < s.queued → s.coro = .suspended →
    Turn t u s .resume { s with queued := s.queued - 1, coro := .resumed }
  | stray : 0 < s.queued → s.coro ≠ .suspended →
    Turn t u s .resume { s with queued := s.queued - 1, undefined := true }
  | destroy (base : Cancel.St) : s.coro = .resumed → s.engaged = true →
    Cancel.step s.base (.subRemove u) = some base →
    Turn t u s .destroy { s with base, coro := .destroying }
  | drop : s.coro = .resumed → s.engaged = false → Turn t u s .destroy { s with coro := .after }
  | done (base : Cancel.St) : s.coro = .destroying → Cancel.step s.base (.subDone u) = some base →
    Turn t u s .done { s with base, coro := .after }

section Turns

variable {s s' : St} {e : Ev} {t u : Nat}

theorem lift_map {c : Cancel.Ev} {f : St → St} (h : (lift s c).map f = some s') :
    ∃ base, Cancel.step s.base c = some base ∧ s' = f { s with base } := by
  obtain ⟨s₁, hl, rfl⟩ := Option.map_eq_some_iff.mp h
  obtain ⟨base, hst, rfl⟩ := Option.map_eq_some_iff.mp hl
  exact ⟨base, hst, rfl⟩

theorem step_turn (h : step t u s e = some s') : Turn t u s e s' := by
  unfold step at h
  split at h
  · cases h
  · cases e with
    | base e =>
      simp only at h
      split at h
      · rename_i ha
        obtain ⟨base, hst, rfl⟩ := Option.map_eq_some_iff.mp h
        exact .base e base ha hst
      · cases h
    | await =>
      simp only at h
      split at h <;> cases h
      rename_i hg
      exact .await hg.1 hg.2
    | awaitReady =>
      simp only at h
      split at h
      · rename_i hp
        split at h <;> cases h
        · rename_i hc
          exact .skip hp hc
        · rename_i hc
          exact .suspend hp (by simpa [Token.isCancelled] using hc)
      · cases h
    | construct =>
      simp only at h
      split at h
      · rename_i hp
        obtain ⟨base, hst, rfl⟩ := lift_map h
        exact .construct base hp hst
      · cases h
    | check =>
      simp only at h
      split at h
      · rename_i hp
        obtain ⟨base, hst, hs'⟩ := lift_map h
        simp only at hs'
        split at hs' <;> subst hs'
        · rename_i hthrew
          exact .terminate base hp hst hthrew
        · exact .check base hp hst
      · cases h
    | add =>
      simp only at h
      split at h
      · rename_i hp
        obtain ⟨base, hst, rfl⟩ := lift_map h
        exact .add base hp hst
      · cases h
    | engage =>
      simp only at h
      split at h <;> cases h
      rename_i hp
      exact .engage hp
    | submit =>
      simp only at h
      split at h <;> cases h
      rename_i hp
      exact .submit hp
    | resume =>
      simp only at h
      split at h
      · rename_i hq
        split at h <;> cases h
        · rename_i hc
          exact .resume hq hc
        · rename_i hc
          exact .stray hq hc
      · cases h
    | destroy =>
      simp only at h
      split at h
      · rename_i hc
        split at h
        · rename_i he
          obtain ⟨base, hst, rfl⟩ := lift_map h
          exact .destroy base hc he hst
        · rename_i he
          cases h
          exact .drop hc (by simpa using he)
      · cases h
    | done =>
      simp only at h
      split at h
      · rename_i hc
        obtain ⟨base, hst, rfl⟩ := lift_map h
        exact .done base hc hst
      · cases h

/-- The token outlives the operation. -/
theorem allowed_remove {c : Cancel.Ev} (ha : allowed t u s c = true) (hp : s.pc ≠ .unborn)
    (hc : s.coro ≠ .after) : c ≠ .tokenRemove t := by
  rintro rfl
  simp [allowed, hp, hc] at ha

/-- A step is one of the cancellation system, or does not touch it. -/
theorem Turn.base_step (h : Turn t u s e s') : s'.base = s.base ∨ ∃ c,
    (s.pc ≠ .unborn → s.coro ≠ .after → c ≠ .tokenRemove t) ∧
      Cancel.step s.base c = some s'.base := by
  cases h with
  | base c base ha hst => exact .inr ⟨c, allowed_remove ha, hst⟩
  | construct base _ hst => exact .inr ⟨_, by simp, hst⟩
  | terminate base _ hst => exact .inr ⟨_, by simp, hst⟩
  | check base _ hst => exact .inr ⟨_, by simp, hst⟩
  | add base _ hst => exact .inr ⟨_, by simp, hst⟩
  | destroy base _ _ hst => exact .inr ⟨_, by simp, hst⟩
  | done base _ hst => exact .inr ⟨_, by simp, hst⟩
  | _ => exact .inl rfl

theorem reach_base (h : (sys t u).Reach s) : Cancel.sys.Reach s.base := by
  induction h with
  | init => exact .init
  | step e _ _ hst ih =>
    rcases (step_turn hst).base_step with hb | ⟨c, -, hc⟩
    · exact hb ▸ ih
    · exact .step c ih trivial hc

end Turns

/-! ## The invariant -/

/-- Where the `await_suspend`, the coroutine, the mark and the subscription can be together. -/
inductive Place : Pc → Coro → Bool → SubPhase → Prop
  | unborn : Place .unborn .running false .unborn
  | ready : Place .ready .running false .unborn
  /-- `await_ready` was true. -/
  | skipped : Place .returned .resumed false .unborn
  | skippedAfter : Place .returned .after false .unborn
  | begin : Place .begin .suspended false .unborn
  | check : Place .check .suspended false .begun
  | add : Place .add .suspended false .checked
  | engage : Place .engage .suspended false .live
  /-- The coroutine goes on before `await_suspend` has returned. -/
  | early : Place .engage .resumed false .live
  | parked : Place .returned .suspended true .live
  | resumed : Place .returned .resumed true .live
  | destroying : Place .returned .destroying true .removed
  | after : Place .returned .after true .gone

/-- The coroutine has not continued. -/
def Coro.waits : Coro → Bool
  | .running | .suspended => true
  | .resumed | .destroying | .after => false

section Places

variable {pc : Pc} {coro : Coro} {engaged : Bool} {phase : SubPhase}

theorem Place.of_live (h : Place pc coro engaged .live) : pc ≠ .unborn ∧ coro ≠ .after := by
  cases h <;> simp

theorem Place.of_window (h : Place pc coro engaged phase) (hw : pc.window = true) :
    pc ≠ .unborn ∧ coro ≠ .after := by
  cases h <;> simp [Pc.window] at hw ⊢

theorem Place.of_continued (h : Place pc coro engaged phase) (hc : coro.waits = false) :
    pc ≠ .unborn := by
  cases h <;> simp [Coro.waits] at hc ⊢

theorem Place.of_unborn (h : Place .unborn coro engaged phase) :
    coro = .running ∧ engaged = false ∧ phase = .unborn := by
  cases h; simp

theorem Place.of_ready (h : Place .ready coro engaged phase) :
    coro = .running ∧ engaged = false ∧ phase = .unborn := by
  cases h; simp

theorem Place.of_begin (h : Place .begin coro engaged phase) :
    coro = .suspended ∧ engaged = false ∧ phase = .unborn := by
  cases h; simp

theorem Place.of_check (h : Place .check coro engaged phase) :
    coro = .suspended ∧ engaged = false ∧ phase = .begun := by
  cases h; simp

theorem Place.of_add (h : Place .add coro engaged phase) :
    coro = .suspended ∧ engaged = false ∧ phase = .checked := by
  cases h; simp

theorem Place.of_engage (h : Place .engage coro engaged phase) :
    (coro = .suspended ∨ coro = .resumed) ∧ engaged = false ∧ phase = .live := by
  cases h <;> simp

theorem Place.of_resumed (h : Place pc .resumed engaged phase) :
    (pc = .returned ∧ engaged = false ∧ phase = .unborn) ∨
    (pc = .engage ∧ engaged = false ∧ phase = .live) ∨
    (pc = .returned ∧ engaged = true ∧ phase = .live) := by
  cases h <;> simp

theorem Place.of_destroying (h : Place pc .destroying engaged phase) :
    pc = .returned ∧ engaged = true ∧ phase = .removed := by
  cases h; simp

theorem Place.of_returned (h : Place .returned coro engaged phase) (hw : coro.waits = true) :
    coro = .suspended ∧ phase = .live := by
  cases h <;> simp [Coro.waits] at hw ⊢

theorem Place.of_running (h : Place pc .running engaged phase) : phase = .unborn := by
  cases h <;> rfl

/-- The coroutine is resumed from a subscription that is on the list. -/
theorem Place.of_suspended (h : Place pc .suspended engaged phase) :
    phase.early = true ∨ (phase = .live ∧ Place pc .resumed engaged .live) := by
  cases h <;> simp [SubPhase.early] <;> constructor

end Places

/-- What the rest of the system relies on. -/
structure Sound (s : Cancel.St) : Prop where
  inv : Inv s
  untouched : Untouched s
  users : Users s
  runs : Runs s
  staged : Staged s
  settled : Settled s

theorem reach_sound {s : Cancel.St} (h : Cancel.sys.Reach s) : Sound s :=
  ⟨reach_inv h, reach_untouched h, reach_users h, reach_runs h, reach_staged h, reach_settled h⟩

/-- The invariant (module doc). -/
structure Fits (t u : Nat) (s : St × List (Unit × Unit)) : Prop where
  alive : s.1.terminated = false
  defined : s.1.undefined = false
  place : Place s.1.pc s.1.coro s.1.engaged (s.1.base.subs u).phase
  token : (s.1.base.subs u).phase ≠ .unborn → (s.1.base.subs u).token = t
  born : s.1.pc ≠ .unborn → (s.1.base.tokens t).phase ≠ .unborn
  live : s.1.pc ≠ .unborn → s.1.coro ≠ .after → (s.1.base.tokens t).phase = .live
  window : s.1.pc.window = true → (s.1.base.tokens t).cancelled = false
  will : (s.1.base.subs u).phase = .live → (s.1.base.tokens t).cancelled = true →
    0 < (s.1.base.subs u).runs ∨ Will s.1.base t u
  submitted_le : s.1.submitted ≤ (s.1.base.subs u).invoked
  invoked_le : (s.1.base.subs u).invoked ≤ s.1.submitted + (s.1.base.subs u).running
  queued : s.1.queued = if s.1.coro = .suspended then s.1.submitted else 0
  told : s.1.coro.waits = false → (s.1.base.subs u).phase = .unborn ∨ s.1.submitted = 1
  length : s.2.length = if s.1.coro.waits then 0 else 1
  cancelled : s.1.coro.waits = false → SourceCancelled t s.1

section Invariant

variable {s s' : St} {l : List (Unit × Unit)} {e : Ev} {t u : Nat}

theorem Fits.init : Fits t u (({} : St), []) := by
  constructor <;> simp [Pc.window, Coro.waits]
  exact .unborn

/-- A subscription in its constructor has not run. -/
theorem Sound.fresh {c : Cancel.St} (h : Sound c) (hp : (c.subs u).phase.early = true) :
    (c.subs u).invoked = 0 := by
  obtain ⟨g, hg⟩ := h.staged u
  have := hg.before_of_runs (h.settled.early u hp)
  subst this
  exact hg.invoked

theorem Sound.invoked_le_one {c : Cancel.St} (h : Sound c) : (c.subs u).invoked ≤ 1 := by
  obtain ⟨g, hg⟩ := h.staged u
  rw [hg.invoked]
  cases g <;> simp [Stage.counts]

theorem Sound.runs_of_invoked {c : Cancel.St} (h : Sound c) (hu : 0 < (c.subs u).invoked) :
    0 < (c.subs u).runs := by
  obtain ⟨g, hg⟩ := h.staged u
  rw [hg.invoked] at hu
  rw [hg.runs]
  cases g <;> simp [Stage.counts] at hu ⊢

/-- The flag of a live token is set by a call that cancels its source. -/
theorem Sound.source_cancelled {c : Cancel.St} (h : Sound c) (ht : (c.tokens t).phase = .live)
    (hf : (c.tokens t).cancelled = true) : (c.bodies (c.tokens t).body).cancelled = true := by
  by_contra hn
  rw [h.untouched.live t ht (by simpa using hn)] at hf
  cases hf

/-- A step of the others. -/
theorem Fits.base (h : Fits t u (s, l)) (hb : Sound s.base) {c : Cancel.Ev} {base : Cancel.St}
    (hmet : met t s (.base c) = true) (ha : allowed t u s c = true)
    (hst : Cancel.step s.base c = some base) : Fits t u ({ s with base }, l) := by
  have hi := hb.inv
  have hremove := allowed_remove ha
  simp only [allowed, Bool.and_eq_true, Bool.not_eq_true'] at ha
  obtain ⟨hbuilds, ha⟩ := ha
  obtain ⟨hphase, htoken⟩ := sub_frame hst hi hbuilds
  have hbody : s.pc ≠ .unborn →
      (base.tokens t).phase ≠ .unborn ∧ (base.tokens t).body = (s.base.tokens t).body :=
    fun hp => token_body hst (h.born hp)
  have hstay : s.pc ≠ .unborn → s.coro ≠ .after → Stays s.base base t := fun hp hc =>
    token_stays hst (h.live hp hc) (hremove hp hc)
  have hcounts : s.submitted ≤ (base.subs u).invoked ∧
      (base.subs u).invoked ≤ s.submitted + (base.subs u).running := by
    have hle : s.submitted ≤ (s.base.subs u).invoked := h.submitted_le
    have hge : (s.base.subs u).invoked ≤ s.submitted + (s.base.subs u).running := h.invoked_le
    by_cases hcb : c = .callback u
    · subst hcb
      obtain ⟨-, hr, hi⟩ := callback_counts hst
      omega
    · by_cases hco : c = .complete u
      · subst hco
        obtain ⟨hr, hi⟩ := complete_counts hst
        have : (s.base.subs u).invoked < s.submitted + (s.base.subs u).running := by
          simpa using ha
        omega
      · obtain ⟨hr, hi⟩ := sub_counts hst hi hbuilds hcb hco
        omega
  refine ⟨h.alive, h.defined, ?_, ?_, fun hp => (hbody hp).1, fun hp hc => (hstay hp hc).phase,
    fun hw => ?_, fun hl hf => ?_, hcounts.1, hcounts.2, h.queued, fun hc => ?_, h.length,
    fun hc => ?_⟩
  · show Place s.pc s.coro s.engaged (base.subs u).phase
    rw [hphase]
    exact h.place
  · show (base.subs u).phase ≠ .unborn → (base.subs u).token = t
    rw [hphase, htoken]
    exact h.token
  · -- a call that comes to the token does so elsewhere
    have hf : (s.base.tokens t).cancelled = false := h.window hw
    obtain ⟨hp, hc⟩ := h.place.of_window hw
    have hlive : (s.base.tokens t).phase = .live := h.live hp hc
    by_contra hf'
    obtain ⟨k, todo, rfl, hpc⟩ := flag_set hst hlive hf (by simpa using hf')
    have hw : s.pc.window = true := hw
    simp [met, hpc, hw] at hmet
  · have hl : (s.base.subs u).phase = .live := hphase ▸ hl
    have hplace : Place s.pc s.coro s.engaged .live := hl ▸ h.place
    obtain ⟨hp, hc⟩ := hplace.of_live
    exact will_step hst hi hbuilds (h.live hp hc) (hremove hp hc) hl (h.token (by simp [hl]))
      (h.will hl) hf
  · show (base.subs u).phase = .unborn ∨ s.submitted = 1
    rw [hphase]
    exact h.told hc
  · have hp : s.pc ≠ .unborn := h.place.of_continued hc
    show (base.bodies (base.tokens t).body).cancelled = true
    rw [(hbody hp).2]
    exact source_cancelled_step hst hi (h.cancelled hc)

/-- The `co_await` starts. -/
theorem Fits.start (h : Fits t u (s, l)) (hp : s.pc = .unborn)
    (ht : (s.base.tokens t).phase = .live) : Fits t u ({ s with pc := .ready }, l) := by
  obtain ⟨h1, h2, h3, h4, h5, h6, h7, h8, h9, h10, h11, h12, h13, h14⟩ := h
  simp only [hp] at h3
  obtain ⟨hc, he, hph⟩ := h3.of_unborn
  refine ⟨h1, h2, ?_, h4, fun _ => by simp [ht], fun _ _ => ht, by simp [Pc.window],
    h8, h9, h10, h11, h12, h13, h14⟩
  rw [hc, he, hph]
  exact .ready

/-- `await_ready`. -/
theorem Fits.awaitReady (h : Fits t u (s, l)) (hb : Sound s.base)
    (ht : Turn t u s .awaitReady s') : Fits t u (s', l ++ note t s .awaitReady) := by
  obtain ⟨h1, h2, h3, h4, h5, h6, h7, h8, h9, h10, h11, h12, h13, h14⟩ := h
  simp only at h1 h2 h3 h4 h5 h6 h7 h8 h9 h10 h11 h12 h13 h14
  have hp : s.pc = .ready := by cases ht <;> assumption
  rw [hp] at h3
  obtain ⟨hc, he, hph⟩ := h3.of_ready
  have hlive : (s.base.tokens t).phase = .live := h6 (by simp [hp]) (by simp [hc])
  have hi : (s.base.subs u).invoked = 0 := hb.fresh (by rw [hph]; rfl)
  have hl : l = [] := by
    rw [hc] at h13
    exact List.length_eq_zero_iff.mp h13
  have hq : s.queued = 0 := by simpa [hc] using h11
  have hsub : s.submitted = 0 := by omega
  cases ht with
  | skip _ hf =>
    refine ⟨h1, h2, ?_, h4, fun _ => by simp [hlive], fun _ _ => hlive, by simp [Pc.window],
      h8, h9, h10, by simpa using hq,
      fun _ => .inl hph, ?_, fun _ => hb.source_cancelled hlive hf⟩
    · show Place .returned .resumed s.engaged (s.base.subs u).phase
      rw [he, hph]
      exact .skipped
    · simp [hl, note, Token.isCancelled, hf, Coro.waits]
  | suspend _ hf =>
    refine ⟨h1, h2, ?_, h4, fun _ => by simp [hlive], fun _ _ => hlive, fun _ => hf,
      h8, h9, h10, ?_,
      fun hw => by simp [Coro.waits] at hw, ?_, fun hw => by simp [Coro.waits] at hw⟩
    · show Place .begin .suspended s.engaged (s.base.subs u).phase
      rw [he, hph]
      exact .begin
    · simp [hq, hsub]
    · simp [hl, note, Token.isCancelled, hf, Coro.waits]

/-- The steps of the constructor, up to `add`, while the flag is not set. -/
theorem Fits.construct (h : Fits t u (s, l)) (hb : Sound s.base) {base : Cancel.St}
    (hp : s.pc = .begin) (hst : Cancel.step s.base (.subBegin u t) = some base) :
    Fits t u ({ s with base, pc := .check }, l) := by
  obtain ⟨h1, h2, h3, h4, h5, h6, h7, h8, h9, h10, h11, h12, h13, h14⟩ := h
  simp only at h1 h2 h3 h4 h5 h6 h7 h8 h9 h10 h11 h12 h13 h14
  rw [hp] at h3
  obtain ⟨hc, he, hph⟩ := h3.of_begin
  have hi : (s.base.subs u).invoked = 0 := hb.fresh (by rw [hph]; rfl)
  have hf := h7 (by simp [hp, Pc.window])
  have hlive := h6 (by simp [hp]) (by simp [hc])
  rw [begin_eq hst]
  refine ⟨h1, h2, ?_, fun _ => by simp, fun _ => by simp [hlive], fun _ _ => by simp [hlive],
    fun _ => by simp [hf], fun hl => by simp at hl, by simp; omega, by simp,
    h11, fun hw => by simp [hc, Coro.waits] at hw, h13,
    fun hw => by simp [hc, Coro.waits] at hw⟩
  show Place .check s.coro s.engaged _
  simp only [hc, he, update_self]
  exact .check

theorem Fits.check (h : Fits t u (s, l)) {base : Cancel.St}
    (hp : s.pc = .check) (hst : Cancel.step s.base (.subCheck u) = some base) :
    (base.subs u).phase ≠ .threw ∧ Fits t u ({ s with base, pc := .add }, l) := by
  obtain ⟨h1, h2, h3, h4, h5, h6, h7, h8, h9, h10, h11, h12, h13, h14⟩ := h
  simp only at h1 h2 h3 h4 h5 h6 h7 h8 h9 h10 h11 h12 h13 h14
  rw [hp] at h3
  obtain ⟨hc, he, hph⟩ := h3.of_check
  have ht := h4 (by simp [hph])
  have hf := h7 (by simp [hp, Pc.window])
  rw [check_eq hst (by rw [ht]; exact hf)]
  refine ⟨by simp, h1, h2, ?_, fun _ => by simpa using ht, fun _ => h5 (by simp [hp]),
    fun _ _ => h6 (by simp [hp]) (by simp [hc]), fun _ => hf,
    fun hl => by simp at hl, by simpa using h9, by simpa using h10, h11,
    fun hw => by simp [hc, Coro.waits] at hw, h13, fun hw => by simp [hc, Coro.waits] at hw⟩
  show Place .add s.coro s.engaged _
  simp only [hc, he, update_self]
  exact .add

theorem Fits.add (h : Fits t u (s, l)) {base : Cancel.St} (hp : s.pc = .add)
    (hst : Cancel.step s.base (.subAdd u) = some base) :
    Fits t u ({ s with base, pc := .engage }, l) := by
  obtain ⟨h1, h2, h3, h4, h5, h6, h7, h8, h9, h10, h11, h12, h13, h14⟩ := h
  simp only at h1 h2 h3 h4 h5 h6 h7 h8 h9 h10 h11 h12 h13 h14
  rw [hp] at h3
  obtain ⟨hc, he, hph⟩ := h3.of_add
  have ht := h4 (by simp [hph])
  have hf := h7 (by simp [hp, Pc.window])
  have hlive := h6 (by simp [hp]) (by simp [hc])
  have hbase := add_eq hst
  rw [ht] at hbase
  subst hbase
  refine ⟨h1, h2, ?_, fun _ => by simpa using ht, fun _ => by simp [Token.addSubscription, hlive],
    fun _ _ => by simp [Token.addSubscription, hlive], fun hw => by simp [Pc.window] at hw,
    fun _ hfl => ?_, by simpa using h9, by simpa using h10, h11,
    fun hw => by simp [hc, Coro.waits] at hw, h13, fun hw => by simp [hc, Coro.waits] at hw⟩
  · show Place .engage s.coro s.engaged _
    simp only [hc, he, update_self]
    exact .engage
  · simp [Token.addSubscription, hf] at hfl

theorem Fits.engage (h : Fits t u (s, l)) (hp : s.pc = .engage) : Fits t u ({ s with
    pc := .returned, engaged := true, undefined := s.undefined || s.coro = .after }, l) := by
  obtain ⟨h1, h2, h3, h4, h5, h6, h7, h8, h9, h10, h11, h12, h13, h14⟩ := h
  simp only at h1 h2 h3 h4 h5 h6 h7 h8 h9 h10 h11 h12 h13 h14
  rw [hp] at h3
  obtain ⟨hc, he, hph⟩ := h3.of_engage
  refine ⟨h1, ?_, ?_, h4, fun _ => h5 (by simp [hp]), fun _ => h6 (by simp [hp]),
    fun hw => by simp [Pc.window] at hw, h8, h9, h10, h11, h12, h13, h14⟩
  · rcases hc with hc | hc <;> simp [h2, hc]
  · show Place .returned s.coro true (s.base.subs u).phase
    rw [hph]
    rcases hc with hc | hc <;> rw [hc]
    · exact .parked
    · exact .resumed

/-- The coroutine is submitted once, and while it is suspended. -/
theorem Fits.submit (h : Fits t u (s, l)) (hb : Sound s.base)
    (hi : s.submitted < (s.base.subs u).invoked) :
    Fits t u ({ s with submitted := s.submitted + 1, queued := s.queued + 1 }, l) := by
  obtain ⟨h1, h2, h3, h4, h5, h6, h7, h8, h9, h10, h11, h12, h13, h14⟩ := h
  simp only at h1 h2 h3 h4 h5 h6 h7 h8 h9 h10 h11 h12 h13 h14
  have hone : (s.base.subs u).invoked ≤ 1 := hb.invoked_le_one
  have hborn : (s.base.subs u).phase ≠ .unborn := by
    intro hp
    have : (s.base.subs u).invoked = 0 := hb.fresh (by rw [hp]; rfl)
    omega
  have hc : s.coro = .suspended := by
    cases hw : s.coro.waits with
    | false =>
      rcases h12 hw with hp | hs
      · exact absurd hp hborn
      · omega
    | true =>
      cases hc : s.coro with
      | suspended => rfl
      | running =>
        rw [hc] at h3
        exact absurd h3.of_running hborn
      | _ => simp [hc, Coro.waits] at hw
  refine ⟨h1, h2, h3, h4, h5, h6, h7, h8, hi, ?_, ?_, fun hw => by simp [hc, Coro.waits] at hw,
    h13, h14⟩
  · show (s.base.subs u).invoked ≤ s.submitted + 1 + (s.base.subs u).running
    omega
  · show s.queued + 1 = if s.coro = .suspended then s.submitted + 1 else 0
    rw [if_pos hc, h11, if_pos hc]

theorem Fits.resume (h : Fits t u (s, l)) (hb : Sound s.base) (hq : 0 < s.queued)
    (hc : s.coro = .suspended) :
    Fits t u ({ s with queued := s.queued - 1, coro := .resumed }, l ++ [((), ())]) := by
  obtain ⟨h1, h2, h3, h4, h5, h6, h7, h8, h9, h10, h11, h12, h13, h14⟩ := h
  simp only at h1 h2 h3 h4 h5 h6 h7 h8 h9 h10 h11 h12 h13 h14
  rw [hc, if_pos rfl] at h11
  have hone : (s.base.subs u).invoked ≤ 1 := hb.invoked_le_one
  have hs : s.submitted = 1 := by omega
  rw [hc] at h3
  obtain hearly | ⟨hph, hplace⟩ := h3.of_suspended
  · have : (s.base.subs u).invoked = 0 := hb.fresh hearly
    omega
  have hp : s.pc ≠ .unborn := hplace.of_live.1
  have hlive := h6 hp (by simp [hc])
  refine ⟨h1, h2, ?_, h4, fun _ => h5 hp, fun _ _ => hlive, ?_,
    h8, h9, h10, ?_, fun _ => .inr hs, ?_, fun _ => ?_⟩
  · show Place s.pc .resumed s.engaged (s.base.subs u).phase
    rw [hph]
    exact hplace
  · exact h7
  · show s.queued - 1 = _
    rw [if_neg (by simp)]
    omega
  · rw [hc] at h13
    simp [List.length_eq_zero_iff.mp h13, Coro.waits]
  · -- the callback runs after the flag is set
    have hruns := hb.runs_of_invoked (u := u) (by omega)
    refine hb.source_cancelled hlive ?_
    by_contra hf
    have := hb.runs.fresh u (by rw [h4 (by simp [hph])]; simpa using hf)
    omega

theorem Fits.destroy (h : Fits t u (s, l)) {base : Cancel.St} (hc : s.coro = .resumed)
    (he : s.engaged = true) (hst : Cancel.step s.base (.subRemove u) = some base) :
    Fits t u ({ s with base, coro := .destroying }, l) := by
  obtain ⟨h1, h2, h3, h4, h5, h6, h7, h8, h9, h10, h11, h12, h13, h14⟩ := h
  simp only at h1 h2 h3 h4 h5 h6 h7 h8 h9 h10 h11 h12 h13 h14
  rw [hc, he] at h3
  obtain ⟨hp, hph⟩ : s.pc = .returned ∧ (s.base.subs u).phase = .live := by
    rcases h3.of_resumed with ⟨-, he, -⟩ | ⟨-, he, -⟩ | ⟨hp, -, hph⟩
    · cases he
    · cases he
    · exact ⟨hp, hph⟩
  have ht := h4 (by simp [hph])
  have hlive := h6 (by simp [hp]) (by simp [hc])
  have hbase := remove_eq hst
  rw [ht] at hbase
  subst hbase
  have hw : s.coro.waits = false := by rw [hc]; rfl
  refine ⟨h1, h2, ?_, fun _ => by simpa using ht,
    fun _ => by simp [Token.removeSubscription, hlive],
    fun _ _ => by simp [Token.removeSubscription, hlive],
    fun hw => by simp [hp, Pc.window] at hw, fun hl => by simp at hl, by simpa using h9,
    by simpa using h10, ?_, fun _ => .inr ?_, ?_, fun _ => ?_⟩
  · show Place s.pc .destroying s.engaged _
    simp only [hp, he, update_self]
    exact .destroying
  · simpa [hc] using h11
  · rcases h12 hw with hu | hs
    · rw [hph] at hu
      cases hu
    · exact hs
  · simpa [hc, Coro.waits] using h13
  · simpa [SourceCancelled, Token.removeSubscription] using h14 hw

theorem Fits.drop (h : Fits t u (s, l)) (hmet : met t s .destroy = true) (hc : s.coro = .resumed)
    (he : s.engaged = false) : Fits t u ({ s with coro := .after }, l) := by
  obtain ⟨h1, h2, h3, h4, h5, h6, h7, h8, h9, h10, h11, h12, h13, h14⟩ := h
  simp only at h1 h2 h3 h4 h5 h6 h7 h8 h9 h10 h11 h12 h13 h14
  rw [hc, he] at h3
  obtain ⟨hp, hph⟩ : s.pc = .returned ∧ (s.base.subs u).phase = .unborn := by
    rcases h3.of_resumed with ⟨hp, -, hph⟩ | ⟨hp, -⟩ | ⟨-, he, -⟩
    · exact ⟨hp, hph⟩
    · simp [met, hp] at hmet
    · cases he
  have hw : s.coro.waits = false := by rw [hc]; rfl
  refine ⟨h1, h2, ?_, h4, h5, fun _ ha => absurd rfl ha, h7,
    h8, h9, h10, by simpa [hc] using h11,
    fun _ => .inl hph, by simpa [hc, Coro.waits] using h13, fun _ => h14 hw⟩
  show Place s.pc .after s.engaged (s.base.subs u).phase
  rw [hp, he, hph]
  exact .skippedAfter

theorem Fits.done (h : Fits t u (s, l)) {base : Cancel.St} (hc : s.coro = .destroying)
    (hst : Cancel.step s.base (.subDone u) = some base) :
    Fits t u ({ s with base, coro := .after }, l) := by
  obtain ⟨h1, h2, h3, h4, h5, h6, h7, h8, h9, h10, h11, h12, h13, h14⟩ := h
  simp only at h1 h2 h3 h4 h5 h6 h7 h8 h9 h10 h11 h12 h13 h14
  rw [hc] at h3
  obtain ⟨hp, he, hph⟩ := h3.of_destroying
  have ht := h4 (by simp [hph])
  have hlive := h6 (by simp [hp]) (by simp [hc])
  have hbase := done_eq hst
  rw [ht] at hbase
  subst hbase
  have hw : s.coro.waits = false := by rw [hc]; rfl
  refine ⟨h1, h2, ?_, fun _ => by simpa using ht, fun _ => by simp [hlive],
    fun _ ha => absurd rfl ha, fun hw => by simp [hp, Pc.window] at hw, fun hl => by simp at hl,
    by simpa using h9, by simpa using h10, by simpa [hc] using h11, fun _ => .inr ?_,
    by simpa [hc, Coro.waits] using h13, fun _ => ?_⟩
  · show Place s.pc .after s.engaged _
    simp only [hp, he, update_self]
    exact .after
  · rcases h12 hw with hu | hs
    · rw [hph] at hu
      cases hu
    · exact hs
  · simpa [SourceCancelled] using h14 hw

/-- Each step that meets the condition keeps the invariant, and so does the start of the
`co_await`. -/
theorem Fits.turn (h : Fits t u (s, l)) (hb : Sound s.base) (hmet : e ≠ .await → met t s e = true)
    (ht : Turn t u s e s') : Fits t u (s', l ++ note t s e) := by
  cases ht with
  | base c base ha hst => simpa [note] using h.base hb (hmet (by simp)) ha hst
  | await hp hlive => simpa [note] using h.start hp hlive
  | skip hp hf => exact h.awaitReady hb (.skip hp hf)
  | suspend hp hf => exact h.awaitReady hb (.suspend hp hf)
  | construct base hp hst => simpa [note] using h.construct hb hp hst
  | terminate base hp hst hthrew => exact absurd hthrew (h.check hp hst).1
  | check base hp hst => simpa [note] using (h.check hp hst).2
  | add base hp hst => simpa [note] using h.add hp hst
  | engage hp => simpa [note] using h.engage hp
  | submit hi => simpa [note] using h.submit hb hi
  | resume hq hc => exact h.resume hb hq hc
  | stray hq hc =>
    have := h.queued
    rw [if_neg hc] at this
    simp only at this
    omega
  | destroy base hc he hst => simpa [note] using h.destroy hc he hst
  | drop hc he => simpa [note] using h.drop (hmet (by simp)) hc he
  | done base hc hst => simpa [note] using h.done hc hst

theorem reach_fits {s : St × List (Unit × Unit)}
    (hs : (history t u).ReachBy (fun s e => met t s.1 e = true) s) : Fits t u s :=
  hs.logged_induction (I := fun s => Sound s.base) (fun _ h => reach_sound (reach_base h)) .init
    fun _ _ _ _ hb h hmet hst => h.turn hb (fun _ => hmet) (step_turn hst)

/-- The coroutine has not continued, and its source is cancelled. -/
structure Waits (t : Nat) (s : St) : Prop where
  started : s.pc ≠ .unborn
  waits : s.coro.waits = true
  source : SourceCancelled t s

/-- While the coroutine waits, the token has learned of the cancellation, or will. -/
def Comes (t : Nat) (s : St) : Prop :=
  Waits t s → (s.base.tokens t).cancelled = true ∨ Coming s.base t

theorem Waits.live (h : Waits t s) (hf : Fits t u (s, l)) :
    (s.base.tokens t).phase = .live ∧ s.coro ≠ .after := by
  have hc : s.coro ≠ .after := by
    intro hc
    have := h.waits
    rw [hc] at this
    cases this
  exact ⟨hf.live h.started hc, hc⟩

/-- Who waits after a step has waited before it, but for the source, or starts. -/
theorem Turn.waits (ht : Turn t u s e s') (hf : Fits t u (s, l)) (hp : s'.pc ≠ .unborn)
    (hw : s'.coro.waits = true) (he : e ≠ .await) : s.pc ≠ .unborn ∧ s.coro.waits = true := by
  cases ht with
  | await => exact absurd rfl he
  | suspend hready =>
    have hplace : Place .ready s.coro s.engaged (s.base.subs u).phase := hready ▸ hf.place
    rw [hready, hplace.of_ready.1]
    exact ⟨by simp, rfl⟩
  | construct base h => exact ⟨by simp [h], hw⟩
  | check base h => exact ⟨by simp [h], hw⟩
  | add base h => exact ⟨by simp [h], hw⟩
  | engage h => exact ⟨by simp [h], hw⟩
  | skip h => cases hw
  | resume => cases hw
  | destroy => cases hw
  | drop => cases hw
  | done => cases hw
  | _ => exact ⟨hp, hw⟩

theorem Comes.turn (h : Comes t s) (hf : Fits t u (s, l)) (hb : Sound s.base)
    (hmet : met t s e = true) (ht : Turn t u s e s') : Comes t s' := by
  rintro ⟨hp, hw, hc⟩
  by_cases he : e = .await
  · subst he
    cases ht with
    | await => exact coming_of_not_late (by simpa [met] using hmet) hc
  · obtain ⟨hp, hw⟩ := ht.waits hf hp hw he
    have hstep : SourceCancelled t s → (s.base.tokens t).cancelled = true ∨ Coming s.base t :=
      fun hc => h ⟨hp, hw, hc⟩
    rcases ht.base_step with hbase | ⟨c, hremove, hst⟩
    · unfold SourceCancelled at hc hstep
      rw [hbase] at hc ⊢
      exact hstep hc
    · have hne : s.coro ≠ .after := by
        intro hne
        rw [hne] at hw
        cases hw
      exact coming_step hst hb.inv (hf.live hp hne) (hremove hp hne) hstep hc

theorem reach_comes {s : St × List (Unit × Unit)}
    (hs : (history t u).ReachBy (fun s e => met t s.1 e = true) s) : Comes t s.1 := by
  refine hs.rec_on (I := fun s => Fits t u s ∧ Sound s.1.base) (J := fun s => Comes t s.1)
    (fun _ h => ⟨reach_fits h, reach_sound (reach_base h.base)⟩) (fun h => absurd rfl h.started) ?_
  intro s e s' hi h hmet hst
  exact h.turn hi.1 hi.2 hmet (step_turn (Sys.logged_step.mp hst).1)

theorem Fits.exact {s : St × List (Unit × Unit)} (h : Fits t u s) (hi : Inv s.1.base) :
    Exact t u s := by
  refine ⟨h.alive, h.defined, ?_, fun hl => ?_, fun hc hmem => ?_⟩
  · rw [h.length]
    split <;> omega
  · refine h.cancelled ?_
    by_contra hw
    have := h.length
    rw [if_pos (by simpa using hw)] at this
    exact hl (List.length_eq_zero_iff.mp this)
  · have hplace := h.place
    have hl := ((hi.registered.sub t u).mp hmem).1
    rw [hl] at hplace
    exact hplace.of_live.2 hc

end Invariant

end WaitCancelled

end Cancel

end Corsl
