import Mathlib.Algebra.Ring.Nat
import Corsl.Cancel.WaitCancelled

/-!
# Who awaits `wait_cancelled()` is resumed

Once the source is cancelled, the coroutine continues if the calls of `cancel`, the pool and the
`co_await` itself go on (`serves`): a measure becomes smaller. `callLeft` is what the call that
cancels the source has to do until it has run the callbacks of the last token on its list; `left` is
that, what the `await_suspend` has to do, and the steps from the callback to the coroutine.
-/

namespace Corsl

open Conc Function

namespace Cancel

namespace WaitCancelled

/-! ## The call that cancels the source -/

/-- What a call has to do for the tokens on its list. -/
def tokensLeft (s : Cancel.St) (todo : List Nat) : Nat :=
  (todo.map fun v => 2 * (s.tokens v).callbacks.length + 3).sum

/-- What a call has to do for its tokens and callbacks. -/
def callLeft (s : Cancel.St) : CancelPc → Nat
  | .tokens todo => tokensLeft s todo + 1
  | .promise v todo => tokensLeft s todo + 2 * (s.tokens v).callbacks.length + 3
  | .callbacks _ subs todo => tokensLeft s todo + 2 * subs.length + 2
  | .submit _ _ subs todo => tokensLeft s todo + 2 * subs.length + 3
  | .unborn | .enter | .related _ | .nested _ _ _ | .done => 0

/-- The call goes through its tokens. -/
def tells : CancelPc → Bool
  | .tokens _ | .promise _ _ | .callbacks _ _ _ | .submit _ _ _ _ => true
  | .unborn | .enter | .related _ | .nested _ _ _ | .done => false

/-- What the call that cancels the source of token `t` has to do. -/
def sourceLeft (s : Cancel.St) (t : Nat) : Nat :=
  match (s.bodies (s.tokens t).body).lock with
  | none => 0
  | some k => callLeft s (s.calls k).pc

section Calls

variable {s s' : Cancel.St} {k t : Nat}

theorem tokensLeft_congr (h : ∀ v, (s'.tokens v).callbacks = (s.tokens v).callbacks)
    (todo : List Nat) : tokensLeft s' todo = tokensLeft s todo := by
  unfold tokensLeft
  simp only [h]

theorem callLeft_congr (h : ∀ v, (s'.tokens v).callbacks = (s.tokens v).callbacks)
    (pc : CancelPc) : callLeft s' pc = callLeft s pc := by
  cases pc <;> simp only [callLeft, tokensLeft_congr h, h]

/-- The lock of the next token is free: its holder would hold the lock of the source. -/
theorem next_free (hi : Inv s) {v : Nat} {todo : List Nat}
    (hpc : (s.calls k).pc = .tokens (v :: todo)) : (s.tokens v).lock = none := by
  cases hl : (s.tokens v).lock with
  | none => rfl
  | some k' =>
    have hat := (hi.current.lock v k').mp hl
    have hv := ((hi.registered.token _ v).mp (hi.current.tokenAt k' v hat)).2
    have hv' := ((hi.registered.token _ v).mp
      (hi.current.tokens k v (by simp [hpc, CancelPc.tokensTodo]))).2
    have hk' := (hi.locks.holder _ k').mpr ⟨rfl, by
      cases hp : (s.calls k').pc <;> simp_all [CancelPc.at?, CancelPc.holds]⟩
    have hk := (hi.locks.holder _ k).mpr ⟨rfl, by simp [hpc, CancelPc.holds]⟩
    rw [← hv, hv', hk] at hk'
    rw [← Option.some.inj hk', hpc] at hat
    cases hat

/-- A call that goes through its tokens goes on. -/
theorem tells_enabled (hi : Inv s) (hk : tells (s.calls k).pc = true) :
    ∃ s', Cancel.step s (.call k) = some s' := by
  refine Option.isSome_iff_exists.mp ?_
  cases hpc : (s.calls k).pc with
  | tokens todo =>
    cases todo with
    | nil => simp [Cancel.step, callStep, hpc]
    | cons v todo => simp [Cancel.step, callStep, hpc, next_free hi hpc]
  | promise v todo =>
    simp only [Cancel.step, callStep, hpc]
    cases (s.tokens v).coro <;> rfl
  | callbacks v subs todo => cases subs <;> simp [Cancel.step, callStep, hpc]
  | submit v u subs todo => simp [Cancel.step, callStep, hpc]
  | _ =>
    rw [hpc] at hk
    cases hk

/-- It has less to do then. -/
theorem tells_less (hm : CallMove s k (s.calls k).body s') (hk : tells (s.calls k).pc = true) :
    s'.bodies = s.bodies ∧ callLeft s' (s'.calls k).pc < callLeft s (s.calls k).pc := by
  rw [callLeft_congr hm.frame.callbacks]
  cases hm with
  | again hpc => rw [hpc] at hk; cases hk
  | enter hpc => rw [hpc] at hk; cases hk
  | relatedDone hpc => rw [hpc] at hk; cases hk
  | skip c todo hpc => rw [hpc] at hk; cases hk
  | nestedDone c k' todo hpc => rw [hpc] at hk; cases hk
  | tokensDone hpc =>
    refine ⟨rfl, ?_⟩
    simp [St.goto, hpc, callLeft]
  | token v todo hpc =>
    refine ⟨rfl, ?_⟩
    simp [St.goto, hpc, callLeft, tokensLeft]
    omega
  | noPromise v todo hpc =>
    refine ⟨rfl, ?_⟩
    simp [St.goto, hpc, callLeft]
  | promise v p todo hpc =>
    refine ⟨rfl, ?_⟩
    simp [St.goto, hpc, callLeft]
  | tokenDone v todo hpc =>
    refine ⟨rfl, ?_⟩
    simp [St.goto, hpc, callLeft]
  | run v u subs todo hpc =>
    refine ⟨rfl, ?_⟩
    simp [St.goto, hpc, callLeft]
    omega
  | submit v u subs todo hpc =>
    refine ⟨rfl, ?_⟩
    simp [St.goto, hpc, callLeft]

theorem holds_of_tells {pc : CancelPc} (h : tells pc = true) : pc.holds = true := by
  cases pc <;> first | rfl | cases h

theorem tells_of_untouched {pc : CancelPc} (h : t ∈ pc.untouched) : tells pc = true := by
  cases pc <;> first | rfl | cases h

theorem tells_of_at {pc : CancelPc} (h : pc.at? = some t) : tells pc = true := by
  cases pc <;> first | rfl | cases h

/-- The call that goes through the tokens of the source of `t` has less and less to do. -/
theorem source_step (hi : Inv s) (hk : tells (s.calls k).pc = true)
    (hb : (s.calls k).body = (s.tokens t).body) :
    ∃ s', Cancel.step s (.call k) = some s' ∧ sourceLeft s' t < sourceLeft s t := by
  obtain ⟨s', hst⟩ := tells_enabled hi hk
  have hm : CallMove s k (s.calls k).body s' := callStep_move hst
  obtain ⟨hbodies, hless⟩ := tells_less hm hk
  have hl : (s.bodies (s.tokens t).body).lock = some k :=
    (hi.locks.holder _ k).mpr ⟨hb, holds_of_tells hk⟩
  refine ⟨s', hst, ?_⟩
  simp only [sourceLeft, hm.frame.tokenBody, hbodies, hl]
  exact hless

theorem sourceLeft_congr (hb : s'.bodies = s.bodies) (hc : s'.calls = s.calls)
    (ht : (s'.tokens t).body = (s.tokens t).body)
    (hcb : ∀ v, (s'.tokens v).callbacks = (s.tokens v).callbacks) :
    sourceLeft s' t = sourceLeft s t := by
  simp only [sourceLeft, hb, hc, ht, callLeft_congr hcb]

/-- One more callback of a token that is on the list. -/
theorem tokensLeft_add (hne : ∀ v, v ≠ t → (s'.tokens v).callbacks = (s.tokens v).callbacks)
    (hself : (s'.tokens t).callbacks.length = (s.tokens t).callbacks.length + 1)
    {todo : List Nat} (hn : todo.Nodup) : tokensLeft s' todo ≤ tokensLeft s todo + 2 := by
  induction todo with
  | nil => simp [tokensLeft]
  | cons v todo ih =>
    obtain ⟨hv, hn⟩ := List.nodup_cons.mp hn
    by_cases hvt : v = t
    · subst hvt
      have hrest : tokensLeft s' todo = tokensLeft s todo := by
        unfold tokensLeft
        refine congrArg List.sum (List.map_congr_left fun w hw => ?_)
        rw [hne w fun he => hv (he ▸ hw)]
      simp only [tokensLeft, List.map_cons, List.sum_cons, hself] at hrest ⊢
      omega
    · have := ih hn
      simp only [tokensLeft, List.map_cons, List.sum_cons, hne v hvt] at this ⊢
      omega

theorem sourceLeft_add (hi : Inv s) (hu : Untouched s) (hb : s'.bodies = s.bodies)
    (hc : s'.calls = s.calls) (ht : (s'.tokens t).body = (s.tokens t).body)
    (hne : ∀ v, v ≠ t → (s'.tokens v).callbacks = (s.tokens v).callbacks)
    (hself : (s'.tokens t).callbacks.length = (s.tokens t).callbacks.length + 1)
    (hf : (s.tokens t).cancelled = false) : sourceLeft s' t ≤ sourceLeft s t + 2 := by
  simp only [sourceLeft, hb, hc, ht]
  split
  · omega
  · rename_i k hl
    have key : ∀ todo, (s.calls k).pc.untouched = todo →
        tokensLeft s' todo ≤ tokensLeft s todo + 2 :=
      fun todo h => tokensLeft_add hne hself (h ▸ hu.nodup k)
    cases hpc : (s.calls k).pc with
    | tokens todo =>
      have := key todo (by rw [hpc]; rfl)
      simp only [callLeft]
      omega
    | promise v todo =>
      have := key todo (by rw [hpc]; rfl)
      -- the flag of the token that a call is at is set
      have hv : v ≠ t := by
        rintro rfl
        rw [hi.current.flag k v (by simp [hpc, CancelPc.at?])] at hf
        cases hf
      simp only [callLeft, hne v hv]
      omega
    | callbacks v subs todo =>
      have := key todo (by rw [hpc]; rfl)
      simp only [callLeft]
      omega
    | submit v u subs todo =>
      have := key todo (by rw [hpc]; rfl)
      simp only [callLeft]
      omega
    | _ => simp only [callLeft]; omega

end Calls

/-! ## The coroutine -/

/-- What the `co_await` has to do until `await_suspend` has returned. -/
def Pc.left : Pc → Nat
  | .ready => 9
  | .begin => 8
  | .check => 7
  | .add => 6
  | .engage => 1
  | .unborn | .returned => 0

/-- What the callback and the pool have to do until the coroutine continues. -/
def coroLeft (u : Nat) (s : St) : Nat :=
  if s.coro.waits then
    if 0 < s.submitted then 1 else if 0 < (s.base.subs u).running then 2 else 3
  else 0

/-- What is left to do until the coroutine continues. -/
def left (t u : Nat) (s : St) : Nat := s.pc.left + sourceLeft s.base t + coroLeft u s

/-- The steps that the coroutine waits for: those of its `co_await`, of the calls of `cancel`, and
of the `run()` of its subscription. -/
def serves (u : Nat) : Ev → Bool
  | .awaitReady | .construct | .check | .add | .engage | .submit | .resume => true
  | .base (.call _) => true
  | .base (.callback v) => v = u
  | _ => false

/-- A step of the `co_await` or of those that it waits for, which meets the condition, with less
left to do. -/
def Goes (t u : Nat) (s : St) : Prop :=
  ∃ e s', met t s e = true ∧ serves u e = true ∧ step t u s e = some s' ∧ left t u s' < left t u s

section Progress

variable {s s' : St} {l : List (Unit × Unit)} {e : Ev} {t u : Nat}

theorem coroLeft_congr (hw : s'.coro.waits = s.coro.waits) (hs : s'.submitted = s.submitted)
    (hr : (s'.base.subs u).running = (s.base.subs u).running) : coroLeft u s' = coroLeft u s := by
  simp only [coroLeft, hw, hs, hr]

theorem goes_ready (h : Fits t u (s, l)) (hp : s.pc = .ready) : Goes t u s := by
  have halive : s.terminated = false := h.alive
  have hplace : Place .ready s.coro s.engaged (s.base.subs u).phase := hp ▸ h.place
  have hc := hplace.of_ready.1
  cases hf : (s.base.tokens t).cancelled with
  | true =>
    refine ⟨.awaitReady, { s with pc := .returned, coro := .resumed }, rfl, rfl, ?_, ?_⟩
    · simp [step, halive, hp, Token.isCancelled, hf]
    · show 0 + sourceLeft s.base t + 0 < s.pc.left + sourceLeft s.base t + coroLeft u s
      simp only [hp, Pc.left]
      omega
  | false =>
    have hcoro : coroLeft u { s with pc := .begin, coro := .suspended } = coroLeft u s :=
      coroLeft_congr (by rw [hc]; rfl) rfl rfl
    refine ⟨.awaitReady, { s with pc := .begin, coro := .suspended }, rfl, rfl, ?_, ?_⟩
    · simp [step, halive, hp, Token.isCancelled, hf]
    · simp only [left, hcoro, hp, Pc.left]
      omega

/-- A step of the constructor. -/
theorem goes_build {base : Cancel.St} {pc : Pc} (hst : step t u s e = some { s with base, pc })
    (hmet : met t s e = true) (he : serves u e = true)
    (hrun : (base.subs u).running = (s.base.subs u).running)
    (hleft : pc.left + sourceLeft base t < s.pc.left + sourceLeft s.base t) : Goes t u s := by
  refine ⟨e, _, hmet, he, hst, ?_⟩
  have hcoro : coroLeft u { s with base, pc } = coroLeft u s := coroLeft_congr rfl rfl hrun
  simp only [left, hcoro]
  omega

theorem goes_begin (h : Fits t u (s, l)) (hb : Sound s.base) (hp : s.pc = .begin) :
    Goes t u s := by
  have halive : s.terminated = false := h.alive
  have hplace : Place .begin s.coro s.engaged (s.base.subs u).phase := hp ▸ h.place
  obtain ⟨hc, -, hph⟩ := hplace.of_begin
  have hlive : (s.base.tokens t).phase = .live := h.live (by simp [hp]) (by simp [hc])
  obtain ⟨base, hst⟩ : ∃ base, Cancel.step s.base (.subBegin u t) = some base := by
    simp [Cancel.step, sourceStep, tokenStep, subStep, hlive, hph]
  have hl : sourceLeft base t = sourceLeft s.base t := by
    rw [begin_eq hst]
    exact sourceLeft_congr rfl rfl (by simp) (update_proj Token.callbacks (by rfl))
  have hstep : step t u s .construct = some { s with base, pc := .check } := by
    simp [step, halive, hp, lift, hst]
  refine goes_build hstep rfl rfl ?_ ?_
  · rw [begin_eq hst, hb.inv.born.sub u hph]
    simp
  · rw [hl, hp]
    exact Nat.add_lt_add_right (by decide) _

theorem goes_check (h : Fits t u (s, l)) (hp : s.pc = .check) : Goes t u s := by
  have halive : s.terminated = false := h.alive
  have hplace : Place .check s.coro s.engaged (s.base.subs u).phase := hp ▸ h.place
  have hph := hplace.of_check.2.2
  have ht : (s.base.subs u).token = t := h.token (by simp [hph])
  have hf : (s.base.tokens t).cancelled = false := h.window (by simp [hp, Pc.window])
  obtain ⟨base, hst⟩ : ∃ base, Cancel.step s.base (.subCheck u) = some base := by
    simp [Cancel.step, sourceStep, tokenStep, subStep, hph, ht, Token.checkCancelled,
      Token.isCancelled, hf]
  have hbase := check_eq hst (by rw [ht]; exact hf)
  have hl : sourceLeft base t = sourceLeft s.base t := by
    rw [hbase]
    exact sourceLeft_congr rfl rfl rfl fun _ => rfl
  have hstep : step t u s .check = some { s with base, pc := .add } := by
    simp [step, halive, hp, lift, hst, hbase]
  refine goes_build hstep rfl rfl ?_ ?_
  · rw [hbase]
    simp
  · rw [hl, hp]
    exact Nat.add_lt_add_right (by decide) _

theorem goes_add (h : Fits t u (s, l)) (hb : Sound s.base) (hp : s.pc = .add) : Goes t u s := by
  have halive : s.terminated = false := h.alive
  have hplace : Place .add s.coro s.engaged (s.base.subs u).phase := hp ▸ h.place
  have hph := hplace.of_add.2.2
  have ht : (s.base.subs u).token = t := h.token (by simp [hph])
  have hf : (s.base.tokens t).cancelled = false := h.window (by simp [hp, Pc.window])
  -- a call that holds the token's lock has set its flag
  have hlock : (s.base.tokens t).lock = none := by
    by_contra hn
    obtain ⟨k, hk⟩ := Option.ne_none_iff_exists'.mp hn
    have := hb.inv.current.flag k t ((hb.inv.current.lock t k).mp hk)
    rw [hf] at this
    cases this
  obtain ⟨base, hst⟩ : ∃ base, Cancel.step s.base (.subAdd u) = some base := by
    simp [Cancel.step, sourceStep, tokenStep, subStep, hph, ht, hlock]
  have hbase := add_eq hst
  rw [ht] at hbase
  have hl : sourceLeft base t ≤ sourceLeft s.base t + 2 := by
    rw [hbase]
    refine sourceLeft_add hb.inv hb.untouched rfl rfl ?_ (fun v hv => ?_) ?_ hf
    · simp [Token.addSubscription]
    · simp [update_of_ne hv]
    · simp [Token.addSubscription]
  have hstep : step t u s .add = some { s with base, pc := .engage } := by
    simp [step, halive, hp, lift, hst]
  refine goes_build hstep rfl rfl ?_ ?_
  · rw [hbase]
    simp
  · simp only [hp, Pc.left]
    omega

theorem goes_engage (h : Fits t u (s, l)) (hp : s.pc = .engage) : Goes t u s := by
  have halive : s.terminated = false := h.alive
  refine ⟨.engage, { s with
    pc := .returned, engaged := true, undefined := s.undefined || s.coro = .after }, rfl, rfl,
    by simp [step, halive, hp], ?_⟩
  show 0 + sourceLeft s.base t + coroLeft u s < s.pc.left + sourceLeft s.base t + coroLeft u s
  simp only [hp, Pc.left]
  omega

/-- A step of the call that cancels the source. -/
theorem goes_call (h : Fits t u (s, l)) (hb : Sound s.base) (hp : s.pc = .returned) {k : Nat}
    (hk : tells (s.base.calls k).pc = true)
    (hbody : (s.base.calls k).body = (s.base.tokens t).body) : Goes t u s := by
  have halive : s.terminated = false := h.alive
  obtain ⟨base, hst, hless⟩ := source_step hb.inv hk hbody
  have hrun := (sub_counts (u := u) hst hb.inv rfl (by simp) (by simp)).1
  have hcoro : coroLeft u { s with base } = coroLeft u s := coroLeft_congr rfl rfl hrun
  refine ⟨.base (.call k), { s with base }, ?_, rfl, ?_, ?_⟩
  · simp only [met, hp, Pc.window]
    split <;> simp
  · simp [step, halive, allowed, builds, lift, hst]
  · simp only [left, hcoro]
    omega

/-- The call that is at the token goes on. -/
theorem goes_at (h : Fits t u (s, l)) (hb : Sound s.base) (hp : s.pc = .returned) {k : Nat}
    (hk : (s.base.calls k).pc.at? = some t) : Goes t u s := by
  have hmem := hb.inv.current.tokenAt k t hk
  exact goes_call h hb hp (tells_of_at hk) ((hb.inv.registered.token _ t).mp hmem).2.symm

/-- The pool calls `f`. -/
theorem goes_callback (h : Fits t u (s, l)) (hc : s.coro = .suspended) (hs : s.submitted = 0)
    (hpend : 0 < (s.base.subs u).pending) (hrun : (s.base.subs u).running = 0) :
    Goes t u s := by
  have halive : s.terminated = false := h.alive
  obtain ⟨base, hst, -⟩ := callback_step hpend
  have hr := (callback_counts hst).2.1
  have hl : sourceLeft base t = sourceLeft s.base t := by
    cases step_move hst with
    | source hm => cases hm
    | token hm => cases hm
    | sub hm =>
      have hf := hm.frame
      cases hm
      exact sourceLeft_congr rfl rfl rfl fun _ => rfl
    | call k he hm => cases he
  refine ⟨.base (.callback u), { s with base }, rfl, by simp [serves], ?_, ?_⟩
  · simp [step, halive, allowed, builds, lift, hst]
  · simp only [left, hl, coroLeft, hc, hs, hr, hrun]
    simp [Coro.waits]

/-- The `run()` of the subscription goes on, or the pool resumes the coroutine. -/
theorem goes_run (h : Fits t u (s, l)) (hb : Sound s.base) (hp : s.pc = .returned)
    (hc : s.coro = .suspended) (hl : (s.base.subs u).phase = .live)
    (hr : 0 < (s.base.subs u).runs) : Goes t u s := by
  have halive : s.terminated = false := h.alive
  have hq : s.queued = s.submitted := by
    have := h.queued
    rwa [if_pos hc] at this
  by_cases hsub : 0 < s.submitted
  · refine ⟨.resume, { s with queued := s.queued - 1, coro := .resumed }, rfl, rfl, ?_, ?_⟩
    · simp [step, halive, hq, hsub, hc]
    · simp only [left, coroLeft, hc, hsub]
      simp [Coro.waits]
  · have hs : s.submitted = 0 := by omega
    have hge : (s.base.subs u).invoked ≤ s.submitted + (s.base.subs u).running := h.invoked_le
    obtain ⟨g, hg⟩ := hb.staged u
    cases g with
    | before => exact absurd (Nat.lt_of_lt_of_eq hr hg.runs) (Nat.lt_irrefl 0)
    | submitting =>
      obtain ⟨k, hk⟩ := hg.submits.mpr rfl
      have hat := hb.inv.at_of_submits hk
      rw [h.token (by simp [hl])] at hat
      exact goes_at h hb hp hat
    | pending => exact goes_callback h hc hs (by simp [hg.pending, Stage.counts]) hg.running
    | running =>
      have hi : (s.base.subs u).invoked = 1 := hg.invoked
      have hrun : (s.base.subs u).running = 1 := hg.running
      refine ⟨.submit, { s with submitted := s.submitted + 1, queued := s.queued + 1 }, rfl, rfl,
        ?_, ?_⟩
      · simp [step, halive, hs, hi]
      · simp only [left, coroLeft, hc, hs, hrun]
        simp [Coro.waits]
    | finished =>
      have hi : (s.base.subs u).invoked = 1 := hg.invoked
      have hrun : (s.base.subs u).running = 0 := hg.running
      omega

/-- Until the coroutine continues, someone goes on. -/
theorem Fits.goes (h : Fits t u (s, l)) (hcomes : Comes t s) (hb : Sound s.base)
    (hwait : Waits t s) : Goes t u s := by
  cases hpc : s.pc with
  | unborn => exact absurd hpc hwait.started
  | ready => exact goes_ready h hpc
  | begin => exact goes_begin h hb hpc
  | check => exact goes_check h hpc
  | add => exact goes_add h hb hpc
  | engage => exact goes_engage h hpc
  | returned =>
    have hplace : Place .returned s.coro s.engaged (s.base.subs u).phase := hpc ▸ h.place
    obtain ⟨hc, hl⟩ := hplace.of_returned hwait.waits
    cases hf : (s.base.tokens t).cancelled with
    | true =>
      rcases h.will hl hf with hr | ⟨k, hk, -⟩
      · exact goes_run h hb hpc hc hl hr
      · exact goes_at h hb hpc hk
    | false =>
      rcases hcomes hwait with hf' | ⟨k, hk⟩
      · rw [hf] at hf'
        cases hf'
      · have hmem := hb.inv.current.tokens k t (hb.untouched.tokens k t hk)
        exact goes_call h hb hpc (tells_of_untouched hk)
          ((hb.inv.registered.token _ t).mp hmem).2.symm

/-- The `co_await` stays started, and its source cancelled. -/
theorem Fits.keeps (h : Fits t u (s, l)) (hb : Sound s.base) (hp : s.pc ≠ .unborn)
    (hs : SourceCancelled t s) (ht : Turn t u s e s') :
    s'.pc ≠ .unborn ∧ SourceCancelled t s' := by
  refine ⟨?_, ?_⟩
  · cases ht <;> first | exact hp | simp
  · rcases ht.base_step with hbase | ⟨c, -, hst⟩
    · unfold SourceCancelled
      rw [hbase]
      exact hs
    · have hbody := (token_body hst (h.born hp)).2
      unfold SourceCancelled
      rw [hbody]
      exact source_cancelled_step hst hb.inv hs

/-- The coroutine continues once from here on. -/
theorem wait_ends {s : St × List (Unit × Unit)}
    (hs : (history t u).ReachBy (fun s e => met t s.1 e = true) s) (hp : s.1.pc ≠ .unborn)
    (hc : SourceCancelled t s.1) :
    (history t u).Ends (fun s e => met t s.1 e = true)
      (fun s e => met t s.1 e = true ∧ serves u e = true) s () () := by
  refine Sys.Ends.of_measure (I := fun s => (Fits t u s ∧ Comes t s.1) ∧ Sound s.1.base)
    (P := fun s => s.1.pc ≠ .unborn ∧ SourceCancelled t s.1) (μ := fun s => left t u s.1)
    (fun s h => ⟨⟨reach_fits h, reach_comes h⟩, reach_sound (reach_base h.base)⟩)
    (fun _ _ h => h.1) ?_ ?_ hs ⟨hp, hc⟩
  · intro s e s' hi hP _ hst
    exact hi.1.1.keeps hi.2 hP.1 hP.2 (step_turn (Sys.logged_step.mp hst).1)
  · rintro ⟨s, l⟩ ⟨⟨hf, hcomes⟩, hb⟩ ⟨hp, hc⟩
    cases hw : s.coro.waits with
    | false =>
      have hl : l.length = 1 := by simpa [hw] using hf.length
      obtain ⟨⟨⟨⟩, ⟨⟩⟩, rfl⟩ := List.length_eq_one_iff.mp hl
      exact .inl rfl
    | true =>
      have hl : l.length = 0 := by simpa [hw] using hf.length
      obtain rfl := List.length_eq_zero_iff.mp hl
      obtain ⟨e, s', hmet, he, hst, hless⟩ := hf.goes hcomes hb ⟨hp, hw, hc⟩
      exact .inr ⟨rfl, e, (s', _), ⟨hmet, he⟩, Sys.logged_of_step hst [], hless⟩

end Progress

end WaitCancelled

end Cancel

end Corsl
