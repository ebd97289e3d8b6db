import Corsl.Cancel.WaitResumed

/-!
# What else becomes of `wait_cancelled()`

The first step that does not meet the condition (`met`) breaks the `co_await` (`Broken`):

* a call of `cancel` comes to the token between the false `await_ready` and the check of the
  subscription's constructor: the constructor throws, and the process is terminated;
* it comes to the token between the check and `add`: the subscription is not on the list that the
  call goes through, and no other call comes to the token (`Missed`);
* the operation is destroyed before the optional is marked: its subscription stays on the list;
* the `co_await` starts on a token that no call comes to any more (`Unheard`).

`wait_exact` is the result.
-/

namespace Corsl

open Conc Function

namespace Cancel

namespace WaitCancelled

/-! ## A token and a subscription that no call comes to -/

section Base

variable {s s' : Cancel.St} {e : Cancel.Ev} {t u : Nat}

/-- A call has a token on its list from the step on in which it cancels the source. -/
theorem not_coming_step (hst : Cancel.step s e = some s') (hi : Inv s)
    (hc : (s.bodies (s.tokens t).body).cancelled = true) (h : ¬Coming s t) : ¬Coming s' t := by
  rintro ⟨k, hk⟩
  rcases hi.call_step hst k with hkept | hm
  · exact h ⟨k, hkept.untouched ▸ hk⟩
  · rcases hm.untouched with hs | ⟨-, hn, hs⟩
    · exact h ⟨k, hs.subset hk⟩
    · rw [hs, hi.registered.token] at hk
      rw [← hk.2, hc] at hn
      cases hn

/-- Only a call that is at the token runs the subscription. -/
theorem runs_step (hst : Cancel.step s e = some s') (hi : Inv s) (hut : (s.subs u).token = t) :
    (s'.subs u).runs = (s.subs u).runs ∨
      ∃ k, (s.calls k).pc.at? = some t ∧ u ∈ (s.calls k).pc.toRun (s.tokens t).callbacks := by
  cases step_move hst with
  | source hm => exact .inl (by rw [(hm.frame hi.born.body).subs])
  | token hm => exact .inl (by rw [hm.frame.subs])
  | sub hm => exact .inl (hm.runs hi.born.sub u).1
  | call k _ hm =>
    refine (hm.runs u).imp_right ?_
    rintro ⟨v, subs, todo, hpc, -, -⟩
    have hmem := hi.current.subs k v (by rw [hpc]; rfl) u (by rw [hpc]; exact List.mem_cons_self)
    have hv : v = t := ((hi.registered.sub v u).mp hmem).2.symm.trans hut
    exact ⟨k, by rw [hpc, ← hv]; rfl, by rw [hpc]; exact List.mem_cons_self⟩

end Base

/-! ## A token that no call comes to -/

section Late

variable {s s' : St} {l : List (Unit × Unit)} {e : Ev} {t u : Nat}

/-- The coroutine waits, and no call comes to its token. -/
structure Unheard (t : Nat) (s : St) : Prop where
  waits : Waits t s
  flag : (s.base.tokens t).cancelled = false
  coming : ¬Coming s.base t

theorem Unheard.met (h : Unheard t s) (ht : Turn t u s e s') : e ≠ .await → met t s e = true := by
  intro he
  cases ht with
  | await => exact absurd rfl he
  | base c base ha hst =>
    cases c with
    | call k =>
      simp only [WaitCancelled.met]
      split
      · rename_i v todo hpc
        have hv : v ≠ t := by
          rintro rfl
          exact h.coming ⟨k, by simp [hpc, CancelPc.untouched]⟩
        simp [hv]
      · rfl
    | _ => rfl
  | drop hc =>
    have := h.waits.waits
    rw [hc] at this
    cases this
  | destroy base hc =>
    have := h.waits.waits
    rw [hc] at this
    cases this
  | _ => rfl

/-- The base of the system in a step of who waits. -/
theorem Waits.base_turn (h : Waits t s) (hf : Fits t u (s, l)) (hb : Sound s.base)
    (ht : Turn t u s e s') : SourceCancelled t s' ∧ (s'.base = s.base ∨
      ∃ c, Cancel.step s.base c = some s'.base ∧ Stays s.base s'.base t) := by
  obtain ⟨hlive, hc⟩ := h.live hf
  rcases ht.base_step with hbase | ⟨c, hremove, hst⟩
  · refine ⟨?_, .inl hbase⟩
    unfold SourceCancelled
    rw [hbase]
    exact h.source
  · have hs := token_stays hst hlive (hremove h.started hc)
    refine ⟨?_, .inr ⟨c, hst, hs⟩⟩
    unfold SourceCancelled
    rw [hs.body]
    exact source_cancelled_step hst hb.inv h.source

/-- The subscription of a token whose flag is not set has not run. -/
theorem Unheard.not_queued (h : Unheard t s) (hf : Fits t u (s, l)) (hb : Sound s.base) :
    s.queued = 0 := by
  have hle : s.submitted ≤ (s.base.subs u).invoked := hf.submitted_le
  have hi : (s.base.subs u).invoked = 0 := by
    by_contra hn
    have hruns := hb.runs_of_invoked (u := u) (by omega)
    by_cases hp : (s.base.subs u).phase = .unborn
    · exact hn (hb.fresh (by rw [hp]; rfl))
    · have := hb.runs.fresh u (by rw [hf.token hp]; exact h.flag)
      omega
  have hq : s.queued = if s.coro = .suspended then s.submitted else 0 := hf.queued
  split at hq <;> omega

theorem Unheard.turn (h : Unheard t s) (hf : Fits t u (s, l)) (hb : Sound s.base)
    (ht : Turn t u s e s') : Unheard t s' ∧ note t s e = [] := by
  obtain ⟨hsource, hbase⟩ := h.waits.base_turn hf hb ht
  have hlive := (h.waits.live hf).1
  have hq := h.not_queued hf hb
  have hrest : (s'.base.tokens t).cancelled = false ∧ ¬Coming s'.base t := by
    rcases hbase with hbase | ⟨c, hst, hs⟩
    · rw [hbase]
      exact ⟨h.flag, h.coming⟩
    · refine ⟨?_, not_coming_step hst hb.inv h.waits.source h.coming⟩
      by_contra hf'
      obtain ⟨k, todo, -, hpc⟩ := flag_set hst hlive h.flag (by simpa using hf')
      exact h.coming ⟨k, by simp [hpc, CancelPc.untouched]⟩
  have hwaits : s'.pc ≠ .unborn ∧ s'.coro.waits = true ∧ note t s e = [] := by
    have hp := h.waits.started
    have hw := h.waits.waits
    cases ht with
    | skip _ hc =>
      rw [h.flag] at hc
      cases hc
    | suspend _ hc => exact ⟨by simp, rfl, by simp [note, Token.isCancelled, hc]⟩
    | resume hqueued => omega
    | stray hqueued => omega
    | destroy base hc =>
      rw [hc] at hw
      cases hw
    | drop hc =>
      rw [hc] at hw
      cases hw
    | done base hc =>
      rw [hc] at hw
      cases hw
    | base => exact ⟨hp, hw, rfl⟩
    | submit => exact ⟨hp, hw, rfl⟩
    | terminate => exact ⟨hp, hw, rfl⟩
    | _ => exact ⟨by simp, hw, rfl⟩
  exact ⟨⟨⟨hwaits.1, hwaits.2.1, hsource⟩, hrest.1, hrest.2⟩, hwaits.2.2⟩

/-- Nobody resumes the coroutine. -/
theorem Unheard.later {s s' : St × List (Unit × Unit)} (h : Unheard t s.1) (hf : Fits t u s)
    (hs : (history t u).Reach s) (hl : (history t u).Later (fun _ _ => True) s s') :
    Unheard t s'.1 ∧ s'.2 = [] := by
  have key : Fits t u s' ∧ Unheard t s'.1 := by
    refine Sys.Later.keep (I := fun s => Sound s.1.base)
      (P := fun s => Fits t u s ∧ Unheard t s.1)
      (fun _ h => reach_sound (reach_base h.base)) ?_ hs hl ⟨hf, h⟩
    rintro ⟨s, l⟩ e ⟨s', l'⟩ hb ⟨hf, h⟩ - hst
    obtain ⟨hst, rfl⟩ := Sys.logged_step.mp hst
    have ht := step_turn hst
    exact ⟨hf.turn hb (h.met ht) ht, (h.turn hf hb ht).1⟩
  refine ⟨key.2, ?_⟩
  have hlen := key.1.length
  rw [key.2.waits.waits] at hlen
  exact List.length_eq_zero_iff.mp hlen

end Late

/-! ## A subscription that a call has left out -/

section Missed

variable {s s' : St} {l : List (Unit × Unit)} {e : Ev} {t u : Nat}

/-- The subscription is in its `add`, or after it. -/
def Adds (pc : Pc) (phase : SubPhase) : Prop :=
  (pc = .add ∧ phase = .checked) ∨ ((pc = .engage ∨ pc = .returned) ∧ phase = .live)

/-- The coroutine waits, its token was cancelled, and no call has the subscription on its list. -/
structure Missed (t u : Nat) (s : St) : Prop where
  waits : Waits t s
  adds : Adds s.pc (s.base.subs u).phase
  token : (s.base.subs u).token = t
  live : (s.base.tokens t).phase = .live
  flag : (s.base.tokens t).cancelled = true
  runs : (s.base.subs u).runs = 0
  missed : ∀ k, (s.base.calls k).pc.at? = some t →
    u ∉ (s.base.calls k).pc.toRun (s.base.tokens t).callbacks
  queued : s.queued = 0

theorem Missed.base (h : Missed t u s) (hb : Sound s.base) {c : Cancel.Ev} {base : Cancel.St}
    (ha : allowed t u s c = true) (hst : Cancel.step s.base c = some base) :
    Missed t u { s with base } := by
  have hi := hb.inv
  have hc : s.coro ≠ .after := by
    intro hc
    have := h.waits.waits
    rw [hc] at this
    cases this
  have hs := token_stays hst h.live (allowed_remove ha h.waits.started hc)
  have hbuilds : builds u c = false := by
    simp only [allowed, Bool.and_eq_true, Bool.not_eq_true'] at ha
    exact ha.1
  obtain ⟨hphase, htoken⟩ := sub_frame hst hi hbuilds
  have hi' := hi.move (step_move hst)
  have hmem : u ∈ (base.tokens t).callbacks → u ∈ (s.base.tokens t).callbacks := by
    rw [hi'.registered.sub, hi.registered.sub, hphase, htoken]
    exact id
  refine ⟨⟨h.waits.started, h.waits.waits, ?_⟩, ?_, htoken.trans h.token, hs.phase, hs.flag h.flag,
    ?_, fun k hk hu => ?_, h.queued⟩
  · show (base.bodies (base.tokens t).body).cancelled = true
    rw [hs.body]
    exact source_cancelled_step hst hi h.waits.source
  · show Adds s.pc (base.subs u).phase
    rw [hphase]
    exact h.adds
  · rcases runs_step hst hi h.token with hr | ⟨k, hk, hu⟩
    · exact hr.trans h.runs
    · exact absurd hu (h.missed k hk)
  · rcases hi.call_step hst k with hkept | hm
    · rw [hkept.toRun] at hu
      exact h.missed k (hkept.at? ▸ hk) (toRun_mono hu hmem)
    · rw [hm.frame.callbacks] at hu
      rcases hm.toRun hk with ⟨hk, hsub⟩ | ⟨todo, hpc⟩
      · exact h.missed k hk (hsub hu)
      · -- no call comes to a token twice
        have := hb.untouched.todo k t (by rw [hpc]; exact List.mem_cons_self)
        rw [h.flag] at this
        cases this

theorem Missed.add (h : Missed t u s) (hb : Sound s.base) {base : Cancel.St}
    (hst : Cancel.step s.base (.subAdd u) = some base) :
    Missed t u { s with base, pc := .engage } := by
  have hfree : (s.base.tokens t).lock = none := by
    cases builds_move hst (by simp [builds] : builds u _ = true) with
    | add _ _ hl => exact h.token ▸ hl
  have hbase := add_eq hst
  rw [h.token] at hbase
  subst hbase
  refine ⟨⟨by simp, h.waits.waits, ?_⟩, .inr ⟨.inl rfl, by simp⟩, by simpa using h.token,
    by simpa [Token.addSubscription] using h.live, by simpa [Token.addSubscription] using h.flag,
    by simpa using h.runs, fun k hk => ?_, h.queued⟩
  · simpa [SourceCancelled, Token.addSubscription] using h.waits.source
  · -- a call at the token would hold its lock
    have := (hb.inv.current.lock t k).mpr hk
    rw [hfree] at this
    cases this

theorem Missed.turn (h : Missed t u s) (hb : Sound s.base) (ht : Turn t u s e s') :
    Missed t u s' ∧ note t s e = [] := by
  have hw := h.waits.waits
  have hq := h.queued
  have hadds := h.adds
  cases ht with
  | base c base ha hst => exact ⟨h.base hb ha hst, rfl⟩
  | add base hp hst => exact ⟨h.add hb hst, rfl⟩
  | engage hp =>
    refine ⟨⟨⟨by simp, hw, h.waits.source⟩, .inr ⟨.inr rfl, ?_⟩, h.token, h.live, h.flag, h.runs,
      h.missed, hq⟩, rfl⟩
    rcases hadds with ⟨ha, -⟩ | ⟨-, hl⟩
    · rw [hp] at ha
      cases ha
    · exact hl
  | submit hi =>
    obtain ⟨g, hg⟩ := hb.staged u
    have := hg.before_of_runs h.runs
    subst this
    have := hg.invoked
    simp only [Stage.counts] at this
    omega
  | resume hqueued => omega
  | stray hqueued => omega
  | destroy base hc =>
    rw [hc] at hw
    cases hw
  | drop hc =>
    rw [hc] at hw
    cases hw
  | done base hc =>
    rw [hc] at hw
    cases hw
  | await hp => exact absurd hp h.waits.started
  | skip hp => simp [Adds, hp] at hadds
  | suspend hp => simp [Adds, hp] at hadds
  | construct base hp => simp [Adds, hp] at hadds
  | terminate base hp => simp [Adds, hp] at hadds
  | check base hp => simp [Adds, hp] at hadds

theorem Missed.later {s s' : St × List (Unit × Unit)} (h : Missed t u s.1) (hl : s.2 = [])
    (hs : (history t u).Reach s) (hlater : (history t u).Later (fun _ _ => True) s s') :
    s'.2 = [] := by
  have key : s'.2 = [] ∧ Missed t u s'.1 := by
    refine Sys.Later.keep (I := fun s => Sound s.1.base)
      (P := fun s => s.2 = [] ∧ Missed t u s.1)
      (fun _ h => reach_sound (reach_base h.base)) ?_ hs hlater ⟨hl, h⟩
    rintro ⟨s, l⟩ e ⟨s', l'⟩ hb ⟨rfl, h⟩ - hst
    obtain ⟨hst, rfl⟩ := Sys.logged_step.mp hst
    obtain ⟨h', hn⟩ := h.turn hb (step_turn hst)
    exact ⟨by simp [hn], h'⟩
  exact key.1

end Missed

/-! ## The first step that does not meet the condition -/

/-- The `co_await` is not exact at some later time, or the coroutine never continues. -/
def Broken (t u : Nat) (s : St × List (Unit × Unit)) : Prop :=
  (∃ s', (history t u).Later (fun _ _ => True) s s' ∧ ¬Exact t u s') ∨
  (s.1.pc ≠ .unborn ∧ SourceCancelled t s.1 ∧
    ∀ s', (history t u).Later (fun _ _ => True) s s' → s'.2 = [])

section Broken

variable {s s' : St} {l : List (Unit × Unit)} {e : Ev} {t u : Nat}

theorem Pc.of_window {pc : Pc} (h : pc.window = true) : pc = .begin ∨ pc = .check ∨ pc = .add := by
  cases pc <;> simp [Pc.window] at h ⊢

theorem coming_of_untouched {c : Cancel.St} (hi : Inv c) (hu : Untouched c) (h : Coming c t) :
    coming c t = true := by
  obtain ⟨k, hk⟩ := h
  have hl := hi.todo_holder (hu.tokens k t hk)
  simp [coming, hl, hk]

/-- The `co_await` starts too late. -/
theorem broken_late (hf : Fits t u (s, l)) (hs : (history t u).Reach (s, l)) (hb : Sound s.base)
    (hlate : late s.base t = true) (hp : s.pc = .unborn)
    (hst : (history t u).step (s, l) .await = some ({ s with pc := .ready }, l))
    (hlive : (s.base.tokens t).phase = .live) : Broken t u ({ s with pc := .ready }, l) := by
  have hplace : Place .unborn s.coro s.engaged (s.base.subs u).phase := hp ▸ hf.place
  simp only [late, Bool.and_eq_true, Bool.not_eq_true'] at hlate
  obtain ⟨⟨hc, hflag⟩, hcoming⟩ := hlate
  have hwaits : Waits t { s with pc := .ready } := by
    refine ⟨by simp, ?_, hc⟩
    show s.coro.waits = true
    rw [hplace.of_unborn.1]
    rfl
  have hun : Unheard t { s with pc := .ready } := by
    refine ⟨hwaits, hflag, fun h => ?_⟩
    have := coming_of_untouched hb.inv hb.untouched h
    rw [hcoming] at this
    cases this
  exact .inr ⟨hwaits.started, hc, fun s' hl =>
    (hun.later (hf.start hp hlive) (.step _ hs trivial hst) hl).2⟩

/-- The check in the constructor throws. -/
theorem broken_check (ha : s.terminated = false) (hp : s.pc = .check)
    (hph : (s.base.subs u).phase = .begun) (ht : (s.base.subs u).token = t)
    (hf : (s.base.tokens t).cancelled = true) : ∃ s', step t u s .check = some s' ∧
      s'.terminated = true := by
  obtain ⟨base, hst, hthrew⟩ : ∃ base, Cancel.step s.base (.subCheck u) = some base ∧
      (base.subs u).phase = .threw := by
    simp [Cancel.step, sourceStep, tokenStep, subStep, hph, ht, Token.checkCancelled,
      Token.isCancelled, hf]
  exact ⟨{ s with base, terminated := true }, by simp [step, ha, hp, lift, hst, hthrew], rfl⟩

/-- A call comes to the token before the check. -/
theorem broken_throw (hf : Fits t u (s, l)) (hb : Sound s.base) (hw : s.pc = .begin ∨ s.pc = .check)
    {c : Cancel.Ev} {base : Cancel.St} (hbuilds : builds u c = false)
    (hst : Cancel.step s.base c = some base) (hs : Stays s.base base t)
    (hflag : (base.tokens t).cancelled = true) : Broken t u ({ s with base }, l) := by
  have ha : s.terminated = false := hf.alive
  obtain ⟨hphase, htoken⟩ := sub_frame hst hb.inv hbuilds
  have hend : ∀ {s : St}, s.terminated = true → ¬Exact t u (s, l) := by
    intro s h he
    have := he.alive
    rw [h] at this
    cases this
  rcases hw with hp | hp
  · have hplace : Place .begin s.coro s.engaged (s.base.subs u).phase := hp ▸ hf.place
    have hph := hphase.trans hplace.of_begin.2.2
    obtain ⟨base', hst'⟩ : ∃ base', Cancel.step base (.subBegin u t) = some base' := by
      simp [Cancel.step, sourceStep, tokenStep, subStep, hs.phase, hph]
    have hstep : step t u { s with base } .construct =
        some { s with base := base', pc := .check } := by
      simp [step, ha, hp, lift, hst']
    obtain ⟨s'', hst'', hend'⟩ := broken_check (t := t) (u := u)
      (s := { s with base := base', pc := .check }) ha rfl (by simp [begin_eq hst'])
      (by simp [begin_eq hst']) (by simp [begin_eq hst', hflag])
    have h1 : (history t u).step ({ s with base }, l) .construct =
        some ({ s with base := base', pc := .check }, l) :=
      Sys.logged_step.mpr ⟨hstep, by simp [note]⟩
    have h2 : (history t u).step ({ s with base := base', pc := .check }, l) .check =
        some (s'', l) := Sys.logged_step.mpr ⟨hst'', by simp [note]⟩
    exact .inl ⟨(s'', l), .step _ (.step _ .refl trivial h1) trivial h2, hend hend'⟩
  · have hplace : Place .check s.coro s.engaged (s.base.subs u).phase := hp ▸ hf.place
    have hph := hplace.of_check.2.2
    obtain ⟨s'', hst'', hend'⟩ := broken_check (t := t) (u := u) (s := { s with base }) ha hp
      (hphase.trans hph) (htoken.trans (hf.token (by simp [hph]))) hflag
    have h1 : (history t u).step ({ s with base }, l) .check = some (s'', l) :=
      Sys.logged_step.mpr ⟨hst'', by simp [note]⟩
    exact .inl ⟨(s'', l), .step _ .refl trivial h1, hend hend'⟩

/-- A call comes to the token between the check and `add`. -/
theorem broken_missed (hf : Fits t u (s, l)) (hb : Sound s.base) (hp : s.pc = .add)
    {c : Cancel.Ev} {base : Cancel.St} (hbuilds : builds u c = false) (hb' : Sound base)
    (hst : Cancel.step s.base c = some base) (hs : Stays s.base base t)
    (hflag : (base.tokens t).cancelled = true)
    (hreach : (history t u).Reach ({ s with base }, l)) : Broken t u ({ s with base }, l) := by
  obtain ⟨hphase, htoken⟩ := sub_frame hst hb.inv hbuilds
  have hplace : Place .add s.coro s.engaged (s.base.subs u).phase := hp ▸ hf.place
  obtain ⟨hc, -, hph⟩ := hplace.of_add
  have hph' := hphase.trans hph
  have hinv : (s.base.subs u).invoked = 0 := hb.fresh (by rw [hph]; rfl)
  have hq : s.queued = 0 := by
    have hle : s.submitted ≤ (s.base.subs u).invoked := hf.submitted_le
    have := hf.queued
    rw [if_pos hc] at this
    simp only at this
    omega
  have hl : l = [] := by
    have := hf.length
    rw [hc] at this
    exact List.length_eq_zero_iff.mp this
  have hwaits : Waits t { s with base } :=
    ⟨by simp [hp], by simp [hc, Coro.waits], hb'.source_cancelled hs.phase hflag⟩
  have hmissed : Missed t u { s with base } := by
    refine ⟨hwaits, .inl ⟨hp, hph'⟩, htoken.trans (hf.token (by simp [hph])), hs.phase, hflag,
      hb'.settled.early u (by rw [hph']; rfl), fun k hk hu => ?_, hq⟩
    -- the subscription is not on the token's list
    have := ((hb'.inv.registered.sub t u).mp (hb'.inv.current.toRun_mem hk hu)).1
    rw [hph'] at this
    cases this
  exact .inr ⟨hwaits.started, hwaits.source, fun s' hl' => hmissed.later hl hreach hl'⟩

/-- The operation is destroyed before the optional is marked. -/
theorem broken_drop (hf : Fits t u (s, l)) (hb : Sound s.base) (hp : s.pc = .engage) :
    Broken t u ({ s with coro := .after }, l) := by
  have hplace : Place .engage s.coro s.engaged (s.base.subs u).phase := hp ▸ hf.place
  have hph := hplace.of_engage.2.2
  have hmem : u ∈ (s.base.tokens t).callbacks :=
    (hb.inv.registered.sub t u).mpr ⟨hph, hf.token (by simp [hph])⟩
  exact .inl ⟨_, .refl, fun he => he.unlinked rfl hmem⟩

/-- A step that does not meet the condition breaks the `co_await`. -/
theorem broken_of_not_met {s s' : St × List (Unit × Unit)}
    (hs : (history t u).ReachBy (fun s e => met t s.1 e = true) s) (hmet : met t s.1 e = false)
    (hst : (history t u).step s e = some s') : Broken t u s' := by
  have hf := reach_fits hs
  have hb := reach_sound (reach_base hs.base)
  have hreach' : (history t u).Reach s' := .step e hs.reach trivial hst
  have hb' := reach_sound (reach_base hreach'.base)
  have hst₀ := hst
  obtain ⟨s, l⟩ := s
  obtain ⟨s', l'⟩ := s'
  obtain ⟨hstep, rfl⟩ := Sys.logged_step.mp hst
  simp only at hmet hb hb' hstep
  cases step_turn hstep with
  | await hp hlive =>
    simp only [note, List.append_nil] at hst₀ ⊢
    exact broken_late hf hs.reach hb (by simpa [met] using hmet) hp hst₀ hlive
  | base c base ha hbase =>
    simp only [note, List.append_nil] at hreach' ⊢
    cases c with
    | call k =>
      simp only [met] at hmet
      split at hmet
      · rename_i v todo hpc
        simp only [Bool.or_eq_false_iff, decide_eq_false_iff_not, not_not,
          Bool.not_eq_false'] at hmet
        obtain ⟨rfl, hw⟩ := hmet
        obtain ⟨hp, hc⟩ := hf.place.of_window hw
        have hstay := token_stays hbase (hf.live hp hc) (by simp)
        have hflag : (base.tokens v).cancelled = true := by
          simp only [Cancel.step, callStep, hpc] at hbase
          split at hbase <;> cases hbase
          simp
        rcases Pc.of_window hw with hpc' | hpc' | hpc'
        · exact broken_throw hf hb (.inl hpc') rfl hbase hstay hflag
        · exact broken_throw hf hb (.inr hpc') rfl hbase hstay hflag
        · exact broken_missed hf hb hpc' rfl hb' hbase hstay hflag hreach'
      · cases hmet
    | _ => cases hmet
  | drop hc he =>
    simp only [note, List.append_nil]
    exact broken_drop hf hb (by simpa [met] using hmet)
  | destroy base hc he =>
    have hp : s.pc = .engage := by simpa [met] using hmet
    have hplace : Place .engage s.coro s.engaged (s.base.subs u).phase := hp ▸ hf.place
    rw [hplace.of_engage.2.1] at he
    cases he
  | _ => cases hmet

end Broken

/-! ## Results -/

/-- **`co_await token.wait_cancelled()` is exact** in the runs that meet the condition: nobody
terminates the process or uses what is destroyed, the coroutine continues once at most, and not
before the source is cancelled; the destroyed operation has no subscription on the token's list; and
once the source is cancelled and the `co_await` has started, the coroutine continues. The first step
that does not meet the condition breaks this. -/
theorem wait_exact (t u : Nat) {s : St × List (Unit × Unit)}
    (hs : (history t u).ReachBy (fun s e => met t s.1 e = true) s) : Exact t u s ∧
    (s.1.pc ≠ .unborn → SourceCancelled t s.1 →
      (history t u).Ends (fun s e => met t s.1 e = true)
        (fun s e => met t s.1 e = true ∧ serves u e = true) s () ()) ∧
    ∀ e s', met t s.1 e = false → (history t u).step s e = some s' → Broken t u s' :=
  ⟨(reach_fits hs).exact (reach_inv (reach_base hs.base)), wait_ends hs,
    fun _ _ hmet hst => broken_of_not_met hs hmet hst⟩

/-- A source is cancelled, up to its token. -/
def cancelRun : List Ev :=
  ([.newSource 0, .tokenBegin 0 0 none, .tokenRead 0, .tokenCheck 0, .tokenAdd 0, .cancel 0 0,
    .call 0] : List Cancel.Ev).map .base

/-- The callback is run while `await_suspend` is about to return. -/
def promptRun : List Ev :=
  cancelRun ++ [.await, .awaitReady, .construct, .check, .add, .base (.call 0), .base (.call 0),
    .base (.call 0), .base (.call 0), .base (.callback 0), .submit]

theorem wait_exact_prompt :
    (history 0 0).Ends (fun s e => met 0 s.1 e = true)
      (fun s e => met 0 s.1 e = true ∧ serves 0 e = true) ((history 0 0).after promptRun) () () :=
  (wait_exact 0 0 (Sys.reachBy_meets (by decide))).2.1 (by decide)
    (by unfold SourceCancelled; decide)

/-- The source is cancelled between `await_ready` and the check in the constructor. -/
theorem wait_terminates :
    ¬∀ t u s, (history t u).Reach s → Exact t u s ∧
      (s.1.pc ≠ .unborn → SourceCancelled t s.1 →
        (history t u).Ends (fun _ _ => True) (fun _ e => serves u e = true) s () ()) := by
  intro h
  have := (h 0 0 ((history 0 0).after
    (cancelRun ++ [.await, .awaitReady, .base (.call 0), .construct, .check]))
    (Sys.reach_after (by decide))).1.alive
  revert this
  decide

end WaitCancelled

end Cancel

end Corsl
