import Corsl.Cancel.Tokens

/-!
# A subscription's callback is run once

* `Untouched`: the tokens that a call has yet to cancel have never been cancelled, so
  `cancellation_token::cancel` runs at most once for each token.
* `Users`: a token is not destroyed while a subscription refers to it.
* `Runs`: `run()` is called at most once for a subscription, and not before its token is
  cancelled.
* `subInTime`: the constructor's `add()` does not run on a token that is cancelled already, and the
  token was added in time (`inTime`). The constructor checks the token's flag, and adds the
  subscription in a later section of the token's lock.
* `Running`: a live subscription of a cancelled token was run, or the call that cancels the token
  still has it on its list.

`callback_run` is the result for the runs whose steps are in time; `late_subscription` shows the
subscription that `cancellation_token::cancel` leaves out.
-/

namespace Corsl

open Conc Function

namespace Cancel

/-- The tokens that the call has not come to yet. -/
@[grind =] def CancelPc.untouched : CancelPc → List Nat
  | .tokens todo | .promise _ todo | .callbacks _ _ todo | .submit _ _ _ todo => todo
  | .unborn | .enter | .related _ | .nested _ _ _ | .done => []

/-- The callbacks that the call still has to run, of all those of the token that it is at. -/
@[grind =] def CancelPc.toRun : CancelPc → List Nat → List Nat
  | .promise _ _, all => all
  | .callbacks _ subs _, _ | .submit _ _ subs _, _ => subs
  | .unborn, _ | .enter, _ | .tokens _, _ | .related _, _ | .nested _ _ _, _ | .done, _ => []

/-! ## A token is cancelled once -/

/-- The tokens that are still to be cancelled (module doc). -/
structure Untouched (s : St) : Prop where
  checked : ∀ t, (s.tokens t).phase = .checked → (s.tokens t).cancelled = false
  live : ∀ t, (s.tokens t).phase = .live → (s.bodies (s.tokens t).body).cancelled = false →
    (s.tokens t).cancelled = false
  todo : ∀ k, ∀ t ∈ (s.calls k).pc.untouched, (s.tokens t).cancelled = false
  nodup : ∀ k, (s.calls k).pc.untouched.Nodup
  tokens : ∀ k, ∀ t ∈ (s.calls k).pc.untouched, t ∈ (s.calls k).pc.tokensTodo

theorem Untouched.init : Untouched ({} : St) := by
  constructor <;> simp [CancelPc.untouched]

theorem CallKept.untouched {c c' : Call} (h : CallKept c c') : c'.pc.untouched = c.pc.untouched :=
  h.pc_eq _ rfl fun _ _ _ => rfl

theorem Untouched.source {s s' : St} (h : Untouched s) (f : SourceFrame s s') : Untouched s' := by
  have hun : ∀ k, (s'.calls k).pc.untouched = (s.calls k).pc.untouched := fun k =>
    (f.calls k).untouched
  refine ⟨fun t ht => ?_, fun t ht hc => ?_, fun k t ht => ?_, fun k => ?_, fun k t ht => ?_⟩
  · rw [f.tokens] at ht ⊢
    exact h.checked t ht
  · rw [f.tokens] at ht hc ⊢
    exact h.live t ht (f.cancelled _ ▸ hc)
  · rw [f.tokens]
    exact h.todo k t (hun k ▸ ht)
  · rw [hun]
    exact h.nodup k
  · rw [(f.calls k).pc_eq CancelPc.tokensTodo rfl fun _ _ _ => rfl]
    exact h.tokens k t (hun k ▸ ht)

theorem Untouched.token {s s' : St} {e : Ev} (h : Untouched s) (hi : Inv s)
    (hm : TokenMove s e s') : Untouched s' := by
  have f := hm.frame
  refine ⟨fun t ht => ?_, fun t ht hc => ?_, fun k t ht => ?_, fun k => ?_, fun k t ht => ?_⟩
  · rcases (hm.flag t).2.1 ht with hp | hp
    · rw [(hm.flag t).1 (by simp [hp]) (by simp [hp])]
      exact h.checked t hp
    · exact hp
  · rcases (hm.flag t).2.2 ht with hp | ⟨hp, -⟩
    · rw [(hm.flag t).1 (by simp [hp]) (by simp [hp])]
      rw [(hm.kept (by simp [hp])).body, f.cancelled] at hc
      exact h.live t hp hc
    · rw [(hm.flag t).1 (by simp [hp]) (by simp [hp])]
      exact h.checked t hp
  · rw [f.calls] at ht
    have hlive := hi.born_at k t (.inl (h.tokens k t ht))
    rw [(hm.flag t).1 (by simp [hlive]) (by simp [hlive])]
    exact h.todo k t ht
  · rw [f.calls]
    exact h.nodup k
  · rw [f.calls] at ht ⊢
    exact h.tokens k t ht

theorem Untouched.sub {s s' : St} (h : Untouched s) (f : SubFrame s s') : Untouched s' := by
  refine ⟨fun t ht => ?_, fun t ht hc => ?_, fun k t ht => ?_, fun k => ?_, fun k t ht => ?_⟩
  · rw [f.cancelled]
    exact h.checked t (f.phase t ▸ ht)
  · rw [f.body, f.bodies] at hc
    rw [f.cancelled]
    exact h.live t (f.phase t ▸ ht) hc
  · rw [f.cancelled]
    exact h.todo k t (f.calls ▸ ht)
  · rw [f.calls]
    exact h.nodup k
  · rw [f.calls] at ht ⊢
    exact h.tokens k t ht

theorem CancelPc.untouched_subset (pc : CancelPc) : pc.untouched ⊆ pc.tokensTodo := by
  cases pc with
  | promise t todo => exact List.subset_cons_self t todo
  | _ => exact List.Subset.refl _

section Call

variable {s s' : St} {k : Nat}

/-- The tokens that a call has not come to yet: those of its body when it enters, and then fewer. -/
theorem CallMove.untouched (hm : CallMove s k (s.calls k).body s') :
    (s'.calls k).pc.untouched.Sublist (s.calls k).pc.untouched ∨
    (s.calls k).pc = .enter ∧ (s.bodies (s.calls k).body).cancelled = false ∧
      (s'.calls k).pc.untouched = (s.bodies (s.calls k).body).tokens := by
  have key : ∀ {pc pc' : CancelPc}, (s.calls k).pc = pc → (s'.calls k).pc = pc' →
      pc'.untouched.Sublist pc.untouched →
      (s'.calls k).pc.untouched.Sublist (s.calls k).pc.untouched := by
    rintro _ _ rfl rfl hs
    exact hs
  cases hm with
  | again hpc => exact .inl (key hpc (leave_pc ..) (.refl _))
  | relatedDone hpc => exact .inl (key hpc (leave_pc ..) (.refl _))
  | enter hpc hl hc =>
    refine .inr ⟨hpc, hc, ?_⟩
    show ((s.goto k _).calls k).pc.untouched = _
    rw [goto_pc]
    rfl
  | token t todo hpc => exact .inl (key hpc (goto_pc ..) (List.sublist_cons_self t todo))
  | tokensDone hpc => exact .inl (key hpc (goto_pc ..) (.refl _))
  | noPromise t todo hpc => exact .inl (key hpc (goto_pc ..) (.refl _))
  | promise t p todo hpc => exact .inl (key hpc (goto_pc ..) (.refl _))
  | tokenDone t todo hpc => exact .inl (key hpc (goto_pc ..) (.refl _))
  | run t u subs todo hpc => exact .inl (key hpc (goto_pc ..) (.refl _))
  | submit t u subs todo hpc => exact .inl (key hpc (goto_pc ..) (.refl _))
  | skip c todo hpc => exact .inl (key hpc (goto_pc ..) (.refl _))
  | nestedDone c k' todo hpc => exact .inl (key hpc (goto_pc ..) (.refl _))

theorem Untouched.call (h : Untouched s) (hi : Inv s) (hm : CallMove s k (s.calls k).body s') :
    Untouched s' := by
  have f := hm.frame
  -- the token whose flag the call sets is its next one, and the call holds its body's lock
  have hnext : ∀ {t todo}, (s.calls k).pc = .tokens (t :: todo) →
      t ∈ (s.calls k).pc.tokensTodo := by
    intro t todo hpc
    rw [hpc]
    exact List.mem_cons_self
  refine ⟨fun t ht => ?_, fun t ht hc => ?_, fun k' t ht => ?_, fun k' => ?_,
    fun k' t ht => CancelPc.untouched_subset _ ht⟩
  · rw [f.tokenPhase] at ht
    rcases hm.flag t with hflag | ⟨todo, hpc, -⟩
    · rw [hflag]
      exact h.checked t ht
    · rw [hi.born_at k t (.inl (hnext hpc))] at ht
      cases ht
  · rw [f.tokenPhase] at ht
    rw [f.tokenBody] at hc
    have hc' : (s.bodies (s.tokens t).body).cancelled = false := by
      by_contra hn
      rw [f.cancelled _ (by simpa using hn)] at hc
      cases hc
    rcases hm.flag t with hflag | ⟨todo, hpc, -⟩
    · rw [hflag]
      exact h.live t ht hc'
    · have hb := ((hi.registered.token _ t).mp (hi.current.tokens k t (hnext hpc))).2
      rw [hb, hi.locks.entered k (.inl (by rw [hpc]; rfl))] at hc'
      cases hc'
  · by_cases hk : k' = k
    · rw [hk] at ht
      rcases hm.untouched with hs | ⟨hpc, hc, hs⟩
      · have hold := h.todo k t (hs.subset ht)
        rcases hm.flag t with hflag | ⟨todo, hpc, hpc'⟩
        · rw [hflag, hold]
        · -- the token that it comes to is not on the rest of the list
          have hn := h.nodup k
          rw [hpc] at hn
          rw [hpc'] at ht
          exact absurd ht (List.nodup_cons.mp hn).1
      · obtain ⟨hlive, hb⟩ := (hi.registered.token _ t).mp (hs ▸ ht)
        rcases hm.flag t with hflag | ⟨todo, hpc', -⟩
        · rw [hflag]
          exact h.live t hlive (hb.symm ▸ hc)
        · rw [hpc] at hpc'
          cases hpc'
    · rw [f.other k' hk] at ht
      rcases hm.flag t with hflag | ⟨todo, hpc, -⟩
      · rw [hflag]
        exact h.todo k' t ht
      · have hholder := hi.todo_holder (h.tokens k' t ht)
        rw [hi.todo_holder (hnext hpc)] at hholder
        exact absurd (Option.some.inj hholder).symm hk
  · by_cases hk : k' = k
    · rw [hk]
      rcases hm.untouched with hs | ⟨-, -, hs⟩
      · exact (h.nodup k).sublist hs
      · rw [hs]
        exact hi.registered.tokens _
    · rw [f.other k' hk]
      exact h.nodup k'

end Call

theorem Untouched.move {s s' : St} {e : Ev} (h : Untouched s) (hi : Inv s) (hm : Move s e s') :
    Untouched s' := by
  cases hm with
  | source hm => exact h.source (hm.frame hi.born.body)
  | token hm => exact h.token hi hm
  | sub hm => exact h.sub hm.frame
  | call k _ hm => exact h.call hi hm

theorem reach_untouched {s : St} (h : sys.Reach s) : Untouched s :=
  h.rec_on (fun _ h => reach_inv h) .init fun _ _ _ hi h _ hst => h.move hi (step_move hst)

/-! ## A token outlives its subscriptions -/

/-- The subscription refers to its token. -/
@[grind =] def SubPhase.refers : SubPhase → Bool
  | .begun | .checked | .live | .removed => true
  | .unborn | .gone | .threw => false

/-- The subscriptions that refer to a token (module doc). -/
structure Users (s : St) : Prop where
  mem : ∀ t u, u ∈ (s.tokens t).users ↔ (s.subs u).token = t ∧ (s.subs u).phase.refers
  nodup : ∀ t, (s.tokens t).users.Nodup
  live : ∀ t, (s.tokens t).users ≠ [] → (s.tokens t).phase = .live

theorem Users.init : Users ({} : St) := by
  constructor <;> simp [SubPhase.refers]

namespace Users

variable {s s' : St}

theorem roster (h : Users s) (t : Nat) : Roster (s.tokens t).users fun u =>
    (s.subs u).token = t ∧ (s.subs u).phase.refers :=
  ⟨h.mem t, h.nodup t⟩

theorem of_rosters (hu : ∀ t, Roster (s.tokens t).users fun u =>
      (s.subs u).token = t ∧ (s.subs u).phase.refers)
    (hl : ∀ t, (s.tokens t).users ≠ [] → (s.tokens t).phase = .live) : Users s :=
  ⟨fun t => (hu t).mem, fun t => (hu t).nodup, hl⟩

theorem keep (h : Users s) (ht : ∀ t, (s'.tokens t).users = (s.tokens t).users)
    (hp : ∀ t, (s.tokens t).users ≠ [] → (s'.tokens t).phase = (s.tokens t).phase)
    (hs : ∀ u, (s'.subs u).token = (s.subs u).token ∧
      (s'.subs u).phase.refers = (s.subs u).phase.refers) : Users s' := by
  refine .of_rosters (fun t => ?_) fun t hn => ?_
  · rw [ht]
    exact (h.roster t).congr fun u => by rw [(hs u).1, (hs u).2]
  · rw [ht] at hn
    rw [hp t hn]
    exact h.live t hn

theorem token {e : Ev} (h : Users s) (hi : Inv s) (hm : TokenMove s e s') : Users s' := by
  have f := hm.frame
  have key : ∀ {x : Nat} {v : Token}, s'.tokens = update s.tokens x v →
      v.users = (s.tokens x).users → ((s.tokens x).phase ≠ .live ∨ (s.tokens x).users = []) →
      Users s' := by
    intro x v ht hv hx
    refine h.keep (fun t => ?_) (fun t hn => ?_) fun u => by rw [f.subs]; exact ⟨rfl, rfl⟩
    · rw [ht]
      exact update_proj Token.users hv t
    · have htx : t ≠ x := by
        rintro rfl
        exact hx.elim (fun hx => hx (h.live t hn)) hn
      rw [ht, update_of_ne htx]
  cases hm with
  | begin t b coro _ _ hp => exact key rfl (by rw [hi.born.token t hp]) (.inl (by simp [hp]))
  | read t hp => exact key rfl rfl (.inl (by simp [hp]))
  | throws t hp => exact key rfl rfl (.inl (by simp [hp]))
  | checked t hp => exact key rfl rfl (.inl (by simp [hp]))
  | add t hp => exact key rfl rfl (.inl (by simp [hp]))
  | remove t hp hl hu => exact key rfl rfl (.inr hu)
  | release t hp => exact key rfl rfl (.inl (by simp [hp]))

/-- The destructor of a subscription ends, or its constructor throws. -/
theorem erase {u : Nat} {v : Subscription} (h : Users s) (f : SubFrame s s')
    (ht : s'.tokens = update s.tokens (s.subs u).token
      { s.tokens (s.subs u).token with users := (s.tokens (s.subs u).token).users.erase u })
    (hs : s'.subs = update s.subs u v) (hv : v.phase.refers = false) : Users s' := by
  have hother : ∀ t d, d ≠ u → (((s'.subs d).token = t ∧ (s'.subs d).phase.refers = true) ↔
      ((s.subs d).token = t ∧ (s.subs d).phase.refers = true)) := fun t d hd => by
    rw [hs, update_of_ne hd]
  have hself : ∀ t, ¬((s'.subs u).token = t ∧ (s'.subs u).phase.refers = true) := fun t hu => by
    rw [hs, update_self, hv] at hu
    cases hu.2
  refine .of_rosters (fun t => ?_) fun t hn => ?_
  · by_cases htu : t = (s.subs u).token
    · rw [ht, htu, update_self]
      exact (h.roster _).erase (hself _) (hother _)
    · rw [ht, update_of_ne htu]
      exact (h.roster t).keep (c := u) (iff_of_false (hself t) fun hu => htu hu.1.symm) (hother t)
  · rw [f.phase]
    refine h.live t fun he => hn ?_
    rw [ht]
    by_cases htu : t = (s.subs u).token
    · rw [htu] at he ⊢
      simp [he]
    · rw [update_of_ne htu, he]

theorem sub {e : Ev} (h : Users s) (hm : SubMove s e s') : Users s' := by
  have f := hm.frame
  -- the subscription refers to its token before and after the step
  have key : ∀ {u : Nat} {w : Subscription}, s'.subs = update s.subs u w →
      w.token = (s.subs u).token → w.phase.refers = (s.subs u).phase.refers →
      (∀ t, (s'.tokens t).users = (s.tokens t).users) → Users s' := by
    intro u w hs hw hr ht
    refine h.keep ht (fun t _ => f.phase t) fun d => ?_
    rw [hs]
    exact update_rel
      (r := fun (a b : Subscription) => b.token = a.token ∧ b.phase.refers = a.phase.refers)
      (fun _ => ⟨rfl, rfl⟩) ⟨hw, hr⟩ d
  cases hm with
  | begin u t hlive hp =>
    have hnot : ∀ t', ¬((s.subs u).token = t' ∧ (s.subs u).phase.refers = true) := fun t' hu => by
      rw [hp] at hu
      cases hu.2
    refine .of_rosters (fun t' => ?_) fun t' hn => ?_
    · by_cases ht : t' = t
      · rw [ht]
        simp only [update_self]
        exact (h.roster t).cons (hnot t) (by simp [SubPhase.refers]) fun d hd => by simp [hd]
      · simp only [update_of_ne ht]
        refine (h.roster t').keep (c := u) (iff_of_false ?_ (hnot t')) fun d hd => by simp [hd]
        simpa using fun he => absurd he.symm ht
    · by_cases ht : t' = t
      · rw [f.phase, ht]
        exact hlive
      · simp only [update_of_ne ht] at hn
        rw [f.phase]
        exact h.live t' hn
  | throws u hp => exact h.erase f rfl rfl rfl
  | done u hp => exact h.erase f rfl rfl rfl
  | checked u hp => exact key rfl rfl (by rw [hp]; rfl) fun _ => rfl
  | add u hp => exact key rfl rfl (by rw [hp]; rfl) fun t => update_proj Token.users (by rfl) t
  | remove u hp => exact key rfl rfl (by rw [hp]; rfl) fun t => update_proj Token.users (by rfl) t
  | callback u => exact key rfl rfl rfl fun _ => rfl
  | complete u => exact key rfl rfl rfl fun _ => rfl

theorem move {e : Ev} (h : Users s) (hi : Inv s) (hm : Move s e s') : Users s' := by
  cases hm with
  | source hm =>
    have f := hm.frame hi.born.body
    exact h.keep (fun t => by rw [f.tokens]) (fun t _ => by rw [f.tokens]) fun u => by
      rw [f.subs]
      exact ⟨rfl, rfl⟩
  | token hm => exact h.token hi hm
  | sub hm => exact h.sub hm
  | call k _ hm =>
    have f := hm.frame
    exact h.keep f.users (fun t _ => f.tokenPhase t) fun u => ⟨f.subToken u, by rw [f.subPhase]⟩

end Users

theorem reach_users {s : St} (h : sys.Reach s) : Users s :=
  h.rec_on (fun _ h => reach_inv h) .init fun _ _ _ hi h _ hst => h.move hi (step_move hst)

/-- The token of a live subscription is alive. -/
theorem Users.token_live {s : St} (h : Users s) {u : Nat} (hu : (s.subs u).phase = .live) :
    (s.tokens (s.subs u).token).phase = .live := by
  refine h.live _ fun hn => ?_
  have : u ∈ (s.tokens (s.subs u).token).users :=
    (h.mem _ u).mpr ⟨rfl, by simp [hu, SubPhase.refers]⟩
  rw [hn] at this
  cases this

/-! ## A callback is run at most once -/

/-- The number of runs (module doc). -/
structure Runs (s : St) : Prop where
  fresh : ∀ u, (s.tokens (s.subs u).token).cancelled = false → (s.subs u).runs = 0
  todo : ∀ k t, (s.calls k).pc.at? = some t →
    ∀ u ∈ (s.calls k).pc.toRun (s.tokens t).callbacks, (s.subs u).runs = 0
  le : ∀ u, (s.subs u).runs ≤ 1

theorem Runs.init : Runs ({} : St) := by
  constructor <;> simp

theorem CallKept.toRun {c c' : Call} (h : CallKept c c') (all : List Nat) :
    c'.pc.toRun all = c.pc.toRun all :=
  h.pc_eq (fun pc => pc.toRun all) rfl fun _ _ _ => rfl

theorem CallKept.at? {c c' : Call} (h : CallKept c c') : c'.pc.at? = c.pc.at? :=
  h.pc_eq _ rfl fun _ _ _ => rfl

theorem Runs.source {s s' : St} (h : Runs s) (f : SourceFrame s s') : Runs s' := by
  refine ⟨fun u hc => ?_, fun k t hat u hu => ?_, fun u => ?_⟩
  · rw [f.subs, f.tokens] at hc
    rw [f.subs]
    exact h.fresh u hc
  · rw [(f.calls k).at?] at hat
    rw [f.tokens, (f.calls k).toRun] at hu
    rw [f.subs]
    exact h.todo k t hat u hu
  · rw [f.subs]
    exact h.le u

theorem Runs.token {s s' : St} {e : Ev} (h : Runs s) (hi : Inv s) (hm : TokenMove s e s') :
    Runs s' := by
  have f := hm.frame
  refine ⟨fun u hc => ?_, fun k t hat u hu => ?_, fun u => ?_⟩
  · rw [f.subs] at hc ⊢
    by_cases hu : (s.subs u).phase = .unborn
    · rw [hi.born.sub u hu]
    · -- the token of a subscription is constructed, and its flag is not touched
      have ht := hi.born.subToken u hu
      rw [(hm.flag _).1 (fun hp => by rw [hp] at ht; cases ht)
        fun hp => by rw [hp] at ht; cases ht] at hc
      exact h.fresh u hc
  · rw [f.calls] at hat hu
    have hlive := hi.born_at k t (.inr hat)
    rw [(hm.kept (by simp [hlive])).callbacks] at hu
    rw [f.subs]
    exact h.todo k t hat u hu
  · rw [f.subs]
    exact h.le u

theorem Runs.sub {s s' : St} {e : Ev} (h : Runs s) (hi : Inv s) (hm : SubMove s e s') :
    Runs s' := by
  have f := hm.frame
  have hruns := hm.runs hi.born.sub
  refine ⟨fun u hc => ?_, fun k t hat u hu => ?_, fun u => ?_⟩
  · rw [(hruns u).1]
    rcases (hruns u).2 with hp | ht
    · rw [hi.born.sub u hp]
    · rw [ht, f.cancelled] at hc
      exact h.fresh u hc
  · rw [f.calls] at hat hu
    have hl := (hi.current.lock t k).mpr hat
    rw [(hm.callbacks t).resolve_right (by simp [hl])] at hu
    rw [(hruns u).1]
    exact h.todo k t hat u hu
  · rw [(hruns u).1]
    exact h.le u

/-- What a call still has to run are callbacks of the token that it is at. -/
theorem Current.toRun_mem {s : St} (h : Current s) {k t u : Nat}
    (hat : (s.calls k).pc.at? = some t) (hu : u ∈ (s.calls k).pc.toRun (s.tokens t).callbacks) :
    u ∈ (s.tokens t).callbacks := by
  have hs := h.subs k t hat u
  cases hpc : (s.calls k).pc with
  | promise t' todo =>
    rw [hpc] at hu
    exact hu
  | callbacks t' subs todo =>
    rw [hpc] at hu hs
    exact hs hu
  | submit t' u' subs todo =>
    rw [hpc] at hu hs
    exact hs hu
  | _ =>
    rw [hpc] at hu
    cases hu

section Call

variable {s s' : St} {k : Nat}

/-- What a call still has to run after a step, it had to run before, unless it comes to the token
only now. -/
theorem CallMove.toRun (hm : CallMove s k (s.calls k).body s') {t : Nat}
    (hat : (s'.calls k).pc.at? = some t) :
    ((s.calls k).pc.at? = some t ∧ (s'.calls k).pc.toRun (s.tokens t).callbacks ⊆
      (s.calls k).pc.toRun (s.tokens t).callbacks) ∨
    ∃ todo, (s.calls k).pc = .tokens (t :: todo) := by
  have hnone : ∀ {pc : CancelPc}, (s'.calls k).pc = pc → pc.at? = none → False := by
    rintro _ rfl hn
    rw [hat] at hn
    cases hn
  have key : ∀ {pc pc' : CancelPc}, (s.calls k).pc = pc → (s'.calls k).pc = pc' →
      pc'.at? = pc.at? → pc'.toRun (s.tokens t).callbacks ⊆ pc.toRun (s.tokens t).callbacks →
      (s.calls k).pc.at? = some t ∧ (s'.calls k).pc.toRun (s.tokens t).callbacks ⊆
        (s.calls k).pc.toRun (s.tokens t).callbacks := by
    rintro _ _ rfl rfl ha hsub
    exact ⟨ha ▸ hat, hsub⟩
  have hcallbacks : ∀ {x todo}, (s'.calls k).pc = .callbacks x (s.tokens x).callbacks todo →
      x = t := by
    intro x todo hpc
    rw [hpc] at hat
    exact Option.some.inj hat
  cases hm with
  | again => exact (hnone (leave_pc ..) rfl).elim
  | relatedDone => exact (hnone (leave_pc ..) rfl).elim
  | enter => exact (hnone (goto_pc ..) rfl).elim
  | tokensDone => exact (hnone (goto_pc ..) rfl).elim
  | tokenDone => exact (hnone (goto_pc ..) rfl).elim
  | skip => exact (hnone (goto_pc ..) rfl).elim
  | nestedDone => exact (hnone (goto_pc ..) rfl).elim
  | token x todo hpc =>
    have hat : ((s.goto k (.promise x todo)).calls k).pc.at? = some t := hat
    rw [goto_pc] at hat
    cases hat
    exact .inr ⟨todo, hpc⟩
  | noPromise x todo hpc =>
    have hx := hcallbacks (goto_pc ..)
    exact .inl (key hpc (goto_pc ..) rfl (hx ▸ List.Subset.refl _))
  | promise x p todo hpc =>
    have hx := hcallbacks (goto_pc ..)
    exact .inl (key hpc (goto_pc ..) rfl (hx ▸ List.Subset.refl _))
  | run x u subs todo hpc =>
    exact .inl (key hpc (goto_pc ..) rfl (List.subset_cons_self u subs))
  | submit x u subs todo hpc => exact .inl (key hpc (goto_pc ..) rfl (List.Subset.refl _))

/-- The callback that a call runs was not run before, and no call has to run it any more. -/
theorem Runs.last (h : Runs s) (hi : Inv s) {t u : Nat} {subs todo : List Nat}
    (hpc : (s.calls k).pc = .callbacks t (u :: subs) todo) :
    (s.subs u).runs = 0 ∧ (s.tokens (s.subs u).token).cancelled = true ∧ u ∉ subs ∧
    ∀ k' t', (s.calls k').pc.at? = some t' →
      u ∈ (s.calls k').pc.toRun (s.tokens t').callbacks → k' = k := by
  have hat : (s.calls k).pc.at? = some t := by rw [hpc]; rfl
  have hmem := hi.current.subs k t hat u (by rw [hpc]; exact List.mem_cons_self)
  have hn := hi.current.nodup k
  rw [hpc] at hn
  refine ⟨h.todo k t hat u (by rw [hpc]; exact List.mem_cons_self), ?_,
    (List.nodup_cons.mp hn).1, fun k' t' hat' hu => ?_⟩
  · rw [((hi.registered.sub t u).mp hmem).2]
    exact hi.current.flag k t hat
  · -- a token has one call in its callbacks, and no call runs another token's
    have hmem' := hi.current.toRun_mem hat' hu
    have ht : t' = t := by
      rw [hi.registered.sub] at hmem hmem'
      exact hmem'.2.symm.trans hmem.2
    exact hi.current.alone hat (ht ▸ hat')

theorem Runs.call (h : Runs s) (hi : Inv s) (hu : Untouched s)
    (hm : CallMove s k (s.calls k).body s') : Runs s' := by
  have f := hm.frame
  have hclear : ∀ t, (s'.tokens t).cancelled = false → (s.tokens t).cancelled = false := by
    intro t hc
    by_contra hn
    rw [f.flag t (by simpa using hn)] at hc
    cases hc
  refine ⟨fun u hc => ?_, fun k' t hat u hmem => ?_, fun u => ?_⟩
  · rw [f.subToken] at hc
    rcases hm.runs u with hr | ⟨t, subs, todo, hpc, -, -⟩
    · rw [hr]
      exact h.fresh u (hclear _ hc)
    · have hflag := (h.last hi hpc).2.1
      rw [hclear _ hc] at hflag
      cases hflag
  · rw [f.callbacks] at hmem
    -- what is to be run after the step was not run before
    have hold : (s.subs u).runs = 0 := by
      by_cases hk : k' = k
      · rw [hk] at hat hmem
        rcases hm.toRun hat with ⟨hat', hsub⟩ | ⟨todo, hpc⟩
        · exact h.todo k t hat' u (hsub hmem)
        · -- the token is cancelled for the first time, so none of its callbacks was run
          have hmem' : u ∈ (s'.tokens t).callbacks := by
            refine (hi.current.call_move hi.registered hm).toRun_mem hat ?_
            rwa [f.callbacks]
          rw [f.callbacks, hi.registered.sub] at hmem'
          refine h.fresh u ?_
          rw [hmem'.2]
          exact hu.todo k t (by rw [hpc]; exact List.mem_cons_self)
      · rw [f.other k' hk] at hat hmem
        exact h.todo k' t hat u hmem
    rcases hm.runs u with hr | ⟨x, subs, todo, hpc, hpc', -⟩
    · rw [hr, hold]
    · obtain ⟨-, -, hnot, hone⟩ := h.last hi hpc
      by_cases hk : k' = k
      · rw [hk, hpc'] at hmem
        exact absurd hmem hnot
      · rw [f.other k' hk] at hat hmem
        exact absurd (hone k' t hat hmem) hk
  · rcases hm.runs u with hr | ⟨t, subs, todo, hpc, -, hr⟩
    · rw [hr]
      exact h.le u
    · have := (h.last hi hpc).1
      omega

end Call

theorem Runs.move {s s' : St} {e : Ev} (h : Runs s) (hi : Inv s) (hu : Untouched s)
    (hm : Move s e s') : Runs s' := by
  cases hm with
  | source hm => exact h.source (hm.frame hi.born.body)
  | token hm => exact h.token hi hm
  | sub hm => exact h.sub hi hm
  | call k _ hm => exact h.call hi hu hm

theorem reach_runs {s : St} (h : sys.Reach s) : Runs s := by
  refine h.rec_on (I := fun s => Inv s ∧ Untouched s)
    (fun _ h => ⟨reach_inv h, reach_untouched h⟩) .init ?_
  exact fun _ _ _ hi h _ hst => h.move hi.1 hi.2 (step_move hst)

/-! ## A live subscription of a cancelled token is run -/

/-- The step adds no token to a cancelled body, and no subscription to a cancelled token. -/
def subInTime (s : St) (e : Ev) : Bool :=
  inTime s e && match e with
    | .subAdd u => !(s.tokens (s.subs u).token).isCancelled
    | _ => true

/-- The callbacks of token `t` that the call in the middle of cancelling it still has to run. -/
def runList (s : St) (t : Nat) : List Nat :=
  match (s.tokens t).lock with
  | none => []
  | some k => (s.calls k).pc.toRun (s.tokens t).callbacks

theorem mem_runList {s : St} {t u : Nat} : u ∈ runList s t ↔
    ∃ k, (s.tokens t).lock = some k ∧ u ∈ (s.calls k).pc.toRun (s.tokens t).callbacks := by
  unfold runList
  cases (s.tokens t).lock <;> simp

/-- The live subscriptions of cancelled tokens (module doc). -/
def Running (s : St) : Prop :=
  ∀ u, (s.subs u).phase = .live → (s.tokens (s.subs u).token).cancelled = true →
    u ∉ runList s (s.subs u).token → (s.subs u).runs = 1

/-- `Running`, of one subscription. -/
def RunningAt (s : St) (u : Nat) : Prop :=
  (s.subs u).phase = .live → (s.tokens (s.subs u).token).cancelled = true →
    u ∉ runList s (s.subs u).token → (s.subs u).runs = 1

theorem RunningAt.init (u : Nat) : RunningAt ({} : St) u := by
  simp [RunningAt]

/-- A step that does not add the subscription to a cancelled token, runs it if it takes it off a
list, and puts it on one if it cancels its token. -/
theorem RunningAt.step {s s' : St} {u : Nat} (h : RunningAt s u)
    (hlive : (s'.subs u).phase = .live → (s'.tokens (s'.subs u).token).cancelled = true →
      (s.subs u).phase = .live)
    (htoken : (s.subs u).phase = .live → (s'.subs u).token = (s.subs u).token)
    (hcancelled : (s.subs u).phase = .live → (s'.tokens (s.subs u).token).cancelled = true →
      (s.tokens (s.subs u).token).cancelled = true ∨ u ∈ runList s' (s.subs u).token)
    (hruns : (s.subs u).phase = .live → (s.subs u).runs = 1 → (s'.subs u).runs = 1)
    (htodo : ∀ k, (s.subs u).phase = .live → (s.tokens (s.subs u).token).lock = some k →
      u ∈ (s.calls k).pc.toRun (s.tokens (s.subs u).token).callbacks →
      ((s'.tokens (s.subs u).token).lock = some k ∧
        u ∈ (s'.calls k).pc.toRun (s'.tokens (s.subs u).token).callbacks) ∨
      (s'.subs u).runs = 1) : RunningAt s' u := by
  intro hl hc hn
  have hl := hlive hl hc
  rw [htoken hl] at hc hn
  rcases hcancelled hl hc with hc | hc
  · by_cases hu : u ∈ runList s (s.subs u).token
    · obtain ⟨k, hk, hu⟩ := mem_runList.mp hu
      exact (htodo k hl hk hu).resolve_left fun hu => hn (mem_runList.mpr ⟨k, hu⟩)
    · exact hruns hl (h hl hc hu)
  · exact absurd hc hn

theorem RunningAt.source {s s' : St} {u : Nat} (h : RunningAt s u) (f : SourceFrame s s') :
    RunningAt s' u := by
  refine h.step (fun hl _ => f.subs ▸ hl) (fun _ => by rw [f.subs])
    (fun _ hc => .inl (f.tokens ▸ hc)) (fun _ hr => f.subs ▸ hr)
    fun k _ hk hu => .inl ⟨f.tokens ▸ hk, ?_⟩
  rwa [f.tokens, (f.calls k).toRun]

theorem RunningAt.token {s s' : St} {e : Ev} {u : Nat} (h : RunningAt s u) (hu : Users s)
    (hm : TokenMove s e s') : RunningAt s' u := by
  have f := hm.frame
  have hne : (s.subs u).phase = .live → (s.tokens (s.subs u).token).phase ≠ .unborn ∧
      (s.tokens (s.subs u).token).phase ≠ .begun := by
    intro hl
    rw [hu.token_live hl]
    exact ⟨by simp, by simp⟩
  refine h.step (fun hl _ => f.subs ▸ hl) (fun _ => by rw [f.subs])
    (fun hl hc => .inl ?_) (fun _ hr => f.subs ▸ hr) fun k hl hk hmem => .inl ?_
  · rwa [← (hm.flag _).1 (hne hl).1 (hne hl).2]
  · have hkept := hm.kept (hne hl).1
    rw [hkept.lock, hkept.callbacks, f.calls]
    exact ⟨hk, hmem⟩

theorem RunningAt.sub {s s' : St} {e : Ev} {u : Nat} (h : RunningAt s u) (hi : Inv s)
    (hok : e = .subAdd u → (s.tokens (s.subs u).token).cancelled = false)
    (hm : SubMove s e s') : RunningAt s' u := by
  have f := hm.frame
  have hruns := hm.runs hi.born.sub
  have htoken (hl : (s.subs u).phase = .live) : (s'.subs u).token = (s.subs u).token :=
    (hruns u).2.resolve_left (by simp [hl])
  refine h.step (fun hl hc => ?_) htoken (fun _ hc => .inl (f.cancelled _ ▸ hc))
    (fun _ hr => (hruns u).1.trans hr) fun k _ hk hmem => .inl ?_
  · -- the subscription is not added to a cancelled token
    have key := fun (x : Nat) (v : Subscription) => update_rel (m := s.subs) (i := x) (v := v)
      (j := u) (r := fun a b => b.phase = .live → a.phase = .live) fun _ hl => hl
    rw [f.cancelled] at hc
    have hadd : (s.subs u).phase = .live ∨ (s'.subs u).token = (s.subs u).token ∧
        (s.tokens (s.subs u).token).cancelled = false := by
      cases hm with
      | begin => exact .inl (key _ _ (fun hl => by cases hl) hl)
      | throws => exact .inl (key _ _ (fun hl => by cases hl) hl)
      | checked => exact .inl (key _ _ (fun hl => by cases hl) hl)
      | remove => exact .inl (key _ _ (fun hl => by cases hl) hl)
      | done => exact .inl (key _ _ (fun hl => by cases hl) hl)
      | callback =>
        refine .inl (key _ _ ?_ hl)
        exact fun hl => hl
      | complete =>
        refine .inl (key _ _ ?_ hl)
        exact fun hl => hl
      | add x hp =>
        by_cases hx : x = u
        · subst hx
          exact .inr ⟨by simp, hok rfl⟩
        · exact .inl (by simpa [update_of_ne (Ne.symm hx)] using hl)
    rcases hadd with hp | ⟨ht, hc'⟩
    · exact hp
    · rw [ht, hc'] at hc
      cases hc
  · rw [f.lock, f.calls, (hm.callbacks _).resolve_right (by simp [hk])]
    exact ⟨hk, hmem⟩

section Call

variable {s s' : St} {k : Nat}

/-- The lock of a token that another call is at stays with that call. -/
theorem CallMove.lock_other (hm : CallMove s k (s.calls k).body s') (hc : Current s) {k' t : Nat}
    (hk : k' ≠ k) (hl : (s.tokens t).lock = some k') : (s'.tokens t).lock = some k' := by
  have f := hm.frame
  have hat : (s.calls k').pc.at? = some t := (hc.lock t k').mp hl
  cases hm with
  | token x todo hpc hfree =>
    have hne : t ≠ x := by
      rintro rfl
      rw [hfree] at hl
      cases hl
    exact (congrArg Token.lock (update_of_ne hne ..)).trans hl
  | tokenDone x todo hpc =>
    have hne : t ≠ x := by
      rintro rfl
      exact hk (hc.alone (by rw [hpc]; rfl) hat)
    exact (congrArg Token.lock (update_of_ne hne ..)).trans hl
  | _ => exact hl

/-- The call keeps its token while it has callbacks to run, and takes the next one off its list only
to run it. -/
theorem CallMove.list (hm : CallMove s k (s.calls k).body s') {t u : Nat}
    (hat : (s.calls k).pc.at? = some t) (hl : (s.tokens t).lock = some k)
    (hu : u ∈ (s.calls k).pc.toRun (s.tokens t).callbacks) :
    ((s'.tokens t).lock = some k ∧ u ∈ (s'.calls k).pc.toRun (s.tokens t).callbacks) ∨
    (s'.subs u).runs = (s.subs u).runs + 1 := by
  have hnone : ∀ {pc : CancelPc}, (s.calls k).pc = pc → pc.at? = none → False := by
    rintro _ rfl hn
    rw [hat] at hn
    cases hn
  cases hm with
  | again hpc => exact (hnone hpc rfl).elim
  | enter hpc => exact (hnone hpc rfl).elim
  | tokensDone hpc => exact (hnone hpc rfl).elim
  | token x todo hpc => exact (hnone hpc rfl).elim
  | relatedDone hpc => exact (hnone hpc rfl).elim
  | skip c todo hpc => exact (hnone hpc rfl).elim
  | nestedDone c k' todo hpc => exact (hnone hpc rfl).elim
  | tokenDone x todo hpc =>
    rw [hpc] at hu
    cases hu
  | noPromise x todo hpc =>
    rw [hpc] at hat hu
    cases hat
    refine .inl ⟨hl, ?_⟩
    rw [goto_pc]
    exact hu
  | promise x p todo hpc =>
    rw [hpc] at hat hu
    cases hat
    refine .inl ⟨hl, ?_⟩
    show u ∈ ((s.goto k _).calls k).pc.toRun _
    rw [goto_pc]
    exact hu
  | run x v subs todo hpc =>
    rw [hpc] at hu
    rcases List.mem_cons.mp hu with rfl | hu
    · exact .inr (by simp)
    · refine .inl ⟨hl, ?_⟩
      show u ∈ ((s.goto k _).calls k).pc.toRun _
      rw [goto_pc]
      exact hu
  | submit x v subs todo hpc =>
    rw [hpc] at hu
    refine .inl ⟨hl, ?_⟩
    show u ∈ ((s.goto k _).calls k).pc.toRun _
    rw [goto_pc]
    exact hu

theorem RunningAt.call {u : Nat} (h : RunningAt s u) (hi : Inv s) (hr : Runs s)
    (hm : CallMove s k (s.calls k).body s') : RunningAt s' u := by
  have f := hm.frame
  refine h.step (fun hl _ => f.subPhase u ▸ hl) (fun _ => f.subToken u)
    (fun hl hc => ?_) (fun _ h1 => ?_) fun k' hl hk hmem => ?_
  · rcases hm.flag (s.subs u).token with hflag | ⟨todo, hpc, hpc'⟩
    · exact .inl (hflag ▸ hc)
    · -- the list of the call is all live subscriptions of the token
      refine .inr (mem_runList.mpr ⟨k, ?_, ?_⟩)
      · exact ((hi.current.call_move hi.registered hm).lock _ k).mpr (by rw [hpc']; rfl)
      · rw [hpc', f.callbacks]
        exact (hi.registered.sub _ u).mpr ⟨hl, rfl⟩
  · rcases hm.runs u with hsame | ⟨t, subs, todo, hpc, -, -⟩
    · rw [hsame, h1]
    · rw [(hr.last hi hpc).1] at h1
      cases h1
  · rw [f.callbacks]
    by_cases hne : k' = k
    · subst hne
      have hat := (hi.current.lock _ k').mp hk
      refine (hm.list hat hk hmem).imp id fun h1 => ?_
      rw [h1, hr.todo k' _ hat u hmem]
    · rw [f.other k' hne]
      exact .inl ⟨hm.lock_other hi.current hne hk, hmem⟩

end Call

theorem RunningAt.move {s s' : St} {e : Ev} {u : Nat} (h : RunningAt s u) (hi : Inv s)
    (hu : Users s) (hr : Runs s)
    (hok : e = .subAdd u → (s.tokens (s.subs u).token).cancelled = false) (hm : Move s e s') :
    RunningAt s' u := by
  cases hm with
  | source hm => exact h.source (hm.frame hi.born.body)
  | token hm => exact h.token hu hm
  | sub hm => exact h.sub hi hok hm
  | call k _ hm => exact h.call hi hr hm

theorem reach_running {s : St} (h : sys.ReachBy (fun s e => subInTime s e) s) : Running s := by
  refine h.rec_on (I := fun s => Inv s ∧ Users s ∧ Runs s)
    (fun _ h => ⟨reach_inv h.reach, reach_users h.reach, reach_runs h.reach⟩) RunningAt.init ?_
  intro s e s' ⟨hi, hu, hr⟩ h hok hst u
  refine RunningAt.move (h u) hi hu hr (fun he => ?_) (step_move hst)
  subst he
  simpa [subInTime, inTime, Token.isCancelled] using hok

/-! ## Results -/

/-- The one run of a subscription stays the only one. -/
theorem runs_later {s s' : St} (hs : sys.Reach s) (u : Nat)
    (h : (s.subs u).runs = 1) (hl : sys.Later (fun _ _ => True) s s') : (s'.subs u).runs = 1 := by
  refine Sys.Later.keep (I := fun s => Inv s ∧ Runs s) (P := fun s => (s.subs u).runs = 1)
    (fun _ h => ⟨reach_inv h, reach_runs h⟩) ?_ hs hl h
  intro s e s' ⟨hi, hr⟩ h _ hst
  cases step_move hst with
  | source hm =>
    rw [(hm.frame hi.born.body).subs]
    exact h
  | token hm =>
    rw [hm.frame.subs]
    exact h
  | sub hm => exact (hm.runs hi.born.sub u).1.trans h
  | call k _ hm =>
    rcases hm.runs u with hsame | ⟨t, subs, todo, hpc, -, -⟩
    · exact hsame.trans h
    · -- what a call runs has not been run before
      rw [(hr.last hi hpc).1] at h
      cases h

/-- **No cancellation callback is lost** when tokens and subscriptions are added in time: once a
`cancel()` of the source has returned, a live subscription was run, and is not run again. -/
theorem callback_run {s : St} (h : sys.ReachBy (fun s e => subInTime s e) s) {u k : Nat}
    (hu : (s.subs u).phase = .live)
    (hk : (s.calls k).body = (s.tokens (s.subs u).token).body) (hd : (s.calls k).pc = .done) :
    ∀ s', sys.Later (fun _ _ => True) s s' → (s'.subs u).runs = 1 := by
  have hi := reach_inv h.reach
  have hlive := (reach_users h.reach).token_live hu
  have hin : sys.ReachBy (fun s e => inTime s e) s := by
    refine h.mono fun s e hok => ?_
    unfold subInTime at hok
    exact (Bool.and_eq_true_iff.mp hok).1
  have hc := (token_told hin hlive hk hd).1
  have hn : u ∉ runList s (s.subs u).token := by
    intro hmem
    -- a call at the token holds the lock of its body
    obtain ⟨k', hl, -⟩ := mem_runList.mp hmem
    have hat := (hi.current.lock _ k').mp hl
    have hb := ((hi.registered.token _ _).mp (hi.current.tokenAt k' _ hat)).2
    refine hi.locks.first k' k ?_ (hk.trans hb) hd
    cases hpc : (s.calls k').pc <;> simp_all [CancelPc.at?, CancelPc.holds]
  exact fun s' hl => runs_later h.reach u (reach_running h u hu hc hn) hl

/-- A subscription is constructed, and the source is cancelled. -/
def subRun : List Ev :=
  [.newSource 0, .tokenBegin 0 0 none, .tokenRead 0, .tokenCheck 0, .tokenAdd 0, .subBegin 0 0,
    .subCheck 0, .subAdd 0, .cancel 0 0, .call 0, .call 0, .call 0, .call 0, .call 0, .call 0,
    .call 0, .call 0]

theorem callback_run_once : ((sys.after subRun).subs 0).runs = 1 :=
  callback_run (k := 0) (Sys.reachBy_meets (by decide)) (by decide) (by decide) (by decide) _ .refl

/-- The source is cancelled between the subscription's check and its `add()`. -/
def lateSubRun : List Ev :=
  [.newSource 0, .tokenBegin 0 0 none, .tokenRead 0, .tokenCheck 0, .tokenAdd 0, .subBegin 0 0,
    .subCheck 0, .cancel 0 0, .call 0, .call 0, .call 0, .call 0, .call 0, .call 0, .subAdd 0]

/-- A `cancel()` between the check and the `add()` of a subscription's constructor is lost. -/
theorem late_subscription : ¬ ∀ s, sys.Reach s → ∀ u k, (s.subs u).phase = .live →
    (s.calls k).body = (s.tokens (s.subs u).token).body → (s.calls k).pc = .done →
    (s.subs u).runs = 1 := by
  intro h
  have := h (sys.after lateSubRun) (Sys.reach_after (by decide)) 0 0 (by decide) (by decide)
    (by decide)
  revert this
  decide

end Cancel

end Corsl
