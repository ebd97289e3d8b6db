import Corsl.Cancel.Invariants

/-!
# A token learns of the cancellation of its source

* `Told`: the token's flag is set, and the promise of its coroutine is cancelled.
* `inTime`: a constructor's `add_token` does not run on a body that is cancelled already. The
  constructor reads the body's flag in one section and adds the token in a later one, so a
  `cancel()` in between meets neither.
* `Telling`: a live token of a cancelled body is told, or the call that cancels the body still has
  it on its list.

`token_told` is the result for the runs whose steps are in time; `late_token` shows the token that
a whole `cancel()` between the two sections leaves out.
-/

namespace Corsl

open Conc Function

namespace Cancel

/-- Token `t` is cancelled, and so is the promise of its coroutine. -/
def Told (s : St) (t : Nat) : Prop :=
  (s.tokens t).cancelled = true ∧
    ∀ p, (s.tokens t).coro = some p → (s.promises p).cancelled = true

/-- The step adds no token to a body that is cancelled already. -/
def inTime (s : St) : Ev → Bool
  | .tokenAdd t => !(s.bodies (s.tokens t).body).isCancelled
  | _ => true

/-- The tokens of body `b` that the call in the middle of cancelling it still has to tell. -/
def toTell (s : St) (b : Nat) : List Nat :=
  match (s.bodies b).lock with
  | none => []
  | some k => (s.calls k).pc.tokensTodo

theorem mem_toTell {s : St} {b t : Nat} :
    t ∈ toTell s b ↔ ∃ k, (s.bodies b).lock = some k ∧ t ∈ (s.calls k).pc.tokensTodo := by
  unfold toTell
  cases (s.bodies b).lock <;> simp

/-- The tokens of cancelled bodies (module doc). -/
def Telling (s : St) : Prop :=
  ∀ t, (s.tokens t).phase = .live → (s.bodies (s.tokens t).body).cancelled = true →
    t ∉ toTell s (s.tokens t).body → Told s t

theorem Telling.init : Telling ({} : St) := by
  simp [Telling]

/-- A step that makes no token of a cancelled body live, tells the tokens that it takes off a list,
and puts the tokens of a body that it cancels on one. -/
theorem Telling.step {s s' : St} (h : Telling s)
    (hlive : ∀ t, (s'.tokens t).phase = .live →
      (s'.bodies (s'.tokens t).body).cancelled = true → (s.tokens t).phase = .live)
    (hbody : ∀ t, (s.tokens t).phase = .live → (s'.tokens t).body = (s.tokens t).body)
    (hcancelled : ∀ t, (s.tokens t).phase = .live →
      (s'.bodies (s.tokens t).body).cancelled = true →
      (s.bodies (s.tokens t).body).cancelled = true ∨ t ∈ toTell s' (s.tokens t).body)
    (htold : ∀ t, (s.tokens t).phase = .live → Told s t → Told s' t)
    (htodo : ∀ t k, (s.bodies (s.tokens t).body).lock = some k → t ∈ (s.calls k).pc.tokensTodo →
      ((s'.bodies (s.tokens t).body).lock = some k ∧ t ∈ (s'.calls k).pc.tokensTodo) ∨ Told s' t) :
    Telling s' := by
  intro t hl hc hn
  have hl := hlive t hl hc
  rw [hbody t hl] at hc hn
  rcases hcancelled t hl hc with hc | hc
  · by_cases ht : t ∈ toTell s (s.tokens t).body
    · obtain ⟨k, hk, ht⟩ := mem_toTell.mp ht
      exact (htodo t k hk ht).resolve_left fun ht => hn (mem_toTell.mpr ⟨k, ht⟩)
    · exact htold t hl (h t hl hc ht)
  · exact absurd hc hn

/-- A step that leaves the lists alone, and cancels no body. -/
theorem Telling.keep {s s' : St} (h : Telling s)
    (hlive : ∀ t, (s'.tokens t).phase = .live →
      (s'.bodies (s'.tokens t).body).cancelled = true → (s.tokens t).phase = .live)
    (hbody : ∀ t, (s.tokens t).phase = .live → (s'.tokens t).body = (s.tokens t).body)
    (hcancelled : ∀ t, (s.tokens t).phase = .live →
      (s'.bodies (s.tokens t).body).cancelled = (s.bodies (s.tokens t).body).cancelled)
    (hlock : ∀ b k, (s.bodies b).lock = some k → (s'.bodies b).lock = some k)
    (htold : ∀ t, (s.tokens t).phase = .live → Told s t → Told s' t)
    (hk : ∀ k, (s'.calls k).pc.tokensTodo = (s.calls k).pc.tokensTodo) : Telling s' := by
  refine h.step hlive hbody (fun t hl hc => .inl ?_) htold (fun t k hl ht => .inl ?_)
  · rw [← hcancelled t hl]
    exact hc
  · exact ⟨hlock _ k hl, hk k ▸ ht⟩

theorem Telling.source {s s' : St} (h : Telling s) (f : SourceFrame s s') : Telling s' := by
  refine h.keep (fun t hl _ => f.tokens ▸ hl) (fun t _ => by rw [f.tokens])
    (fun t _ => f.cancelled _) (fun b k hk => (f.lock b).trans hk) (fun t _ ht => ?_)
    fun k => (f.calls k).pc_eq _ rfl fun _ _ _ => rfl
  unfold Told at ht ⊢
  rwa [f.tokens, f.promises]

theorem Telling.token {s s' : St} {e : Ev} (h : Telling s) (hok : inTime s e)
    (hm : TokenMove s e s') : Telling s' := by
  have f := hm.frame
  have hkept : ∀ {t}, (s.tokens t).phase = .live → TokenKept (s.tokens t) (s'.tokens t) :=
    fun hl => hm.kept (by simp [hl])
  refine h.keep (fun t hl hc => ?_) (fun t hl => (hkept hl).body) (fun t _ => f.cancelled _)
    (fun b k hk => (f.lock b).trans hk) (fun t hl ht => ?_) fun k => by rw [f.calls]
  · rcases (hm.flag t).2.2 hl with hl | ⟨hp, he⟩
    · exact hl
    · -- the step adds `t`, and its body is not cancelled
      rw [he] at hok
      rw [(hm.kept (by simp [hp])).body, f.cancelled] at hc
      simp [inTime, Body.isCancelled, hc] at hok
  · refine ⟨?_, fun p hp => ?_⟩
    · rw [(hm.flag t).1 (by simp [hl]) (by simp [hl])]
      exact ht.1
    · rw [(hkept hl).coro] at hp
      rw [f.promises]
      exact ht.2 p hp

theorem Telling.sub {s s' : St} (h : Telling s) (f : SubFrame s s') : Telling s' := by
  refine h.keep (fun t hl _ => f.phase t ▸ hl) (fun t _ => f.body t) (fun t _ => by rw [f.bodies])
    (fun b k hk => f.bodies ▸ hk) (fun t _ ht => ?_) fun k => by rw [f.calls]
  unfold Told at ht ⊢
  rwa [f.cancelled, f.coro, f.promises]

/-- The tokens that a call has not told yet: those of its body when it enters, and then fewer, as it
cancels the promise of one. -/
theorem CallMove.tokensTodo {s s' : St} {k : Nat} (hm : CallMove s k (s.calls k).body s') :
    (s'.calls k).pc.tokensTodo = (s.calls k).pc.tokensTodo ∨
    (s.calls k).pc = .enter ∨
    ∃ t todo, (s.calls k).pc = .promise t todo ∧ (s'.calls k).pc.tokensTodo = todo ∧
      ∀ p, (s.tokens t).coro = some p → (s'.promises p).cancelled = true := by
  have key : ∀ {pc pc' : CancelPc}, (s.calls k).pc = pc → (s'.calls k).pc = pc' →
      pc'.tokensTodo = pc.tokensTodo →
      (s'.calls k).pc.tokensTodo = (s.calls k).pc.tokensTodo := by
    rintro _ _ rfl rfl he
    exact he
  have htodo : ∀ {t : Nat} {subs todo : List Nat}, (s'.calls k).pc = .callbacks t subs todo →
      (s'.calls k).pc.tokensTodo = todo := by
    intro t subs todo hpc
    rw [hpc]
    rfl
  cases hm with
  | again hpc => exact .inr (.inl hpc)
  | enter hpc => exact .inr (.inl hpc)
  | noPromise t todo hpc hc =>
    refine .inr (.inr ⟨t, todo, hpc, htodo (goto_pc ..), fun p hp => ?_⟩)
    rw [hc] at hp
    cases hp
  | promise t p todo hpc hc =>
    refine .inr (.inr ⟨t, todo, hpc, htodo (goto_pc ..), fun p' hp => ?_⟩)
    obtain rfl : p = p' := Option.some.inj (hc.symm.trans hp)
    simp
  | tokensDone hpc => exact .inl (key hpc (goto_pc ..) rfl)
  | token t todo hpc => exact .inl (key hpc (goto_pc ..) rfl)
  | tokenDone t todo hpc => exact .inl (key hpc (goto_pc ..) rfl)
  | run t u subs todo hpc => exact .inl (key hpc (goto_pc ..) rfl)
  | submit t u subs todo hpc => exact .inl (key hpc (goto_pc ..) rfl)
  | relatedDone hpc => exact .inl (key hpc (leave_pc ..) rfl)
  | skip c todo hpc => exact .inl (key hpc (goto_pc ..) rfl)
  | nestedDone c k' todo hpc => exact .inl (key hpc (goto_pc ..) rfl)

theorem Telling.call {s s' : St} {k : Nat} (h : Telling s) (hi : Inv s)
    (hm : CallMove s k (s.calls k).body s') : Telling s' := by
  have f := hm.frame
  have hi' := hi.move (.call k rfl hm)
  -- a token that a call has on its list, it has while it holds the lock
  have hlist : ∀ {t k'}, t ∈ (s'.calls k').pc.tokensTodo →
      (s'.bodies (s.tokens t).body).lock = some k' := by
    intro t k' ht
    rw [← f.tokenBody]
    exact hi'.todo_holder ht
  have htold : ∀ {t}, Told s t → Told s' t := fun {t} ht =>
    ⟨f.flag t ht.1, fun p hp => hm.promises p (ht.2 p (f.coro t ▸ hp))⟩
  refine h.step (fun t hl _ => f.tokenPhase t ▸ hl) (fun t _ => f.tokenBody t) (fun t hl hc => ?_)
    (fun t _ => htold) fun t k' _ ht => ?_
  · rcases hm.cancels (s.tokens t).body with hsame | ⟨-, -, hpc⟩
    · exact .inl (hsame ▸ hc)
    · -- the list of the call is all live tokens of the body
      have ht : t ∈ (s'.calls k).pc.tokensTodo := by
        rw [hpc]
        exact (hi.registered.token _ t).mpr ⟨hl, rfl⟩
      exact .inr (mem_toTell.mpr ⟨k, hlist ht, ht⟩)
  · by_cases hk : k' = k
    · rw [hk] at ht ⊢
      rcases hm.tokensTodo with hsame | hpc | ⟨t', todo, hpc, hpc', hprom⟩
      · rw [← hsame] at ht
        exact .inl ⟨hlist ht, ht⟩
      · rw [hpc] at ht
        cases ht
      · have hflag := hi.current.flag k t' (by rw [hpc]; rfl)
        rw [hpc] at ht
        rcases List.mem_cons.mp ht with rfl | ht
        · exact .inr ⟨f.flag t hflag, fun p hp => hprom p (f.coro t ▸ hp)⟩
        · rw [← hpc'] at ht
          exact .inl ⟨hlist ht, ht⟩
    · rw [← f.other k' hk] at ht
      exact .inl ⟨hlist ht, ht⟩

theorem Telling.move {s s' : St} {e : Ev} (h : Telling s) (hi : Inv s) (hok : inTime s e)
    (hm : Move s e s') : Telling s' := by
  cases hm with
  | source hm => exact h.source (hm.frame hi.born.body)
  | token hm => exact h.token hok hm
  | sub hm => exact h.sub hm.frame
  | call k _ hm => exact h.call hi hm

theorem reach_telling {s : St} (h : sys.ReachBy (fun s e => inTime s e) s) : Telling s :=
  h.rec_on (fun _ h => reach_inv h.reach) .init
    fun _ _ _ hi h hok hst => h.move hi hok (step_move hst)

/-! ## Results -/

/-- A promise stays cancelled. -/
theorem promise_cancelled_later {s s' : St} (hs : sys.Reach s) (p : Nat)
    (h : (s.promises p).cancelled = true) (hl : sys.Later (fun _ _ => True) s s') :
    (s'.promises p).cancelled = true := by
  refine Sys.Later.keep (P := fun s => (s.promises p).cancelled = true) (fun _ _ => trivial)
    (fun s e s' _ hp _ hst => ?_) hs hl h
  cases step_move hst with
  | source hm => cases hm <;> exact hp
  | token hm => cases hm <;> exact hp
  | sub hm => cases hm <;> exact hp
  | call k _ hm => exact hm.promises p hp

/-- **No cancellation is lost by a token** that is added in time: once a `cancel()` of its body has
returned, a live token is cancelled, and every `co_await` of its coroutine throws from then on. -/
theorem token_told {s : St} (h : sys.ReachBy (fun s e => inTime s e) s) {t k : Nat}
    (ht : (s.tokens t).phase = .live) (hk : (s.calls k).body = (s.tokens t).body)
    (hd : (s.calls k).pc = .done) :
    (s.tokens t).isCancelled = true ∧
    ∀ p, (s.tokens t).coro = some p → (s.promises p).isCancelled = true ∧
      ∀ s', sys.Later (fun _ _ => True) s s' → ∀ (V : Type) (expr : V),
        (s'.promises p).awaitTransform expr = .error .operationCancelled := by
  have hi := reach_inv h.reach
  have hc : (s.bodies (s.tokens t).body).cancelled = true := hk ▸ hi.locks.entered k (.inr hd)
  have hn : t ∉ toTell s (s.tokens t).body := by
    intro hmem
    -- no call on the body returns while another one holds its lock
    obtain ⟨k', hl, -⟩ := mem_toTell.mp hmem
    obtain ⟨hb, hh⟩ := (hi.locks.holder _ k').mp hl
    exact hi.locks.first k' k hh (hk.trans hb.symm) hd
  obtain ⟨hflag, hprom⟩ := reach_telling h t ht hc hn
  exact ⟨hflag, fun p hp => ⟨hprom p hp, fun s' hl V expr =>
    PromiseBase0.awaitTransform_cancelled (promise_cancelled_later h.reach p (hprom p hp) hl) expr⟩⟩

/-- A token of a coroutine is constructed, and its source is cancelled. -/
def tokenRun : List Ev :=
  [.newSource 0, .tokenBegin 0 0 (some 3), .tokenRead 0, .tokenCheck 0, .tokenAdd 0, .cancel 0 0,
    .call 0, .call 0, .call 0, .call 0, .call 0, .call 0]

theorem token_told_run :
    ((sys.after tokenRun).tokens 0).isCancelled = true ∧
    ∀ p, ((sys.after tokenRun).tokens 0).coro = some p →
      ((sys.after tokenRun).promises p).isCancelled = true ∧
      ∀ s', sys.Later (fun _ _ => True) (sys.after tokenRun) s' → ∀ (V : Type) (expr : V),
        (s'.promises p).awaitTransform expr = .error .operationCancelled :=
  token_told (s := sys.after tokenRun) (t := 0) (k := 0) (Sys.reachBy_meets (by decide))
    (by decide) (by decide) (by decide)

/-- The source is cancelled between the token's locked read and its locked `add_token`. -/
def lateRun : List Ev :=
  [.newSource 0, .tokenBegin 0 0 none, .tokenRead 0, .tokenCheck 0, .cancel 0 0, .call 0, .call 0,
    .call 0, .tokenAdd 0]

/-- A `cancel()` between the two sections of a token's constructor is lost. -/
theorem late_token : ¬ ∀ s, sys.Reach s → ∀ t k, (s.tokens t).phase = .live →
    (s.calls k).body = (s.tokens t).body → (s.calls k).pc = .done →
    (s.tokens t).isCancelled = true := by
  intro h
  have := h (sys.after lateRun) (Sys.reach_after (by decide)) 0 0 (by decide) (by decide)
    (by decide)
  revert this
  decide

end Cancel

end Corsl
