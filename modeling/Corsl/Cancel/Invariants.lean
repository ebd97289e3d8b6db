import Corsl.Cancel.Moves
import Corsl.Conc.Roster

/-!
# Invariants of the cancellation system

What holds in every state of every run, and does not depend on who registers when:

* `Born`: what exists refers to what exists; what does not exist has no content.
* `Locks`: the holder of a body's lock is the one call in the middle of cancelling it. The body is
  cancelled from then on, and no call on it has returned before the holder does.
* `Registered`: the tokens of a body are its live tokens, and the callbacks of a token its live
  subscriptions; each is listed once.
* `Current`: the lists that a call goes through hold tokens of its body, subscriptions of its
  token; it holds the lock of the token that it is at, and has set its flag.
-/

namespace Corsl

open Conc Function

namespace Cancel

namespace CancelPc

/-- A call at this place holds its body's lock. -/
@[grind =] def holds : CancelPc → Bool
  | .unborn | .enter | .done => false
  | .tokens _ | .promise _ _ | .callbacks _ _ _ | .submit _ _ _ _ | .related _ | .nested _ _ _ =>
    true

/-- The token that the call is at, whose lock it holds. -/
@[grind =] def at? : CancelPc → Option Nat
  | .promise t _ | .callbacks t _ _ | .submit t _ _ _ => some t
  | .unborn | .enter | .tokens _ | .related _ | .nested _ _ _ | .done => none

/-- The tokens that the call has not told yet: their promise may not be cancelled. -/
@[grind =] def tokensTodo : CancelPc → List Nat
  | .tokens todo | .callbacks _ _ todo | .submit _ _ _ todo => todo
  | .promise t todo => t :: todo
  | .unborn | .enter | .related _ | .nested _ _ _ | .done => []

/-- The callbacks of the token that the call is at and that it has not run yet. -/
@[grind =] def subsTodo : CancelPc → List Nat
  | .callbacks _ subs _ | .submit _ _ subs _ => subs
  | .unborn | .enter | .tokens _ | .promise _ _ | .related _ | .nested _ _ _ | .done => []

/-- The subscription that the call runs. -/
@[grind =] def sub? : CancelPc → Option Nat
  | .submit _ u _ _ => some u
  | .unborn | .enter | .tokens _ | .promise _ _ | .callbacks _ _ _ | .related _ | .nested _ _ _
  | .done => none

/-- The related bodies that the call still goes through. -/
@[grind =] def relatedTodo : CancelPc → List Nat
  | .related todo => todo
  | .nested c _ todo => c :: todo
  | .unborn | .enter | .tokens _ | .promise _ _ | .callbacks _ _ _ | .submit _ _ _ _ | .done => []

end CancelPc

/-- The constructor of the token has returned. -/
@[grind =] def TokenPhase.constructed : TokenPhase → Bool
  | .live | .removed | .gone => true
  | .unborn | .begun | .read | .checked | .threw => false

/-! ## The invariants -/

/-- What exists refers to what exists (module doc). -/
structure Born (s : St) : Prop where
  body : ∀ b, (s.bodies b).phase = .unborn → s.bodies b = {}
  token : ∀ t, (s.tokens t).phase = .unborn → s.tokens t = {}
  tokenBody : ∀ t, (s.tokens t).phase ≠ .unborn → (s.bodies (s.tokens t).body).phase = .ready
  sub : ∀ u, (s.subs u).phase = .unborn → s.subs u = {}
  subToken : ∀ u, (s.subs u).phase ≠ .unborn → (s.tokens (s.subs u).token).phase.constructed
  call : ∀ k, (s.calls k).pc ≠ .unborn → (s.bodies (s.calls k).body).phase = .ready
  parent : ∀ b c, (s.bodies c).parent = some b → (s.bodies b).phase = .ready
  related : ∀ b, ∀ c ∈ (s.bodies b).related, (s.bodies c).phase = .ready
  todo : ∀ k, ∀ c ∈ (s.calls k).pc.relatedTodo, (s.bodies c).phase = .ready

/-- The locks of the bodies (module doc). -/
structure Locks (s : St) : Prop where
  holder : ∀ b k, (s.bodies b).lock = some k ↔ (s.calls k).body = b ∧ (s.calls k).pc.holds
  entered : ∀ k, (s.calls k).pc.holds ∨ (s.calls k).pc = .done →
    (s.bodies (s.calls k).body).cancelled = true
  first : ∀ k k', (s.calls k).pc.holds → (s.calls k').body = (s.calls k).body →
    (s.calls k').pc ≠ .done

/-- The lists of tokens and callbacks (module doc). -/
structure Registered (s : St) : Prop where
  token : ∀ b t, t ∈ (s.bodies b).tokens ↔ (s.tokens t).phase = .live ∧ (s.tokens t).body = b
  tokens : ∀ b, (s.bodies b).tokens.Nodup
  sub : ∀ t u, u ∈ (s.tokens t).callbacks ↔ (s.subs u).phase = .live ∧ (s.subs u).token = t
  subs : ∀ t, (s.tokens t).callbacks.Nodup

/-- Where the calls of `cancel` are (module doc). -/
structure Current (s : St) : Prop where
  tokens : ∀ k, ∀ t ∈ (s.calls k).pc.tokensTodo, t ∈ (s.bodies (s.calls k).body).tokens
  tokenAt : ∀ k t, (s.calls k).pc.at? = some t → t ∈ (s.bodies (s.calls k).body).tokens
  lock : ∀ t k, (s.tokens t).lock = some k ↔ (s.calls k).pc.at? = some t
  flag : ∀ k t, (s.calls k).pc.at? = some t → (s.tokens t).cancelled = true
  subs : ∀ k t, (s.calls k).pc.at? = some t → ∀ u ∈ (s.calls k).pc.subsTodo,
    u ∈ (s.tokens t).callbacks
  subAt : ∀ k t u, (s.calls k).pc.at? = some t → (s.calls k).pc.sub? = some u →
    u ∈ (s.tokens t).callbacks
  nodup : ∀ k, (s.calls k).pc.subsTodo.Nodup

/-- The invariant. -/
structure Inv (s : St) : Prop where
  born : Born s
  locks : Locks s
  registered : Registered s
  current : Current s

theorem Inv.init : Inv ({} : St) := by
  refine ⟨?_, ?_, ?_, ?_⟩ <;> constructor <;>
    simp [CancelPc.relatedTodo, CancelPc.subsTodo, CancelPc.holds, CancelPc.tokensTodo,
      CancelPc.at?, CancelPc.sub?]

/-! ## Births -/

theorem Born.source {s s' : St} {e : Ev} (h : Born s) (hm : SourceMove s e s') : Born s' := by
  obtain ⟨h1, h2, h3, h4, h5, h6, h7, h8, h9⟩ := h
  cases hm with
  | link b c hp hb hl =>
    simp only [Body.addRelated]
    constructor <;> grind -linarith
  | _ => constructor <;> grind -linarith

theorem Born.token_move {s s' : St} {e : Ev} (h : Born s) (hm : TokenMove s e s') : Born s' := by
  obtain ⟨h1, h2, h3, h4, h5, h6, h7, h8, h9⟩ := h
  cases hm <;> simp only [Body.addToken, Body.removeToken] <;> constructor <;> grind -linarith

theorem Born.sub_move {s s' : St} {e : Ev} (h : Born s) (hm : SubMove s e s') : Born s' := by
  obtain ⟨h1, h2, h3, h4, h5, h6, h7, h8, h9⟩ := h
  cases hm <;> simp only [Token.addSubscription, Token.removeSubscription] <;> constructor <;>
    grind -linarith

/-! ## Locks -/

/-- A step that takes no lock and releases none. -/
theorem Locks.keep {s s' : St} (h : Locks s) (hl : ∀ b, (s'.bodies b).lock = (s.bodies b).lock)
    (hc : ∀ b, (s.bodies b).cancelled = true → (s'.bodies b).cancelled = true)
    (hh : ∀ k, (s'.calls k).pc.holds = (s.calls k).pc.holds)
    (hd : ∀ k, (s'.calls k).pc = .done ↔ (s.calls k).pc = .done)
    (hb : ∀ k, (s.calls k).pc ≠ .unborn → (s'.calls k).body = (s.calls k).body) : Locks s' := by
  have hbody : ∀ k, (s.calls k).pc.holds = true → (s'.calls k).body = (s.calls k).body :=
    fun k hk => hb k fun hu => by rw [hu] at hk; cases hk
  have hdone : ∀ k, (s.calls k).pc = .done → (s'.calls k).body = (s.calls k).body :=
    fun k hk => hb k (by rw [hk]; simp)
  refine ⟨fun b k => ?_, fun k hk => ?_, fun k k' hk he hk' => ?_⟩
  · rw [hl, h.holder, hh]
    exact and_congr_left fun hk => by rw [hbody k hk]
  · rw [hh, hd] at hk
    rw [hk.elim (hbody k) (hdone k)]
    exact hc _ (h.entered k hk)
  · rw [hh] at hk
    rw [hd] at hk'
    rw [hbody k hk, hdone k' hk'] at he
    exact h.first k k' hk he hk'

theorem Locks.source {s s' : St} (h : Locks s) (f : SourceFrame s s') : Locks s' := by
  refine h.keep f.lock (fun b hb => by rwa [f.cancelled]) (fun k => ?_) (fun k => ?_)
    fun k hk => (f.calls k).body hk
  · exact (f.calls k).pc_eq CancelPc.holds rfl fun _ _ _ => rfl
  · exact iff_of_eq ((f.calls k).pc_eq (· = .done) (by simp) (by simp))

theorem Locks.token_move {s s' : St} (h : Locks s) (f : TokenFrame s s') : Locks s' :=
  h.keep f.lock (fun b hb => by rwa [f.cancelled]) (fun k => by rw [f.calls])
    (fun k => by rw [f.calls]) fun k _ => by rw [f.calls]

theorem Locks.sub_move {s s' : St} (h : Locks s) (f : SubFrame s s') : Locks s' :=
  h.keep (fun b => by rw [f.bodies]) (fun b hb => by rwa [f.bodies]) (fun k => by rw [f.calls])
    (fun k => by rw [f.calls]) fun k _ => by rw [f.calls]

section Call

variable {s s' : St} {k : Nat}

theorem CallFrame.body (f : CallFrame s s' k) (k' : Nat) :
    (s'.calls k').body = (s.calls k').body := by
  by_cases hk : k' = k
  · rw [hk, f.callBody]
  · rw [f.other k' hk]

/-- Call `k` goes on, and keeps its body's lock. -/
theorem Locks.goes (h : Locks s) (f : CallFrame s s' k)
    (hl : ∀ b, (s'.bodies b).lock = (s.bodies b).lock) (hold : (s.calls k).pc.holds = true)
    (hnew : (s'.calls k).pc.holds = true) : Locks s' := by
  have hdone : ∀ {pc : CancelPc}, pc.holds = true → pc ≠ .done := by
    rintro _ hp rfl
    cases hp
  refine h.keep hl f.cancelled (fun k' => ?_) (fun k' => ?_) fun k' _ => f.body k'
  · by_cases hk : k' = k
    · rw [hk, hold, hnew]
    · rw [f.other k' hk]
  · by_cases hk : k' = k
    · rw [hk]
      exact iff_of_false (hdone hnew) (hdone hold)
    · rw [f.other k' hk]

/-- Call `k` takes its body's lock, and cancels the body. -/
theorem Locks.enter (h : Locks s) (f : CallFrame s s' k)
    (hfree : (s.bodies (s.calls k).body).lock = none)
    (hfirst : (s.bodies (s.calls k).body).cancelled = false)
    (hself : (s'.bodies (s.calls k).body).lock = some k)
    (hl : ∀ b, b ≠ (s.calls k).body → (s'.bodies b).lock = (s.bodies b).lock)
    (hc : (s'.bodies (s.calls k).body).cancelled = true)
    (hnew : (s'.calls k).pc.holds = true) : Locks s' := by
  have hnone : ∀ k', ¬((s.calls k').body = (s.calls k).body ∧ (s.calls k').pc.holds = true) := by
    intro k' hk'
    rw [← h.holder, hfree] at hk'
    cases hk'
  have hdone : (s'.calls k).pc ≠ .done := fun hd => by rw [hd] at hnew; cases hnew
  refine ⟨fun b k' => ?_, fun k' hk' => ?_, fun k1 k2 hk1 he hk2 => ?_⟩
  · rw [f.body]
    by_cases hb : b = (s.calls k).body
    · rw [hb, hself, Option.some.injEq]
      constructor
      · rintro rfl
        exact ⟨rfl, hnew⟩
      · intro hk'
        by_contra hne
        rw [f.other k' (Ne.symm hne)] at hk'
        exact hnone k' hk'
    · rw [hl b hb, h.holder]
      by_cases hk' : k' = k
      · rw [hk']
        exact iff_of_false (fun hk => hb hk.1.symm) fun hk => hb hk.1.symm
      · rw [f.other k' hk']
  · rw [f.body]
    by_cases hk : k' = k
    · rw [hk, hc]
    · rw [f.other k' hk] at hk'
      exact f.cancelled _ (h.entered k' hk')
  · rw [f.body, f.body] at he
    have hne2 : k2 ≠ k := by rintro rfl; exact hdone hk2
    rw [f.other k2 hne2] at hk2
    by_cases hne1 : k1 = k
    · -- a call on the body has returned, so the body was cancelled before
      have := h.entered k2 (.inr hk2)
      rw [he, hne1, hfirst] at this
      cases this
    · rw [f.other k1 hne1] at hk1
      exact h.first k1 k2 hk1 he hk2

/-- Call `k` returns, and leaves its body's lock free. -/
theorem Locks.leave (h : Locks s) (f : CallFrame s s' k)
    (honly : ∀ k', k' ≠ k → (s.calls k').body = (s.calls k).body → (s.calls k').pc.holds = false)
    (hself : (s'.bodies (s.calls k).body).lock = none)
    (hl : ∀ b, b ≠ (s.calls k).body → (s'.bodies b).lock = (s.bodies b).lock)
    (hc : (s.bodies (s.calls k).body).cancelled = true) (hnew : (s'.calls k).pc = .done) :
    Locks s' := by
  have hholds : ∀ k', (s'.calls k').pc.holds = true → k' ≠ k := by
    rintro k' hk' rfl
    rw [hnew] at hk'
    cases hk'
  refine ⟨fun b k' => ?_, fun k' hk' => ?_, fun k1 k2 hk1 he hk2 => ?_⟩
  · rw [f.body]
    by_cases hb : b = (s.calls k).body
    · rw [hb, hself]
      refine iff_of_false (by simp) fun hk' => ?_
      have hne := hholds k' hk'.2
      rw [f.other k' hne, honly k' hne hk'.1] at hk'
      cases hk'.2
    · rw [hl b hb, h.holder]
      by_cases hk' : k' = k
      · rw [hk']
        exact iff_of_false (fun hk => hb hk.1.symm) fun hk => hb hk.1.symm
      · rw [f.other k' hk']
  · rw [f.body]
    by_cases hk : k' = k
    · rw [hk]
      exact f.cancelled _ hc
    · rw [f.other k' hk] at hk'
      exact f.cancelled _ (h.entered k' hk')
  · rw [f.body, f.body] at he
    have hne1 := hholds k1 hk1
    rw [f.other k1 hne1] at hk1
    by_cases hne2 : k2 = k
    · rw [honly k1 hne1 (by rw [← he, hne2])] at hk1
      cases hk1
    · rw [f.other k2 hne2] at hk2
      exact h.first k1 k2 hk1 he hk2

theorem Locks.call_move (h : Locks s) (hm : CallMove s k (s.calls k).body s') : Locks s' := by
  have f := hm.frame
  have hgoes : ∀ {pc pc' : CancelPc}, (s.calls k).pc = pc → (s'.calls k).pc = pc' →
      pc.holds = true → pc'.holds = true → (∀ b, (s'.bodies b).lock = (s.bodies b).lock) →
      Locks s' := by
    rintro _ _ rfl rfl hold hnew hl
    exact h.goes f hl hold hnew
  cases hm with
  | again hpc hl hc =>
    refine h.leave f (fun k' _ hb => ?_) (by simp [St.leave]) (fun b hb => by simp [St.leave, hb])
      hc (leave_pc ..)
    by_contra hk'
    have := (h.holder _ k').mpr ⟨hb, by simpa using hk'⟩
    rw [hl] at this
    cases this
  | enter hpc hl hc =>
    refine h.enter f hl hc (by simp) (fun b hb => by simp [hb]) (by simp) ?_
    show ((s.goto k _).calls k).pc.holds = true
    rw [goto_pc]
    rfl
  | relatedDone hpc =>
    have hk : (s.calls k).pc.holds = true := by
      rw [hpc]
      rfl
    have hself : (s.bodies (s.calls k).body).lock = some k := (h.holder _ k).mpr ⟨rfl, hk⟩
    refine h.leave f (fun k' hk' hb => ?_) (by simp [St.leave]) (fun b hb => by simp [St.leave, hb])
      (h.entered k (.inl hk)) (leave_pc ..)
    by_contra hh
    have := (h.holder _ k').mpr ⟨hb, by simpa using hh⟩
    rw [hself] at this
    exact hk' (Option.some.inj this).symm
  | nestedDone c k' todo hpc _ =>
    refine hgoes hpc (goto_pc ..) rfl rfl fun b => ?_
    by_cases hb : b = c <;> simp [hb]
  | tokensDone hpc => exact hgoes hpc (goto_pc ..) rfl rfl fun _ => rfl
  | token t todo hpc => exact hgoes hpc (goto_pc ..) rfl rfl fun _ => rfl
  | noPromise t todo hpc => exact hgoes hpc (goto_pc ..) rfl rfl fun _ => rfl
  | promise t p todo hpc => exact hgoes hpc (goto_pc ..) rfl rfl fun _ => rfl
  | tokenDone t todo hpc => exact hgoes hpc (goto_pc ..) rfl rfl fun _ => rfl
  | run t u subs todo hpc => exact hgoes hpc (goto_pc ..) rfl rfl fun _ => rfl
  | submit t u subs todo hpc => exact hgoes hpc (goto_pc ..) rfl rfl fun _ => rfl
  | skip c todo hpc => exact hgoes hpc (goto_pc ..) rfl rfl fun _ => rfl

end Call

/-! ## Lists of tokens and callbacks -/

namespace Registered

variable {s s' : St}

theorem tokenRoster (h : Registered s) (b : Nat) :
    Roster (s.bodies b).tokens fun t => (s.tokens t).phase = .live ∧ (s.tokens t).body = b :=
  ⟨h.token b, h.tokens b⟩

theorem subRoster (h : Registered s) (t : Nat) :
    Roster (s.tokens t).callbacks fun u => (s.subs u).phase = .live ∧ (s.subs u).token = t :=
  ⟨h.sub t, h.subs t⟩

theorem of_rosters
    (ht : ∀ b, Roster (s.bodies b).tokens fun t =>
      (s.tokens t).phase = .live ∧ (s.tokens t).body = b)
    (hu : ∀ t, Roster (s.tokens t).callbacks fun u =>
      (s.subs u).phase = .live ∧ (s.subs u).token = t) : Registered s :=
  ⟨fun b => (ht b).mem, fun b => (ht b).nodup, fun t => (hu t).mem, fun t => (hu t).nodup⟩

theorem source (h : Registered s) (f : SourceFrame s s') : Registered s' := by
  refine .of_rosters (fun b => ?_) fun t => ?_
  · rw [f.listed, f.tokens]
    exact h.tokenRoster b
  · rw [f.tokens, f.subs]
    exact h.subRoster t

theorem call_move {k : Nat} (h : Registered s) (f : CallFrame s s' k) : Registered s' := by
  refine .of_rosters (fun b => ?_) fun t => ?_
  · simp only [f.listed, f.tokenPhase, f.tokenBody]
    exact h.tokenRoster b
  · simp only [f.callbacks, f.subPhase, f.subToken]
    exact h.subRoster t

/-- The callbacks after a step of token `t` that leaves those of `t` alone. -/
theorem callbacks_keep {t : Nat} (h : Registered s) (f : TokenFrame s s')
    (ho : ∀ t', t' ≠ t → s'.tokens t' = s.tokens t')
    (hc : (s'.tokens t).callbacks = (s.tokens t).callbacks) (t' : Nat) :
    Roster (s'.tokens t').callbacks fun u =>
      (s'.subs u).phase = .live ∧ (s'.subs u).token = t' := by
  rw [f.subs]
  by_cases ht : t' = t
  · rw [ht, hc]
    exact h.subRoster t
  · rw [ho t' ht]
    exact h.subRoster t'

/-- A step of token `t`, which is not alive before and after it. -/
theorem token_aside {t : Nat} (h : Registered s) (f : TokenFrame s s')
    (ho : ∀ t', t' ≠ t → s'.tokens t' = s.tokens t') (hold : (s.tokens t).phase ≠ .live)
    (hnew : (s'.tokens t).phase ≠ .live) (hl : ∀ b, (s'.bodies b).tokens = (s.bodies b).tokens)
    (hc : (s'.tokens t).callbacks = (s.tokens t).callbacks) : Registered s' := by
  refine .of_rosters (fun b => ?_) (h.callbacks_keep f ho hc)
  rw [hl]
  exact (h.tokenRoster b).keep (c := t) (iff_of_false (fun h => hnew h.1) fun h => hold h.1)
    fun t' ht => by rw [ho t' ht]

/-- Token `t` is added to its body. -/
theorem add {t : Nat} (h : Registered s) (f : TokenFrame s s')
    (ho : ∀ t', t' ≠ t → s'.tokens t' = s.tokens t') (hold : (s.tokens t).phase ≠ .live)
    (hnew : (s'.tokens t).phase = .live) (hb : (s'.tokens t).body = (s.tokens t).body)
    (hc : (s'.tokens t).callbacks = (s.tokens t).callbacks)
    (hself : (s'.bodies (s.tokens t).body).tokens = (s.bodies (s.tokens t).body).tokens ++ [t])
    (hl : ∀ b, b ≠ (s.tokens t).body → (s'.bodies b).tokens = (s.bodies b).tokens) :
    Registered s' := by
  have hother : ∀ b t', t' ≠ t → (((s'.tokens t').phase = .live ∧ (s'.tokens t').body = b) ↔
      ((s.tokens t').phase = .live ∧ (s.tokens t').body = b)) := fun b t' ht => by rw [ho t' ht]
  refine .of_rosters (fun b => ?_) (h.callbacks_keep f ho hc)
  by_cases hbt : b = (s.tokens t).body
  · rw [hbt, hself]
    exact (h.tokenRoster _).append (fun h => hold h.1) ⟨hnew, hb⟩ (hother _)
  · rw [hl b hbt]
    refine (h.tokenRoster b).keep (c := t) (iff_of_false ?_ fun h => hold h.1) (hother b)
    rw [hb]
    exact fun h => hbt h.2.symm

/-- Token `t` is removed from its body. -/
theorem remove {t : Nat} (h : Registered s) (f : TokenFrame s s')
    (ho : ∀ t', t' ≠ t → s'.tokens t' = s.tokens t') (hnew : (s'.tokens t).phase ≠ .live)
    (hc : (s'.tokens t).callbacks = (s.tokens t).callbacks)
    (hself : (s'.bodies (s.tokens t).body).tokens = (s.bodies (s.tokens t).body).tokens.erase t)
    (hl : ∀ b, b ≠ (s.tokens t).body → (s'.bodies b).tokens = (s.bodies b).tokens) :
    Registered s' := by
  have hother : ∀ b t', t' ≠ t → (((s'.tokens t').phase = .live ∧ (s'.tokens t').body = b) ↔
      ((s.tokens t').phase = .live ∧ (s.tokens t').body = b)) := fun b t' ht => by rw [ho t' ht]
  refine .of_rosters (fun b => ?_) (h.callbacks_keep f ho hc)
  by_cases hbt : b = (s.tokens t).body
  · rw [hbt, hself]
    exact (h.tokenRoster _).erase (fun h => hnew h.1) (hother _)
  · rw [hl b hbt]
    exact (h.tokenRoster b).keep (c := t)
      (iff_of_false (fun h => hnew h.1) fun h => hbt h.2.symm) (hother b)

theorem token_move {e : Ev} (h : Registered s) (hb : Born s) (hm : TokenMove s e s') :
    Registered s' := by
  have f := hm.frame
  have hlist : ∀ {x : Nat} {v : Body}, v.tokens = (s.bodies x).tokens →
      ∀ b, (update s.bodies x v b).tokens = (s.bodies b).tokens := fun {x v} hv b =>
    update_proj Body.tokens hv b
  cases hm with
  | begin t b coro _ _ hp =>
    exact h.token_aside (t := t) f (fun t' ht => by simp [ht]) (by simp [hp]) (by simp) (hlist rfl)
      (by simp [hb.token t hp])
  | read t hp =>
    exact h.token_aside (t := t) f (fun t' ht => by simp [ht]) (by simp [hp]) (by simp)
      (fun _ => rfl) (by simp)
  | throws t hp =>
    exact h.token_aside (t := t) f (fun t' ht => by simp [ht]) (by simp [hp]) (by simp) (hlist rfl)
      (by simp)
  | checked t hp =>
    exact h.token_aside (t := t) f (fun t' ht => by simp [ht]) (by simp [hp]) (by simp)
      (fun _ => rfl) (by simp)
  | release t hp =>
    exact h.token_aside (t := t) f (fun t' ht => by simp [ht]) (by simp [hp]) (by simp) (hlist rfl)
      (by simp)
  | add t hp =>
    exact h.add (t := t) f (fun t' ht => by simp [ht]) (by simp [hp]) (by simp) (by simp) (by simp)
      (by simp [Body.addToken]) fun b hb => by simp [hb]
  | remove t hp =>
    exact h.remove (t := t) f (fun t' ht => by simp [ht]) (by simp) (by simp)
      (by simp [Body.removeToken]) fun b hb => by simp [hb]

/-- A step of a subscription that adds and removes none. -/
theorem sub_aside (h : Registered s) (f : SubFrame s s')
    (hc : ∀ t, (s'.tokens t).callbacks = (s.tokens t).callbacks)
    (hu : ∀ t u, ((s'.subs u).phase = .live ∧ (s'.subs u).token = t) ↔
      ((s.subs u).phase = .live ∧ (s.subs u).token = t)) : Registered s' := by
  refine .of_rosters (fun b => ?_) fun t => ?_
  · simp only [f.bodies, f.phase, f.body]
    exact h.tokenRoster b
  · rw [hc]
    exact (h.subRoster t).congr (hu t)

theorem sub_move {e : Ev} (h : Registered s) (hm : SubMove s e s') : Registered s' := by
  have f := hm.frame
  have htokens : ∀ b, Roster (s'.bodies b).tokens fun t =>
      (s'.tokens t).phase = .live ∧ (s'.tokens t).body = b := by
    intro b
    simp only [f.bodies, f.phase, f.body]
    exact h.tokenRoster b
  have hlist : ∀ {x : Nat} {v : Token}, v.callbacks = (s.tokens x).callbacks →
      ∀ t, (update s.tokens x v t).callbacks = (s.tokens t).callbacks := fun {x v} hv t =>
    update_proj Token.callbacks hv t
  -- a subscription that is not alive before and after the step
  have hdead : ∀ {x : Nat} {v : Subscription}, (s.subs x).phase ≠ .live → v.phase ≠ .live →
      ∀ t u, ((update s.subs x v u).phase = .live ∧ (update s.subs x v u).token = t) ↔
        ((s.subs u).phase = .live ∧ (s.subs u).token = t) := by
    intro x v hold hnew t u
    by_cases hu : u = x
    · rw [hu, update_self]
      exact iff_of_false (fun h => hnew h.1) fun h => hold h.1
    · rw [update_of_ne hu]
  have hsame : ∀ {x : Nat} {v : Subscription}, v.phase = (s.subs x).phase →
      v.token = (s.subs x).token →
      ∀ t u, ((update s.subs x v u).phase = .live ∧ (update s.subs x v u).token = t) ↔
        ((s.subs u).phase = .live ∧ (s.subs u).token = t) := by
    intro x v hp ht t u
    by_cases hu : u = x
    · rw [hu, update_self, hp, ht]
    · rw [update_of_ne hu]
  cases hm with
  | begin u t _ hp => exact h.sub_aside f (hlist rfl) (hdead (by simp [hp]) (by simp))
  | throws u hp => exact h.sub_aside f (hlist rfl) (hdead (by simp [hp]) (by simp))
  | checked u hp => exact h.sub_aside f (fun _ => rfl) (hdead (by simp [hp]) (by simp))
  | done u hp => exact h.sub_aside f (hlist rfl) (hdead (by simp [hp]) (by simp))
  | callback u => exact h.sub_aside f (fun _ => rfl) (hsame rfl rfl)
  | complete u => exact h.sub_aside f (fun _ => rfl) (hsame rfl rfl)
  | add u hp =>
    refine .of_rosters htokens fun t => ?_
    by_cases ht : t = (s.subs u).token
    · rw [ht]
      simp only [update_self, Token.addSubscription]
      exact (h.subRoster _).cons (c := u) (by simp [hp]) (by simp) fun d hd => by simp [hd]
    · simp only [update_of_ne ht]
      exact (h.subRoster t).keep (c := u) (by simpa [hp] using Ne.symm ht) fun d hd => by simp [hd]
  | remove u hp =>
    refine .of_rosters htokens fun t => ?_
    by_cases ht : t = (s.subs u).token
    · rw [ht]
      simp only [update_self, Token.removeSubscription]
      exact (h.subRoster _).erase (by simp) fun d hd => by simp [hd]
    · simp only [update_of_ne ht]
      exact (h.subRoster t).keep (c := u) (by simpa [hp] using Ne.symm ht) fun d hd => by simp [hd]

end Registered

/-! ## Where the calls are -/

/-- While a body's lock is free, no call goes through its tokens. -/
theorem Locks.idle {s : St} (h : Locks s) (k : Nat)
    (hl : (s.bodies (s.calls k).body).lock = none) :
    (s.calls k).pc.tokensTodo = [] ∧ (s.calls k).pc.at? = none := by
  have hk : (s.calls k).pc.holds = false := by
    by_contra hk
    have := (h.holder (s.calls k).body k).mpr ⟨rfl, by simpa using hk⟩
    simp [hl] at this
  cases hpc : (s.calls k).pc with
  | unborn => exact ⟨rfl, rfl⟩
  | enter => exact ⟨rfl, rfl⟩
  | done => exact ⟨rfl, rfl⟩
  | _ => rw [hpc] at hk; cases hk

namespace Current

variable {s s' : St}

/-- While a token's lock is free, no call is at the token. -/
theorem free (h : Current s) (k t : Nat) (hl : (s.tokens t).lock = none) :
    (s.calls k).pc.at? ≠ some t := by
  rw [ne_eq, ← h.lock, hl]
  simp

/-- The token that a call is at, or has yet to tell, is on the list of its body. -/
theorem mem (h : Current s) {k t : Nat}
    (ht : t ∈ (s.calls k).pc.tokensTodo ∨ (s.calls k).pc.at? = some t) :
    t ∈ (s.bodies (s.calls k).body).tokens := by
  rcases ht with ht | ht
  · exact h.tokens k t ht
  · exact h.tokenAt k t ht

/-- A step in which the calls stay where they are, and what they hold as well. -/
theorem keep (h : Current s)
    (htodo : ∀ k, (s'.calls k).pc.tokensTodo = (s.calls k).pc.tokensTodo)
    (hat : ∀ k, (s'.calls k).pc.at? = (s.calls k).pc.at?)
    (hsubs : ∀ k, (s'.calls k).pc.subsTodo = (s.calls k).pc.subsTodo)
    (hsub : ∀ k, (s'.calls k).pc.sub? = (s.calls k).pc.sub?)
    (hlist : ∀ k t, t ∈ (s.calls k).pc.tokensTodo ∨ (s.calls k).pc.at? = some t →
      t ∈ (s'.bodies (s'.calls k).body).tokens)
    (hlock : ∀ t, (s'.tokens t).lock = (s.tokens t).lock)
    (hflag : ∀ k t, (s.calls k).pc.at? = some t →
      (s'.tokens t).cancelled = (s.tokens t).cancelled)
    (hc : ∀ k t, (s.calls k).pc.at? = some t → (s'.tokens t).callbacks = (s.tokens t).callbacks) :
    Current s' := by
  refine ⟨fun k t ht => ?_, fun k t ht => ?_, fun t k => ?_, fun k t ht => ?_,
    fun k t ht u hu => ?_, fun k t u ht hu => ?_, fun k => ?_⟩
  · exact hlist k t (.inl (htodo k ▸ ht))
  · exact hlist k t (.inr (hat k ▸ ht))
  · rw [hlock, hat, h.lock]
  · rw [hat] at ht
    rw [hflag k t ht, h.flag k t ht]
  · rw [hat] at ht
    rw [hc k t ht]
    exact h.subs k t ht u (hsubs k ▸ hu)
  · rw [hat] at ht
    rw [hc k t ht]
    exact h.subAt k t u ht (hsub k ▸ hu)
  · rw [hsubs]
    exact h.nodup k

theorem source (h : Current s) (f : SourceFrame s s') : Current s' := by
  refine h.keep (fun k => (f.calls k).pc_eq _ rfl fun _ _ _ => rfl)
    (fun k => (f.calls k).pc_eq _ rfl fun _ _ _ => rfl)
    (fun k => (f.calls k).pc_eq _ rfl fun _ _ _ => rfl)
    (fun k => (f.calls k).pc_eq _ rfl fun _ _ _ => rfl) (fun k t ht => ?_)
    (fun t => by rw [f.tokens]) (fun k t _ => by rw [f.tokens]) fun k t _ => by rw [f.tokens]
  have hpc : (s.calls k).pc ≠ .unborn := by
    intro hpc
    rw [hpc] at ht
    rcases ht with ht | ht <;> cases ht
  rw [f.listed, (f.calls k).body hpc]
  exact h.mem ht

/-- A step of a token `t` that no call is at or has yet to tell. -/
theorem token_aside {t : Nat} (h : Current s) (f : TokenFrame s s')
    (haway : ∀ k, t ∉ (s.calls k).pc.tokensTodo ∧ (s.calls k).pc.at? ≠ some t)
    (ho : ∀ t', t' ≠ t → s'.tokens t' = s.tokens t')
    (hlock : (s'.tokens t).lock = (s.tokens t).lock)
    (hl : ∀ b t', t' ≠ t → t' ∈ (s.bodies b).tokens → t' ∈ (s'.bodies b).tokens) :
    Current s' := by
  have hne : ∀ k t', (s.calls k).pc.at? = some t' → t' ≠ t := by
    rintro k t' ht rfl
    exact (haway k).2 ht
  refine h.keep (fun k => by rw [f.calls]) (fun k => by rw [f.calls]) (fun k => by rw [f.calls])
    (fun k => by rw [f.calls]) (fun k t' ht => ?_) (fun t' => ?_)
    (fun k t' ht => by rw [ho t' (hne k t' ht)]) fun k t' ht => by rw [ho t' (hne k t' ht)]
  · rw [f.calls]
    refine hl _ t' ?_ (h.mem ht)
    rintro rfl
    exact ht.elim (haway k).1 (haway k).2
  · by_cases ht : t' = t
    · rw [ht, hlock]
    · rw [ho t' ht]

/-- The token stays on the list of its body, or off it. -/
theorem token_quiet {t : Nat} (h : Current s) (f : TokenFrame s s')
    (haway : ∀ k, t ∉ (s.calls k).pc.tokensTodo ∧ (s.calls k).pc.at? ≠ some t)
    (ho : ∀ t', t' ≠ t → s'.tokens t' = s.tokens t')
    (hlock : (s'.tokens t).lock = (s.tokens t).lock)
    (hl : ∀ b, (s'.bodies b).tokens = (s.bodies b).tokens) : Current s' :=
  h.token_aside f haway ho hlock fun b _ _ ht => hl b ▸ ht

theorem token_move {e : Ev} (h : Current s) (hb : Born s) (hk : Locks s) (hr : Registered s)
    (hm : TokenMove s e s') : Current s' := by
  have f := hm.frame
  -- no call has to do with a token that is not alive
  have haway : ∀ t, (s.tokens t).phase ≠ .live →
      ∀ k, t ∉ (s.calls k).pc.tokensTodo ∧ (s.calls k).pc.at? ≠ some t := by
    intro t ht k
    have hmem : t ∉ (s.bodies (s.calls k).body).tokens := fun hm => ht ((hr.token _ t).mp hm).1
    exact ⟨fun hk => hmem (h.tokens k t hk), fun hk => hmem (h.tokenAt k t hk)⟩
  have hlist : ∀ {x : Nat} {v : Body}, v.tokens = (s.bodies x).tokens →
      ∀ b, (update s.bodies x v b).tokens = (s.bodies b).tokens := fun {x v} hv b =>
    update_proj Body.tokens hv b
  cases hm with
  | begin t b coro _ _ hp =>
    exact h.token_quiet f (haway t (by simp [hp])) (fun t' ht => by simp [ht])
      (by simp [hb.token t hp]) (hlist rfl)
  | read t hp =>
    exact h.token_quiet f (haway t (by simp [hp])) (fun t' ht => by simp [ht]) (by simp)
      fun _ => rfl
  | throws t hp =>
    exact h.token_quiet f (haway t (by simp [hp])) (fun t' ht => by simp [ht]) (by simp)
      (hlist rfl)
  | checked t hp =>
    exact h.token_quiet f (haway t (by simp [hp])) (fun t' ht => by simp [ht]) (by simp)
      fun _ => rfl
  | release t hp =>
    exact h.token_quiet f (haway t (by simp [hp])) (fun t' ht => by simp [ht]) (by simp)
      (hlist rfl)
  | add t hp =>
    refine h.token_aside f (haway t (by simp [hp])) (fun t' ht => by simp [ht]) (by simp)
      fun b t' _ ht => ?_
    by_cases hbt : b = (s.tokens t).body
    · rw [hbt] at ht ⊢
      simp [Body.addToken, ht]
    · simpa [hbt] using ht
  | remove t hp hl =>
    refine h.token_aside (t := t) f (fun k => ?_) (fun t' ht => by simp [ht]) (by simp)
      fun b t' hne ht => ?_
    · -- a call on the body would hold its lock
      have hbody : t ∈ (s.bodies (s.calls k).body).tokens → (s.calls k).body = (s.tokens t).body :=
        fun ht => ((hr.token _ t).mp ht).2.symm
      refine ⟨fun ht => ?_, fun ht => ?_⟩
      · rw [← hbody (h.tokens k t ht)] at hl
        rw [(hk.idle k hl).1] at ht
        cases ht
      · rw [← hbody (h.tokenAt k t ht)] at hl
        rw [(hk.idle k hl).2] at ht
        cases ht
    · by_cases hbt : b = (s.tokens t).body
      · rw [hbt] at ht ⊢
        simpa [Body.removeToken] using (List.mem_erase_of_ne hne).mpr ht
      · simpa [hbt] using ht

theorem sub_move {e : Ev} (h : Current s) (hm : SubMove s e s') : Current s' := by
  have f := hm.frame
  refine h.keep (fun k => by rw [f.calls]) (fun k => by rw [f.calls]) (fun k => by rw [f.calls])
    (fun k => by rw [f.calls]) (fun k t ht => ?_) f.lock (fun k t _ => f.cancelled t)
    fun k t ht => ?_
  · rw [f.bodies, f.calls]
    exact h.mem ht
  · exact (hm.callbacks t).resolve_right fun hl => h.free k t hl ht

end Current

/-! ## The steps of calls of `cancel` -/

section Call

variable {s s' : St} {k : Nat}

/-- Two calls are never at one token. -/
theorem Current.alone (h : Current s) {k' t : Nat} (hk : (s.calls k).pc.at? = some t)
    (hk' : (s.calls k').pc.at? = some t) : k' = k := by
  rw [← h.lock] at hk hk'
  rw [hk'] at hk
  exact Option.some.inj hk

/-- A step of call `k`, by what `k` is about to do after it. -/
theorem Current.goes (h : Current s) (f : CallFrame s s' k)
    (hlock : ∀ t k', (s'.tokens t).lock = some k' ↔ (s'.calls k').pc.at? = some t)
    (htodo : ∀ t ∈ (s'.calls k).pc.tokensTodo, t ∈ (s.bodies (s.calls k).body).tokens)
    (hat : ∀ t, (s'.calls k).pc.at? = some t → t ∈ (s.bodies (s.calls k).body).tokens ∧
      (s'.tokens t).cancelled = true ∧
      (∀ u ∈ (s'.calls k).pc.subsTodo, u ∈ (s.tokens t).callbacks) ∧
      ∀ u, (s'.calls k).pc.sub? = some u → u ∈ (s.tokens t).callbacks)
    (hnodup : (s'.calls k).pc.subsTodo.Nodup) : Current s' := by
  refine ⟨fun k' t ht => ?_, fun k' t ht => ?_, hlock, fun k' t ht => ?_, fun k' t ht u hu => ?_,
    fun k' t u ht hu => ?_, fun k' => ?_⟩
  · rw [f.body, f.listed]
    by_cases hk : k' = k
    · rw [hk] at ht ⊢
      exact htodo t ht
    · rw [f.other k' hk] at ht
      exact h.tokens k' t ht
  · rw [f.body, f.listed]
    by_cases hk : k' = k
    · rw [hk] at ht ⊢
      exact (hat t ht).1
    · rw [f.other k' hk] at ht
      exact h.tokenAt k' t ht
  · by_cases hk : k' = k
    · rw [hk] at ht
      exact (hat t ht).2.1
    · rw [f.other k' hk] at ht
      exact f.flag t (h.flag k' t ht)
  · rw [f.callbacks]
    by_cases hk : k' = k
    · rw [hk] at ht hu
      exact (hat t ht).2.2.1 u hu
    · rw [f.other k' hk] at ht hu
      exact h.subs k' t ht u hu
  · rw [f.callbacks]
    by_cases hk : k' = k
    · rw [hk] at ht hu
      exact (hat t ht).2.2.2 u hu
    · rw [f.other k' hk] at ht hu
      exact h.subAt k' t u ht hu
  · by_cases hk : k' = k
    · rw [hk]
      exact hnodup
    · rw [f.other k' hk]
      exact h.nodup k'

/-- The locks of the tokens, when call `k` stays at its token or away from all. -/
theorem Current.lock_stay (h : Current s) (f : CallFrame s s' k)
    (hl : ∀ t, (s'.tokens t).lock = (s.tokens t).lock)
    (hat : (s'.calls k).pc.at? = (s.calls k).pc.at?) (t k' : Nat) :
    (s'.tokens t).lock = some k' ↔ (s'.calls k').pc.at? = some t := by
  rw [hl, h.lock]
  by_cases hk : k' = k
  · rw [hk, hat]
  · rw [f.other k' hk]

/-- A step of call `k` away from all tokens. -/
theorem Current.away (h : Current s) (f : CallFrame s s' k)
    (hl : ∀ t, (s'.tokens t).lock = (s.tokens t).lock)
    (hold : (s.calls k).pc.at? = none) (hnew : (s'.calls k).pc.at? = none)
    (htodo : ∀ t ∈ (s'.calls k).pc.tokensTodo, t ∈ (s.bodies (s.calls k).body).tokens)
    (hnodup : (s'.calls k).pc.subsTodo.Nodup) : Current s' :=
  h.goes f (h.lock_stay f hl (hnew.trans hold.symm)) htodo
    (fun t ht => by rw [hnew] at ht; cases ht) hnodup

/-- Call `k` stays at its token `t`. -/
theorem Current.stay {t : Nat} (h : Current s) (f : CallFrame s s' k)
    (hl : ∀ t, (s'.tokens t).lock = (s.tokens t).lock)
    (hold : (s.calls k).pc.at? = some t) (hnew : (s'.calls k).pc.at? = some t)
    (htodo : ∀ t' ∈ (s'.calls k).pc.tokensTodo, t' ∈ (s.calls k).pc.tokensTodo)
    (hsubs : ∀ u ∈ (s'.calls k).pc.subsTodo, u ∈ (s.tokens t).callbacks)
    (hsub : ∀ u, (s'.calls k).pc.sub? = some u → u ∈ (s.tokens t).callbacks)
    (hnodup : (s'.calls k).pc.subsTodo.Nodup) : Current s' := by
  refine h.goes f (h.lock_stay f hl (hnew.trans hold.symm))
    (fun t' ht => h.tokens k t' (htodo t' ht)) (fun t' ht => ?_) hnodup
  rw [hnew] at ht
  cases ht
  exact ⟨h.tokenAt k t hold, f.flag t (h.flag k t hold), hsubs, hsub⟩

/-- Call `k` takes the lock of its next token `t`. -/
theorem Current.take {t : Nat} {todo : List Nat} (h : Current s) (f : CallFrame s s' k)
    (hpc : (s.calls k).pc = .tokens (t :: todo)) (hfree : (s.tokens t).lock = none)
    (hpc' : (s'.calls k).pc = .promise t todo)
    (hs : s'.tokens = update s.tokens t { s.tokens t with lock := some k, cancelled := true }) :
    Current s' := by
  have htodo := h.tokens k
  have hold := fun t => h.lock t k
  simp only [hpc, CancelPc.tokensTodo, CancelPc.at?] at htodo hold
  refine h.goes f (fun t' k' => ?_) ?_ (fun t' ht => ?_) ?_
  · by_cases ht : t' = t
    · rw [ht, hs, update_self]
      by_cases hk : k' = k
      · rw [hk, hpc']
        exact iff_of_true rfl rfl
      · rw [f.other k' hk]
        refine iff_of_false (fun he => hk (Option.some.inj he).symm) (h.free k' t hfree)
    · rw [hs, update_of_ne ht]
      by_cases hk : k' = k
      · rw [hk, hpc', hold]
        exact iff_of_false (by simp) fun he => ht (Option.some.inj he).symm
      · rw [f.other k' hk, h.lock]
  · rw [hpc']
    exact htodo
  · rw [hpc'] at ht ⊢
    cases ht
    refine ⟨htodo t List.mem_cons_self, by simp [hs], fun u hu => ?_, fun u hu => ?_⟩
    · cases hu
    · cases hu
  · rw [hpc']
    exact .nil

/-- Call `k` is done with its token `t`, and leaves its lock free. -/
theorem Current.drop {t : Nat} {todo : List Nat} (h : Current s) (f : CallFrame s s' k)
    (hpc : (s.calls k).pc = .callbacks t [] todo) (hpc' : (s'.calls k).pc = .tokens todo)
    (hs : s'.tokens = update s.tokens t { s.tokens t with lock := none }) : Current s' := by
  have hat : (s.calls k).pc.at? = some t := by rw [hpc]; rfl
  refine h.goes f (fun t' k' => ?_) ?_ (fun t' ht => ?_) ?_
  · by_cases ht : t' = t
    · rw [ht, hs, update_self]
      by_cases hk : k' = k
      · rw [hk, hpc']
        exact iff_of_false (by simp) (by simp [CancelPc.at?])
      · rw [f.other k' hk]
        exact iff_of_false (by simp) fun he => hk (h.alone hat he)
    · rw [hs, update_of_ne ht]
      by_cases hk : k' = k
      · rw [hk, hpc', h.lock, hat]
        exact iff_of_false (fun he => ht (Option.some.inj he).symm) (by simp [CancelPc.at?])
      · rw [f.other k' hk, h.lock]
  · have htodo := h.tokens k
    rw [hpc] at htodo
    rw [hpc']
    exact htodo
  · rw [hpc'] at ht
    cases ht
  · rw [hpc']
    exact .nil

theorem Current.call_move (h : Current s) (hr : Registered s)
    (hm : CallMove s k (s.calls k).body s') : Current s' := by
  have f := hm.frame
  have haway : ∀ {pc pc' : CancelPc}, (s.calls k).pc = pc → (s'.calls k).pc = pc' →
      pc.at? = none → pc'.at? = none → pc'.subsTodo = [] →
      (∀ t, (s'.tokens t).lock = (s.tokens t).lock) →
      (∀ t ∈ pc'.tokensTodo, t ∈ (s.bodies (s.calls k).body).tokens) → Current s' := by
    rintro _ _ rfl rfl hold hnew hsubs hl htodo
    exact h.away f hl hold hnew htodo (hsubs ▸ .nil)
  have hstay : ∀ {pc pc' : CancelPc} {t : Nat}, (s.calls k).pc = pc → (s'.calls k).pc = pc' →
      pc.at? = some t → pc'.at? = some t → (∀ t, (s'.tokens t).lock = (s.tokens t).lock) →
      (∀ t' ∈ pc'.tokensTodo, t' ∈ pc.tokensTodo) →
      (∀ u ∈ pc'.subsTodo, u ∈ (s.tokens t).callbacks) →
      (∀ u, pc'.sub? = some u → u ∈ (s.tokens t).callbacks) → pc'.subsTodo.Nodup →
      Current s' := by
    rintro _ _ t rfl rfl hold hnew hl htodo hsubs hsub hnodup
    exact h.stay f hl hold hnew htodo hsubs hsub hnodup
  cases hm with
  | again hpc =>
    exact haway hpc (leave_pc ..) rfl rfl rfl (fun _ => rfl) (by simp [CancelPc.tokensTodo])
  | enter hpc =>
    exact haway hpc (goto_pc ..) rfl rfl rfl (fun _ => rfl) fun t ht => ht
  | tokensDone hpc =>
    exact haway hpc (goto_pc ..) rfl rfl rfl (fun _ => rfl) (by simp [CancelPc.tokensTodo])
  | relatedDone hpc =>
    exact haway hpc (leave_pc ..) rfl rfl rfl (fun _ => rfl) (by simp [CancelPc.tokensTodo])
  | skip c todo hpc =>
    exact haway hpc (goto_pc ..) rfl rfl rfl (fun _ => rfl) (by simp [CancelPc.tokensTodo])
  | nestedDone c k' todo hpc =>
    exact haway hpc (goto_pc ..) rfl rfl rfl (fun _ => rfl) (by simp [CancelPc.tokensTodo])
  | token t todo hpc hl => exact h.take f hpc hl (goto_pc ..) rfl
  | tokenDone t todo hpc => exact h.drop f hpc (goto_pc ..) rfl
  | noPromise t todo hpc =>
    exact hstay hpc (goto_pc ..) rfl rfl (fun _ => rfl) (fun _ ht => List.mem_cons_of_mem _ ht)
      (fun _ hu => hu) (fun _ hu => by cases hu) (hr.subs t)
  | promise t p todo hpc =>
    exact hstay hpc (goto_pc ..) rfl rfl (fun _ => rfl) (fun _ ht => List.mem_cons_of_mem _ ht)
      (fun _ hu => hu) (fun _ hu => by cases hu) (hr.subs t)
  | run t u subs todo hpc =>
    have hat : (s.calls k).pc.at? = some t := by rw [hpc]; rfl
    have hsubs := h.subs k t hat
    have hnodup := h.nodup k
    rw [hpc] at hsubs hnodup
    refine hstay hpc (goto_pc ..) rfl rfl (fun _ => rfl) (fun _ ht => ht)
      (fun v hv => hsubs v (List.mem_cons_of_mem _ hv)) (fun v hv => ?_) hnodup.of_cons
    cases hv
    exact hsubs u List.mem_cons_self
  | submit t u subs todo hpc =>
    have hat : (s.calls k).pc.at? = some t := by rw [hpc]; rfl
    have hsubs := h.subs k t hat
    have hnodup := h.nodup k
    rw [hpc] at hsubs hnodup
    exact hstay hpc (goto_pc ..) rfl rfl (fun _ => rfl) (fun _ ht => ht) hsubs
      (fun v hv => by cases hv) hnodup

/-- The token that a call is at, or has yet to tell, is alive. -/
theorem Current.live (h : Current s) (hr : Registered s) {t : Nat}
    (ht : t ∈ (s.calls k).pc.tokensTodo ∨ (s.calls k).pc.at? = some t) :
    (s.tokens t).phase = .live :=
  ((hr.token _ t).mp (h.mem ht)).1

/-- A call only leaves related bodies behind. -/
theorem CallMove.related (hm : CallMove s k (s.calls k).body s') :
    (∀ b, (s'.bodies b).related ⊆ (s.bodies b).related) ∧
    ∀ c ∈ (s'.calls k).pc.relatedTodo, c ∈ (s.calls k).pc.relatedTodo ∨
      c ∈ (s.bodies (s.calls k).body).related := by
  have key := fun (b c : Nat) (v : Body) => update_rel (m := s.bodies) (i := c) (v := v) (j := b)
    (r := fun b b' => b'.related ⊆ b.related) fun _ _ hc => hc
  have hnone : ∀ {pc : CancelPc}, (s'.calls k).pc = pc → pc.relatedTodo = [] →
      ∀ c ∈ (s'.calls k).pc.relatedTodo, c ∈ (s.calls k).pc.relatedTodo ∨
        c ∈ (s.bodies (s.calls k).body).related := by
    rintro _ rfl hnil c hc
    rw [hnil] at hc
    cases hc
  cases hm with
  | again => exact ⟨fun b => key b _ _ fun _ hc => hc, hnone (leave_pc ..) rfl⟩
  | enter => exact ⟨fun b => key b _ _ fun _ hc => hc, hnone (goto_pc ..) rfl⟩
  | tokensDone =>
    refine ⟨fun _ _ hc => hc, fun c hc => .inr ?_⟩
    rwa [goto_pc] at hc
  | relatedDone => exact ⟨fun b => key b _ _ fun _ hc => (by cases hc), hnone (leave_pc ..) rfl⟩
  | skip d todo hpc =>
    refine ⟨fun _ _ hc => hc, fun c hc => .inl ?_⟩
    rw [goto_pc] at hc
    rw [hpc]
    exact List.mem_cons_of_mem _ hc
  | nestedDone d k' todo hpc =>
    refine ⟨fun b => key b _ _ fun _ hc => hc, fun c hc => .inl ?_⟩
    have hc : c ∈ ((s.goto k (.related todo)).calls k).pc.relatedTodo := hc
    rw [goto_pc] at hc
    rw [hpc]
    exact List.mem_cons_of_mem _ hc
  | _ => exact ⟨fun _ _ hc => hc, hnone (goto_pc ..) rfl⟩

/-- What is not ready, or not alive, is out of the reach of a call. -/
theorem CallMove.unborn (hm : CallMove s k (s.calls k).body s') (h : Born s) (hr : Registered s)
    (hc : Current s) :
    (∀ b, (s.bodies b).phase ≠ .ready → s'.bodies b = s.bodies b) ∧
    (∀ t, (s.tokens t).phase ≠ .live → s'.tokens t = s.tokens t) ∧
    ∀ u, (s.subs u).phase ≠ .live → s'.subs u = s.subs u := by
  have hready := h.call k hm.born
  have hbody : ∀ {c b : Nat} {v : Body}, (s.bodies c).phase = .ready →
      (s.bodies b).phase ≠ .ready → update s.bodies c v b = s.bodies b := by
    intro c b v hc hb
    exact update_of_ne (show b ≠ c from fun he => hb (he ▸ hc)) ..
  have htoken : ∀ {c t : Nat} {v : Token}, (s.tokens c).phase = .live →
      (s.tokens t).phase ≠ .live → update s.tokens c v t = s.tokens t := by
    intro c t v hc ht
    exact update_of_ne (show t ≠ c from fun he => ht (he ▸ hc)) ..
  have hsub : ∀ {c u : Nat} {v : Subscription}, (s.subs c).phase = .live →
      (s.subs u).phase ≠ .live → update s.subs c v u = s.subs u := by
    intro c u v hc hu
    exact update_of_ne (show u ≠ c from fun he => hu (he ▸ hc)) ..
  cases hm with
  | again => exact ⟨fun b => hbody hready, fun _ _ => rfl, fun _ _ => rfl⟩
  | enter => exact ⟨fun b => hbody hready, fun _ _ => rfl, fun _ _ => rfl⟩
  | relatedDone => exact ⟨fun b => hbody hready, fun _ _ => rfl, fun _ _ => rfl⟩
  | nestedDone c k' todo hpc =>
    have hc := h.todo k c (by rw [hpc]; exact List.mem_cons_self)
    exact ⟨fun b => hbody hc, fun _ _ => rfl, fun _ _ => rfl⟩
  | token t todo hpc =>
    have hlive := hc.live hr (k := k) (t := t) (.inl (by rw [hpc]; exact List.mem_cons_self))
    exact ⟨fun _ _ => rfl, fun _ => htoken hlive, fun _ _ => rfl⟩
  | tokenDone t todo hpc =>
    have hlive := hc.live hr (k := k) (t := t) (.inr (by rw [hpc]; rfl))
    exact ⟨fun _ _ => rfl, fun _ => htoken hlive, fun _ _ => rfl⟩
  | run t u subs todo hpc =>
    have hu := hc.subs k t (by rw [hpc]; rfl) u (by rw [hpc]; exact List.mem_cons_self)
    exact ⟨fun _ _ => rfl, fun _ _ => rfl, fun _ => hsub ((hr.sub t u).mp hu).1⟩
  | submit t u subs todo hpc =>
    have hu := hc.subAt k t u (by rw [hpc]; rfl) (by rw [hpc]; rfl)
    exact ⟨fun _ _ => rfl, fun _ _ => rfl, fun _ => hsub ((hr.sub t u).mp hu).1⟩
  | _ => exact ⟨fun _ _ => rfl, fun _ _ => rfl, fun _ _ => rfl⟩

theorem Born.call_move (h : Born s) (hr : Registered s) (hc : Current s)
    (hm : CallMove s k (s.calls k).body s') : Born s' := by
  have f := hm.frame
  obtain ⟨hbodies, htokens, hsubs⟩ := hm.unborn h hr hc
  obtain ⟨hrelated, htodo⟩ := hm.related
  refine ⟨fun b hb => ?_, fun t ht => ?_, fun t ht => ?_, fun u hu => ?_, fun u hu => ?_,
    fun k' hk' => ?_, fun b c hp => ?_, fun b c hb => ?_, fun k' c hk' => ?_⟩
  · rw [f.phase] at hb
    rw [hbodies b (by simp [hb]), h.body b hb]
  · rw [f.tokenPhase] at ht
    rw [htokens t (by simp [ht]), h.token t ht]
  · rw [f.tokenPhase] at ht
    rw [f.phase, f.tokenBody]
    exact h.tokenBody t ht
  · rw [f.subPhase] at hu
    rw [hsubs u (by simp [hu]), h.sub u hu]
  · rw [f.subPhase] at hu
    rw [f.tokenPhase, f.subToken]
    exact h.subToken u hu
  · rw [f.phase, f.body]
    by_cases hk : k' = k
    · exact h.call k' (hk ▸ hm.born)
    · exact h.call k' (f.other k' hk ▸ hk')
  · rw [f.parent] at hp
    rw [f.phase]
    exact h.parent b c hp
  · rw [f.phase]
    exact h.related b c (hrelated b hb)
  · rw [f.phase]
    by_cases hk : k' = k
    · rw [hk] at hk'
      exact (htodo c hk').elim (h.todo k c) (h.related _ c)
    · rw [f.other k' hk] at hk'
      exact h.todo k' c hk'

end Call

/-! ## The invariant -/

theorem Inv.move {s s' : St} {e : Ev} (h : Inv s) (hm : Move s e s') : Inv s' := by
  obtain ⟨hb, hl, hr, hc⟩ := h
  cases hm with
  | source hm =>
    have f := hm.frame hb.body
    exact ⟨hb.source hm, hl.source f, hr.source f, hc.source f⟩
  | token hm =>
    exact ⟨hb.token_move hm, hl.token_move hm.frame, hr.token_move hb hm,
      hc.token_move hb hl hr hm⟩
  | sub hm => exact ⟨hb.sub_move hm, hl.sub_move hm.frame, hr.sub_move hm, hc.sub_move hm⟩
  | call k _ hm =>
    exact ⟨hb.call_move hr hc hm, hl.call_move hm, hr.call_move hm.frame, hc.call_move hr hm⟩

/-- The token that a call is at, or has yet to tell, is alive. -/
theorem Inv.born_at {s : St} (h : Inv s) (k t : Nat)
    (ht : t ∈ (s.calls k).pc.tokensTodo ∨ (s.calls k).pc.at? = some t) :
    (s.tokens t).phase = .live :=
  h.current.live h.registered ht

/-- A token is on the list of one call only: the one that holds the lock of its body. -/
theorem Inv.todo_holder {s : St} (hi : Inv s) {k t : Nat} (ht : t ∈ (s.calls k).pc.tokensTodo) :
    (s.bodies (s.tokens t).body).lock = some k := by
  have hb := ((hi.registered.token _ t).mp (hi.current.tokens k t ht)).2
  refine (hi.locks.holder _ k).mpr ⟨hb.symm, ?_⟩
  cases hpc : (s.calls k).pc with
  | unborn => rw [hpc] at ht; cases ht
  | enter => rw [hpc] at ht; cases ht
  | done => rw [hpc] at ht; cases ht
  | _ => rfl

/-- A step is one of call `k`, or leaves it where it is. -/
theorem Inv.call_step {s s' : St} {e : Ev} (hi : Inv s) (hst : step s e = some s') (k : Nat) :
    CallKept (s.calls k) (s'.calls k) ∨ CallMove s k (s.calls k).body s' := by
  cases step_move hst with
  | source hm => exact .inl ((hm.frame hi.born.body).calls k)
  | token hm =>
    rw [hm.frame.calls]
    exact .inl .same
  | sub hm =>
    rw [hm.frame.calls]
    exact .inl .same
  | call k' _ hm =>
    by_cases hk : k = k'
    · exact .inr (hk ▸ hm)
    · rw [hm.frame.other k hk]
      exact .inl .same

/-- The invariant holds in every state of every run. -/
theorem reach_inv {s : St} (h : sys.Reach s) : Inv s :=
  Sys.Inductive.reach ⟨Inv.init, fun _ _ _ hi _ hst => hi.move (step_move hst)⟩ h

end Cancel

end Corsl
