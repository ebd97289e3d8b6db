import Corsl.Cancel.Basic

/-!
# What one step of the cancellation system does

`Move s e s'`: the step `e` from `s` to `s'`, one constructor for each branch of the code, with
the guards of the branch. `step_move` is the inversion of `step`; the invariants are case analyses
on `Move`, grouped by the data that a move changes:

* `SourceMove`, `TokenMove`, `SubMove`: the steps of sources, tokens and subscriptions;
* `CallMove`: the steps of a call of `cancel`.
-/

namespace Corsl

open Conc Function

namespace Cancel

/-- The steps of sources, and the start of calls of `cancel`. -/
inductive SourceMove (s : St) : Ev → St → Prop
  | newSource (b : Nat) : (s.bodies b).phase = .unborn →
    SourceMove s (.newSource b)
      { s with bodies := update s.bodies b { phase := .ready, refs := [.source] } }
  | copySource (b : Nat) : (s.bodies b).phase = .ready → .source ∈ (s.bodies b).refs →
    SourceMove s (.copySource b) { s with
      bodies := update s.bodies b { s.bodies b with refs := .source :: (s.bodies b).refs } }
  | dropSource (b : Nat) : (s.bodies b).phase = .ready →
    SourceMove s (.dropSource b) { s with
      bodies := update s.bodies b { s.bodies b with refs := (s.bodies b).refs.erase .source } }
  | connect (b c : Nat) : (s.bodies b).phase = .ready → .source ∈ (s.bodies b).refs →
    (s.bodies c).phase = .unborn → b ≠ c →
    SourceMove s (.connect b c) { s with
      bodies := update (update s.bodies b
        { s.bodies b with refs := .connect c :: (s.bodies b).refs }) c
        { phase := .connecting, parent := some b, refs := [.source] } }
  | link (b c : Nat) : (s.bodies c).phase = .connecting → (s.bodies c).parent = some b →
    (s.bodies b).lock = none →
    SourceMove s (.link c) { s with
      bodies := update (update s.bodies b
        { (s.bodies b).addRelated c with refs := (s.bodies b).refs.erase (.connect c) }) c
        { s.bodies c with phase := .ready } }
  | cancel (b k : Nat) : (s.bodies b).phase = .ready → .source ∈ (s.bodies b).refs →
    (s.calls k).pc = .unborn →
    SourceMove s (.cancel b k) { s with
      bodies := update s.bodies b { s.bodies b with refs := .call k :: (s.bodies b).refs }
      calls := update s.calls k { pc := .enter, body := b, outer := true } }
  | nest (k k' c : Nat) (todo : List Nat) : (s.calls k).pc = .related (c :: todo) →
    (s.bodies c).refs ≠ [] → (s.calls k').pc = .unborn → k ≠ k' →
    SourceMove s (.nest k k') { s with
      bodies := update s.bodies c { s.bodies c with refs := .call k' :: (s.bodies c).refs }
      calls := update (update s.calls k { s.calls k with pc := .nested c k' todo }) k'
        { pc := .enter, body := c, outer := false } }

/-- The steps of tokens. -/
inductive TokenMove (s : St) : Ev → St → Prop
  | begin (t b : Nat) (coro : Option Nat) : (s.bodies b).phase = .ready →
    .source ∈ (s.bodies b).refs → (s.tokens t).phase = .unborn →
    TokenMove s (.tokenBegin t b coro) { s with
      bodies := update s.bodies b { s.bodies b with refs := .token t :: (s.bodies b).refs }
      tokens := update s.tokens t { phase := .begun, body := b, coro } }
  | read (t : Nat) : (s.tokens t).phase = .begun → (s.bodies (s.tokens t).body).lock = none →
    TokenMove s (.tokenRead t) { s with
      tokens := update s.tokens t
        { s.tokens t with
          phase := .read, cancelled := (s.bodies (s.tokens t).body).cancelled } }
  | throws (t : Nat) : (s.tokens t).phase = .read → (s.tokens t).cancelled = true →
    TokenMove s (.tokenCheck t) { s with
      bodies := update s.bodies (s.tokens t).body { s.bodies (s.tokens t).body with
        refs := (s.bodies (s.tokens t).body).refs.erase (.token t) }
      tokens := update s.tokens t { s.tokens t with phase := .threw } }
  | checked (t : Nat) : (s.tokens t).phase = .read → (s.tokens t).cancelled = false →
    TokenMove s (.tokenCheck t)
      { s with tokens := update s.tokens t { s.tokens t with phase := .checked } }
  | add (t : Nat) : (s.tokens t).phase = .checked → (s.bodies (s.tokens t).body).lock = none →
    TokenMove s (.tokenAdd t) { s with
      bodies := update s.bodies (s.tokens t).body ((s.bodies (s.tokens t).body).addToken t)
      tokens := update s.tokens t { s.tokens t with phase := .live } }
  | remove (t : Nat) : (s.tokens t).phase = .live → (s.bodies (s.tokens t).body).lock = none →
    (s.tokens t).users = [] →
    TokenMove s (.tokenRemove t) { s with
      bodies := update s.bodies (s.tokens t).body ((s.bodies (s.tokens t).body).removeToken t)
      tokens := update s.tokens t { s.tokens t with phase := .removed } }
  | release (t : Nat) : (s.tokens t).phase = .removed →
    TokenMove s (.tokenRelease t) { s with
      bodies := update s.bodies (s.tokens t).body { s.bodies (s.tokens t).body with
        refs := (s.bodies (s.tokens t).body).refs.erase (.token t) }
      tokens := update s.tokens t { s.tokens t with phase := .gone } }

/-- The steps of subscriptions and of their `run()`. -/
inductive SubMove (s : St) : Ev → St → Prop
  | begin (u t : Nat) : (s.tokens t).phase = .live → (s.subs u).phase = .unborn →
    SubMove s (.subBegin u t) { s with
      tokens := update s.tokens t { s.tokens t with users := u :: (s.tokens t).users }
      subs := update s.subs u { phase := .begun, token := t } }
  | throws (u : Nat) : (s.subs u).phase = .begun →
    (s.tokens (s.subs u).token).cancelled = true →
    SubMove s (.subCheck u) { s with
      tokens := update s.tokens (s.subs u).token { s.tokens (s.subs u).token with
        users := (s.tokens (s.subs u).token).users.erase u }
      subs := update s.subs u { s.subs u with phase := .threw } }
  | checked (u : Nat) : (s.subs u).phase = .begun →
    (s.tokens (s.subs u).token).cancelled = false →
    SubMove s (.subCheck u)
      { s with subs := update s.subs u { s.subs u with phase := .checked } }
  | add (u : Nat) : (s.subs u).phase = .checked → (s.tokens (s.subs u).token).lock = none →
    SubMove s (.subAdd u) { s with
      tokens := update s.tokens (s.subs u).token
        ((s.tokens (s.subs u).token).addSubscription u)
      subs := update s.subs u { s.subs u with phase := .live } }
  | remove (u : Nat) : (s.subs u).phase = .live → (s.tokens (s.subs u).token).lock = none →
    SubMove s (.subRemove u) { s with
      tokens := update s.tokens (s.subs u).token
        ((s.tokens (s.subs u).token).removeSubscription u)
      subs := update s.subs u { s.subs u with phase := .removed } }
  | done (u : Nat) : (s.subs u).phase = .removed → (s.subs u).completed = true →
    SubMove s (.subDone u) { s with
      tokens := update s.tokens (s.subs u).token { s.tokens (s.subs u).token with
        users := (s.tokens (s.subs u).token).users.erase u }
      subs := update s.subs u { s.subs u with phase := .gone } }
  | callback (u : Nat) : 0 < (s.subs u).pending →
    SubMove s (.callback u) { s with
      subs := update s.subs u { s.subs u with
        pending := (s.subs u).pending - 1, running := (s.subs u).running + 1
        invoked := (s.subs u).invoked + 1 } }
  | complete (u : Nat) : 0 < (s.subs u).running →
    SubMove s (.complete u) { s with
      subs := update s.subs u
        { s.subs u with running := (s.subs u).running - 1, completed := true } }

/-- The steps of call `k` of `cancel` on body `b`. -/
inductive CallMove (s : St) (k b : Nat) : St → Prop
  /-- The body is cancelled already. -/
  | again : (s.calls k).pc = .enter → (s.bodies b).lock = none → (s.bodies b).cancelled = true →
    CallMove s k b (s.leave k none (s.bodies b).related)
  | enter : (s.calls k).pc = .enter → (s.bodies b).lock = none →
    (s.bodies b).cancelled = false →
    CallMove s k b { s.goto k (.tokens (s.bodies b).tokens) with
      bodies := update s.bodies b { s.bodies b with lock := some k, cancelled := true } }
  | tokensDone : (s.calls k).pc = .tokens [] →
    CallMove s k b (s.goto k (.related (s.bodies b).related))
  | token (t : Nat) (todo : List Nat) : (s.calls k).pc = .tokens (t :: todo) →
    (s.tokens t).lock = none →
    CallMove s k b { s.goto k (.promise t todo) with
      tokens := update s.tokens t { s.tokens t with lock := some k, cancelled := true } }
  | noPromise (t : Nat) (todo : List Nat) : (s.calls k).pc = .promise t todo →
    (s.tokens t).coro = none →
    CallMove s k b (s.goto k (.callbacks t (s.tokens t).callbacks todo))
  | promise (t p : Nat) (todo : List Nat) : (s.calls k).pc = .promise t todo →
    (s.tokens t).coro = some p →
    CallMove s k b { s.goto k (.callbacks t (s.tokens t).callbacks todo) with
      promises := update s.promises p (s.promises p).cancel }
  | tokenDone (t : Nat) (todo : List Nat) : (s.calls k).pc = .callbacks t [] todo →
    CallMove s k b { s.goto k (.tokens todo) with
      tokens := update s.tokens t { s.tokens t with lock := none } }
  | run (t u : Nat) (subs todo : List Nat) : (s.calls k).pc = .callbacks t (u :: subs) todo →
    CallMove s k b { s.goto k (.submit t u subs todo) with
      subs := update s.subs u
        { s.subs u with completed := false, runs := (s.subs u).runs + 1 } }
  | submit (t u : Nat) (subs todo : List Nat) : (s.calls k).pc = .submit t u subs todo →
    CallMove s k b { s.goto k (.callbacks t subs todo) with
      subs := update s.subs u { s.subs u with pending := (s.subs u).pending + 1 } }
  | relatedDone : (s.calls k).pc = .related [] → CallMove s k b (s.leave k none [])
  /-- The weak pointer has expired. -/
  | skip (c : Nat) (todo : List Nat) : (s.calls k).pc = .related (c :: todo) →
    (s.bodies c).refs = [] → CallMove s k b (s.goto k (.related todo))
  | nestedDone (c k' : Nat) (todo : List Nat) : (s.calls k).pc = .nested c k' todo →
    (s.calls k').pc = .done →
    CallMove s k b { s.goto k (.related todo) with
      bodies := update s.bodies c
        { s.bodies c with refs := (s.bodies c).refs.erase (.call k') } }

/-- What one step does (module doc). -/
inductive Move (s : St) (e : Ev) (s' : St) : Prop
  | source : SourceMove s e s' → Move s e s'
  | token : TokenMove s e s' → Move s e s'
  | sub : SubMove s e s' → Move s e s'
  | call (k : Nat) : e = .call k → CallMove s k (s.calls k).body s' → Move s e s'

theorem hasSource_iff {s : St} {b : Nat} : s.hasSource b = true ↔
    (s.bodies b).phase = .ready ∧ .source ∈ (s.bodies b).refs := by
  simp [St.hasSource]

theorem sourceStep_move {s s' : St} {e : Ev} (h : sourceStep s e = some s') :
    SourceMove s e s' := by
  unfold sourceStep at h
  split at h
  · split at h
    · cases h; exact .newSource _ (by assumption)
    · cases h
  · split at h
    · rename_i hs
      cases h
      exact .copySource _ (hasSource_iff.mp hs).1 (hasSource_iff.mp hs).2
    · cases h
  · split at h
    · rename_i hs
      cases h
      exact .dropSource _ (hasSource_iff.mp hs).1
    · cases h
  · split at h
    · rename_i b c hs
      cases h
      obtain ⟨hp, hr⟩ := hasSource_iff.mp hs.1
      refine .connect b c hp hr hs.2 fun he => ?_
      rw [he, hs.2] at hp
      cases hp
    · cases h
  · split at h
    · split at h
      · cases h
      · rename_i b hph hpar hl
        cases h
        exact .link b _ hph hpar (by simpa using hl)
    · cases h
  · split at h
    · rename_i b k hs
      cases h
      exact .cancel b k (hasSource_iff.mp hs.1).1 (hasSource_iff.mp hs.1).2 hs.2
    · cases h
  · split at h
    · rename_i k k' _ c todo hpc
      split at h
      · rename_i hs
        cases h
        refine .nest k k' c todo hpc (by simpa [Body.expired] using hs.1) hs.2 fun he => ?_
        rw [← he, hpc] at hs
        cases hs.2
      · cases h
    · cases h
  · cases h

theorem tokenStep_move {s s' : St} {e : Ev} (h : tokenStep s e = some s') : TokenMove s e s' := by
  unfold tokenStep at h
  split at h
  · split at h
    · rename_i t b coro hs
      cases h
      exact .begin t b coro (hasSource_iff.mp hs.1).1 (hasSource_iff.mp hs.1).2 hs.2
    · cases h
  · simp only at h
    split at h
    · rename_i t hs
      cases h
      exact .read t hs.1 hs.2
    · cases h
  · simp only at h
    split at h
    · rename_i t hs
      split at h
      · rename_i hc
        cases h
        exact .throws t hs (Token.checkCancelled_error hc)
      · rename_i hc
        cases h
        exact .checked t hs (Token.checkCancelled_ok hc)
    · cases h
  · simp only at h
    split at h
    · rename_i t hs
      cases h
      exact .add t hs.1 hs.2
    · cases h
  · simp only at h
    split at h
    · rename_i t hs
      cases h
      exact .remove t hs.1 hs.2.1 hs.2.2
    · cases h
  · simp only at h
    split at h
    · rename_i t hs
      cases h
      exact .release t hs
    · cases h
  · cases h

theorem subStep_move {s s' : St} {e : Ev} (h : subStep s e = some s') : SubMove s e s' := by
  unfold subStep at h
  split at h
  · split at h
    · rename_i u t hs
      cases h
      exact .begin u t hs.1 hs.2
    · cases h
  · simp only at h
    split at h
    · rename_i u hs
      split at h
      · rename_i hc
        cases h
        exact .throws u hs (Token.checkCancelled_error hc)
      · rename_i hc
        cases h
        exact .checked u hs (Token.checkCancelled_ok hc)
    · cases h
  · simp only at h
    split at h
    · rename_i u hs
      cases h
      exact .add u hs.1 hs.2
    · cases h
  · simp only at h
    split at h
    · rename_i u hs
      cases h
      exact .remove u hs.1 hs.2
    · cases h
  · simp only at h
    split at h
    · rename_i u hs
      cases h
      exact .done u hs.1 hs.2
    · cases h
  · split at h
    · rename_i u hs
      cases h
      exact .callback u hs
    · cases h
  · split at h
    · rename_i u hs
      cases h
      exact .complete u hs
    · cases h
  · cases h

theorem callStep_move {s s' : St} {k : Nat} (h : callStep s k = some s') :
    CallMove s k (s.calls k).body s' := by
  unfold callStep at h
  cases hpc : (s.calls k).pc with
  | unborn => simp only [hpc] at h; cases h
  | done => simp only [hpc] at h; cases h
  | enter =>
    simp only [hpc] at h
    split at h
    · cases h
    · rename_i hl
      split at h
      · rename_i hc
        cases h
        exact .again hpc (by simpa using hl) hc
      · rename_i hc
        cases h
        exact .enter hpc (by simpa using hl) (by simpa using hc)
  | tokens todo =>
    cases todo with
    | nil => simp only [hpc] at h; cases h; exact .tokensDone hpc
    | cons t todo =>
      simp only [hpc] at h
      split at h
      · cases h
      · rename_i hl
        cases h
        exact .token t todo hpc (by simpa using hl)
  | promise t todo =>
    cases hco : (s.tokens t).coro with
    | none => simp only [hpc, hco] at h; cases h; exact .noPromise t todo hpc hco
    | some p => simp only [hpc, hco] at h; cases h; exact .promise t p todo hpc hco
  | callbacks t subs todo =>
    cases subs with
    | nil => simp only [hpc] at h; cases h; exact .tokenDone t todo hpc
    | cons u subs => simp only [hpc] at h; cases h; exact .run t u subs todo hpc
  | submit t u subs todo => simp only [hpc] at h; cases h; exact .submit t u subs todo hpc
  | related todo =>
    cases todo with
    | nil => simp only [hpc] at h; cases h; exact .relatedDone hpc
    | cons c todo =>
      simp only [hpc] at h
      split at h
      · rename_i he
        cases h
        exact .skip c todo hpc (by simpa [Body.expired] using he)
      · cases h
  | nested c k' todo =>
    simp only [hpc] at h
    split at h
    · rename_i hd
      cases h
      exact .nestedDone c k' todo hpc hd
    · cases h

/-- Every step is a move. -/
theorem step_move {s s' : St} {e : Ev} (h : step s e = some s') : Move s e s' := by
  unfold step at h
  split at h
  · exact .call _ rfl (callStep_move h)
  · cases h1 : sourceStep s e with
    | some s1 => rw [h1] at h; cases h; exact .source (sourceStep_move h1)
    | none =>
      cases h2 : tokenStep s e with
      | some s2 => rw [h1, h2] at h; cases h; exact .token (tokenStep_move h2)
      | none => rw [h1, h2] at h; exact .sub (subStep_move h)

/-! ## What a step leaves alone -/

/-- A call before and after a step of a source: it starts, or it starts its nested call. -/
inductive CallKept (c : Call) : Call → Prop
  | same : CallKept c c
  | start (c' : Call) : c.pc = .unborn → c'.pc = .enter → CallKept c c'
  | nest (b k : Nat) (todo : List Nat) : c.pc = .related (b :: todo) →
    CallKept c { c with pc := .nested b k todo }

/-- What does not tell an unborn call from one that enters, nor a call that comes to a related body
from one that waits for it, stays as it is. -/
theorem CallKept.pc_eq {c c' : Call} (h : CallKept c c') {α : Type} (f : CancelPc → α)
    (henter : f .enter = f .unborn)
    (hnest : ∀ b k todo, f (.nested b k todo) = f (.related (b :: todo))) : f c'.pc = f c.pc := by
  cases h with
  | same => rfl
  | start _ h h' => rw [h, h', henter]
  | nest b k todo h => rw [h, ← hnest b k todo]

theorem CallKept.body {c c' : Call} (h : CallKept c c') (hc : c.pc ≠ .unborn) :
    c'.body = c.body := by
  cases h with
  | start _ h _ => exact absurd h hc
  | same => rfl
  | nest => rfl

/-- Body `b` before and after the step `e` of a source. -/
inductive BodyKept (e : Ev) (b : Nat) (x : Body) : Body → Prop
  | same : BodyKept e b x x
  | new : x.phase = .unborn → BodyKept e b x { phase := .ready, refs := [.source] }
  | connecting (p : Nat) : e = .connect p b → x.phase = .unborn →
    BodyKept e b x { phase := .connecting, parent := some p, refs := [.source] }
  | shared (r : Ref) : x.refs ≠ [] → BodyKept e b x { x with refs := r :: x.refs }
  | dropped : BodyKept e b x { x with refs := x.refs.erase .source }
  /-- The body gets a related body. -/
  | related (c : Nat) : e = .link c → c ≠ b →
    BodyKept e b x { x.addRelated c with refs := x.refs.erase (.connect c) }
  | linked : e = .link b → x.phase = .connecting → BodyKept e b x { x with phase := .ready }

theorem SourceMove.body {s s' : St} {e : Ev} (hm : SourceMove s e s') (x : Nat) :
    BodyKept e x (s.bodies x) (s'.bodies x) := by
  have key : ∀ (b : Nat) (v : Body), BodyKept e b (s.bodies b) v →
      BodyKept e x (s.bodies x) (update s.bodies b v x) := by
    intro b v hv
    by_cases hx : x = b
    · rw [hx, update_self]
      exact hv
    · rw [update_of_ne hx]
      exact .same
  cases hm with
  | newSource b hp => exact key b _ (.new hp)
  | copySource b _ hr => exact key b _ (.shared _ (List.ne_nil_of_mem hr))
  | dropSource b _ => exact key b _ .dropped
  | connect b c _ hr hc =>
    by_cases hx : x = c
    · subst hx
      simpa using .connecting b rfl hc
    · simp only [update_of_ne hx]
      exact key b _ (.shared _ (List.ne_nil_of_mem hr))
  | link b c hp =>
    by_cases hx : x = c
    · subst hx
      simpa using .linked rfl hp
    · simp only [update_of_ne hx]
      by_cases hb : x = b
      · subst hb
        simpa using .related c rfl (Ne.symm hx)
      · rw [update_of_ne hb]
        exact .same
  | cancel b k _ hr => exact key b _ (.shared _ (List.ne_nil_of_mem hr))
  | nest k k' c _ _ hr => exact key c _ (.shared _ hr)

section BodyKept

variable {e : Ev} {b : Nat} {x x' : Body}

theorem BodyKept.content (h : BodyKept e b x x') (hb : x.phase = .unborn → x = {}) :
    x'.lock = x.lock ∧ x'.cancelled = x.cancelled ∧ x'.tokens = x.tokens := by
  cases h with
  | new hp => rw [hb hp]; exact ⟨rfl, rfl, rfl⟩
  | connecting p _ hp => rw [hb hp]; exact ⟨rfl, rfl, rfl⟩
  | _ => exact ⟨rfl, rfl, rfl⟩

theorem BodyKept.ready (h : BodyKept e b x x') (hp : x.phase = .ready) : x'.phase = .ready := by
  cases h with
  | new => rfl
  | linked => rfl
  | connecting _ _ hu => rw [hp] at hu; cases hu
  | _ => exact hp

/-- Only `create_connected_source` makes a source with a parent. -/
theorem BodyKept.parent (h : BodyKept e b x x') (hl : ∀ c, e ≠ .link c) {p : Nat}
    (hpar : x'.parent = some p) (hp : x'.phase = .ready) :
    x.parent = some p ∧ x.phase = .ready := by
  cases h with
  | new => cases hpar
  | connecting => cases hp
  | linked he => exact absurd he (hl b)
  | _ => exact ⟨hpar, hp⟩

/-- Nobody shares a body again that nobody shares. -/
theorem BodyKept.refs_nil (h : BodyKept e b x x') (hp : x.phase ≠ .unborn) (hr : x.refs = []) :
    x'.refs = [] := by
  cases h with
  | new hu => exact absurd hu hp
  | connecting _ _ hu => exact absurd hu hp
  | shared r hne => exact absurd hr hne
  | dropped => simp [hr]
  | related => simp [hr]
  | _ => exact hr

/-- A body gets related bodies only from `create_connected_source`. -/
theorem BodyKept.related_eq (h : BodyKept e b x x') (hp : x.phase ≠ .unborn)
    (hl : ∀ c, e ≠ .link c) : x'.related = x.related := by
  cases h with
  | new hu => exact absurd hu hp
  | connecting _ _ hu => exact absurd hu hp
  | related c he => exact absurd he (hl c)
  | _ => rfl

end BodyKept

/-- What a step of a source leaves alone. -/
structure SourceFrame (s s' : St) : Prop where
  tokens : s'.tokens = s.tokens
  subs : s'.subs = s.subs
  promises : s'.promises = s.promises
  calls : ∀ k, CallKept (s.calls k) (s'.calls k)
  lock : ∀ b, (s'.bodies b).lock = (s.bodies b).lock
  cancelled : ∀ b, (s'.bodies b).cancelled = (s.bodies b).cancelled
  listed : ∀ b, (s'.bodies b).tokens = (s.bodies b).tokens
  ready : ∀ b, (s.bodies b).phase = .ready → (s'.bodies b).phase = .ready

theorem SourceMove.frame {s s' : St} {e : Ev} (hm : SourceMove s e s')
    (hb : ∀ b, (s.bodies b).phase = .unborn → s.bodies b = {}) : SourceFrame s s' := by
  have hcalls : ∀ k, CallKept (s.calls k) (s'.calls k) := by
    intro x
    cases hm with
    | cancel b k _ _ hk =>
      by_cases hx : x = k
      · rw [hx]
        exact .start _ hk (by simp)
      · simpa [hx] using CallKept.same
    | nest k k' c todo hk _ hk' hne =>
      by_cases hx' : x = k'
      · rw [hx']
        exact .start _ hk' (by simp)
      · by_cases hx : x = k
        · simpa [hx, hne] using CallKept.nest c k' todo hk
        · simpa [hx, hx'] using CallKept.same
    | _ => exact .same
  have hrest : s'.tokens = s.tokens ∧ s'.subs = s.subs ∧ s'.promises = s.promises := by
    cases hm <;> exact ⟨rfl, rfl, rfl⟩
  have hbody := fun b => (hm.body b).content (hb b)
  exact ⟨hrest.1, hrest.2.1, hrest.2.2, hcalls, fun b => (hbody b).1, fun b => (hbody b).2.1,
    fun b => (hbody b).2.2, fun b => (hm.body b).ready⟩

/-- What a step of a token leaves alone. -/
structure TokenFrame (s s' : St) : Prop where
  subs : s'.subs = s.subs
  calls : s'.calls = s.calls
  promises : s'.promises = s.promises
  lock : ∀ b, (s'.bodies b).lock = (s.bodies b).lock
  cancelled : ∀ b, (s'.bodies b).cancelled = (s.bodies b).cancelled
  related : ∀ b, (s'.bodies b).related = (s.bodies b).related
  phase : ∀ b, (s'.bodies b).phase = (s.bodies b).phase
  parent : ∀ b, (s'.bodies b).parent = (s.bodies b).parent

theorem TokenMove.frame {s s' : St} {e : Ev} (hm : TokenMove s e s') : TokenFrame s s' := by
  have hbodies : ∀ b, s'.bodies b =
      { s.bodies b with refs := (s'.bodies b).refs, tokens := (s'.bodies b).tokens } := by
    intro b
    cases hm <;> first
      | rfl
      | exact update_rel
          (r := fun (b b' : Body) => b' = { b with refs := b'.refs, tokens := b'.tokens })
          (fun _ => rfl) rfl b
  have hrest : s'.subs = s.subs ∧ s'.calls = s.calls ∧ s'.promises = s.promises := by
    cases hm <;> exact ⟨rfl, rfl, rfl⟩
  exact ⟨hrest.1, hrest.2.1, hrest.2.2, fun b => by rw [hbodies b], fun b => by rw [hbodies b],
    fun b => by rw [hbodies b], fun b => by rw [hbodies b], fun b => by rw [hbodies b]⟩

/-- What a step of a subscription leaves alone. -/
structure SubFrame (s s' : St) : Prop where
  bodies : s'.bodies = s.bodies
  calls : s'.calls = s.calls
  promises : s'.promises = s.promises
  phase : ∀ t, (s'.tokens t).phase = (s.tokens t).phase
  body : ∀ t, (s'.tokens t).body = (s.tokens t).body
  coro : ∀ t, (s'.tokens t).coro = (s.tokens t).coro
  lock : ∀ t, (s'.tokens t).lock = (s.tokens t).lock
  cancelled : ∀ t, (s'.tokens t).cancelled = (s.tokens t).cancelled

theorem SubMove.frame {s s' : St} {e : Ev} (hm : SubMove s e s') : SubFrame s s' := by
  have htokens : ∀ t, s'.tokens t =
      { s.tokens t with users := (s'.tokens t).users, callbacks := (s'.tokens t).callbacks } := by
    intro t
    cases hm <;> first
      | rfl
      | exact update_rel
          (r := fun (t t' : Token) => t' = { t with users := t'.users, callbacks := t'.callbacks })
          (fun _ => rfl) rfl t
  have hrest : s'.bodies = s.bodies ∧ s'.calls = s.calls ∧ s'.promises = s.promises := by
    cases hm <;> exact ⟨rfl, rfl, rfl⟩
  exact ⟨hrest.1, hrest.2.1, hrest.2.2, fun t => by rw [htokens t], fun t => by rw [htokens t],
    fun t => by rw [htokens t], fun t => by rw [htokens t], fun t => by rw [htokens t]⟩

/-- What a step of call `k` leaves alone. -/
structure CallFrame (s s' : St) (k : Nat) : Prop where
  other : ∀ k', k' ≠ k → s'.calls k' = s.calls k'
  callBody : (s'.calls k).body = (s.calls k).body
  phase : ∀ b, (s'.bodies b).phase = (s.bodies b).phase
  parent : ∀ b, (s'.bodies b).parent = (s.bodies b).parent
  listed : ∀ b, (s'.bodies b).tokens = (s.bodies b).tokens
  cancelled : ∀ b, (s.bodies b).cancelled = true → (s'.bodies b).cancelled = true
  tokenPhase : ∀ t, (s'.tokens t).phase = (s.tokens t).phase
  tokenBody : ∀ t, (s'.tokens t).body = (s.tokens t).body
  coro : ∀ t, (s'.tokens t).coro = (s.tokens t).coro
  callbacks : ∀ t, (s'.tokens t).callbacks = (s.tokens t).callbacks
  users : ∀ t, (s'.tokens t).users = (s.tokens t).users
  flag : ∀ t, (s.tokens t).cancelled = true → (s'.tokens t).cancelled = true
  subPhase : ∀ u, (s'.subs u).phase = (s.subs u).phase
  subToken : ∀ u, (s'.subs u).token = (s.subs u).token

theorem CallMove.frame {s s' : St} {k : Nat} (hm : CallMove s k (s.calls k).body s') :
    CallFrame s s' k := by
  have hcalls : (∀ k', k' ≠ k → s'.calls k' = s.calls k') ∧
      (s'.calls k).body = (s.calls k).body := by
    cases hm <;> exact ⟨fun k' hk => update_of_ne hk .., by simp [St.goto, St.leave]⟩
  have hbodies : ∀ b, (s'.bodies b).phase = (s.bodies b).phase ∧
      (s'.bodies b).parent = (s.bodies b).parent ∧ (s'.bodies b).tokens = (s.bodies b).tokens ∧
      ((s.bodies b).cancelled = true → (s'.bodies b).cancelled = true) := by
    have key := fun (b c : Nat) (v : Body) => update_rel (m := s.bodies) (i := c) (v := v) (j := b)
      (r := fun b b' => b'.phase = b.phase ∧ b'.parent = b.parent ∧ b'.tokens = b.tokens ∧
        (b.cancelled = true → b'.cancelled = true)) (fun _ => ⟨rfl, rfl, rfl, id⟩)
    intro b
    cases hm with
    | again => exact key b _ _ ⟨rfl, rfl, rfl, id⟩
    | enter => exact key b _ _ ⟨rfl, rfl, rfl, fun _ => rfl⟩
    | relatedDone => exact key b _ _ ⟨rfl, rfl, rfl, id⟩
    | nestedDone => exact key b _ _ ⟨rfl, rfl, rfl, id⟩
    | _ => exact ⟨rfl, rfl, rfl, id⟩
  have htokens : ∀ t, s'.tokens t = { s.tokens t with
      lock := (s'.tokens t).lock, cancelled := (s'.tokens t).cancelled } ∧
      ((s.tokens t).cancelled = true → (s'.tokens t).cancelled = true) := by
    have key := fun (t c : Nat) (v : Token) => update_rel (m := s.tokens) (i := c) (v := v) (j := t)
      (r := fun t t' => t' = { t with lock := t'.lock, cancelled := t'.cancelled } ∧
        (t.cancelled = true → t'.cancelled = true)) (fun _ => ⟨rfl, id⟩)
    intro t
    cases hm with
    | token => exact key t _ _ ⟨rfl, fun _ => rfl⟩
    | tokenDone => exact key t _ _ ⟨rfl, id⟩
    | _ => exact ⟨rfl, id⟩
  have hsubs : ∀ u, (s'.subs u).phase = (s.subs u).phase ∧
      (s'.subs u).token = (s.subs u).token := by
    have key := fun (u c : Nat) (v : Subscription) => update_rel (m := s.subs) (i := c) (v := v)
      (j := u) (r := fun u u' => u'.phase = u.phase ∧ u'.token = u.token) (fun _ => ⟨rfl, rfl⟩)
    intro u
    cases hm with
    | run => exact key u _ _ ⟨rfl, rfl⟩
    | submit => exact key u _ _ ⟨rfl, rfl⟩
    | _ => exact ⟨rfl, rfl⟩
  exact ⟨hcalls.1, hcalls.2, fun b => (hbodies b).1, fun b => (hbodies b).2.1,
    fun b => (hbodies b).2.2.1, fun b => (hbodies b).2.2.2, fun t => by rw [(htokens t).1],
    fun t => by rw [(htokens t).1], fun t => by rw [(htokens t).1], fun t => by rw [(htokens t).1],
    fun t => by rw [(htokens t).1], fun t => (htokens t).2, fun u => (hsubs u).1,
    fun u => (hsubs u).2⟩

/-! ## One token or subscription -/

/-- A step of a token sets a flag only when the constructor reads it, and makes no token live but
one that has found it not set. -/
theorem TokenMove.flag {s s' : St} {e : Ev} (hm : TokenMove s e s') (t : Nat) :
    ((s.tokens t).phase ≠ .unborn → (s.tokens t).phase ≠ .begun →
      (s'.tokens t).cancelled = (s.tokens t).cancelled) ∧
    ((s'.tokens t).phase = .checked → (s.tokens t).phase = .checked ∨
      (s'.tokens t).cancelled = false) ∧
    ((s'.tokens t).phase = .live →
      (s.tokens t).phase = .live ∨ (s.tokens t).phase = .checked ∧ e = .tokenAdd t) := by
  have key := fun (x : Nat) (v : Token) => update_rel (m := s.tokens) (i := x) (v := v) (j := t)
    (r := fun a b => (a.phase ≠ .unborn → a.phase ≠ .begun → b.cancelled = a.cancelled) ∧
      (b.phase = .checked → a.phase = .checked ∨ b.cancelled = false) ∧
      (b.phase = .live → a.phase = .live ∨ a.phase = .checked ∧ e = .tokenAdd t))
    fun _ => ⟨fun _ _ => rfl, fun hp => .inl hp, fun hp => .inl hp⟩
  cases hm with
  | begin x b coro _ _ hp =>
    exact key x _ ⟨fun hu => absurd hp hu, fun hp => (by cases hp), fun hp => (by cases hp)⟩
  | read x hp =>
    exact key x _ ⟨fun _ hb => absurd hp hb, fun hp => (by cases hp), fun hp => (by cases hp)⟩
  | throws x hp => exact key x _ ⟨fun _ _ => rfl, fun hp => (by cases hp), fun hp => (by cases hp)⟩
  | checked x hp hc => exact key x _ ⟨fun _ _ => rfl, fun _ => .inr hc, fun hp => (by cases hp)⟩
  | add x hp =>
    by_cases hx : t = x
    · subst hx
      simp [hp]
    · simp only [update_of_ne hx]
      exact ⟨fun _ _ => trivial, .inl, .inl⟩
  | remove x => exact key x _ ⟨fun _ _ => rfl, fun hp => (by cases hp), fun hp => (by cases hp)⟩
  | release x => exact key x _ ⟨fun _ _ => rfl, fun hp => (by cases hp), fun hp => (by cases hp)⟩

/-- What a step of a token leaves alone of every token. -/
structure TokenKept (t t' : Token) : Prop where
  phase : t'.phase ≠ .unborn
  body : t'.body = t.body
  coro : t'.coro = t.coro
  lock : t'.lock = t.lock
  callbacks : t'.callbacks = t.callbacks

theorem TokenMove.kept {s s' : St} {e : Ev} (hm : TokenMove s e s') {t : Nat}
    (ht : (s.tokens t).phase ≠ .unborn) : TokenKept (s.tokens t) (s'.tokens t) := by
  have hkeep : TokenKept (s.tokens t) (s.tokens t) := ⟨ht, rfl, rfl, rfl, rfl⟩
  have key : ∀ (x : Nat) (v : Token), (t = x → TokenKept (s.tokens t) v) →
      TokenKept (s.tokens t) (update s.tokens x v t) := by
    intro x v hv
    by_cases hx : t = x
    · rw [← hx, update_self]
      exact hv hx
    · rw [update_of_ne hx]
      exact hkeep
  cases hm with
  | begin x b coro _ _ hp => exact key x _ fun hx => absurd (hx ▸ hp) ht
  | read x => exact key x _ fun hx => hx ▸ ⟨by simp, rfl, rfl, rfl, rfl⟩
  | throws x => exact key x _ fun hx => hx ▸ ⟨by simp, rfl, rfl, rfl, rfl⟩
  | checked x => exact key x _ fun hx => hx ▸ ⟨by simp, rfl, rfl, rfl, rfl⟩
  | add x => exact key x _ fun hx => hx ▸ ⟨by simp, rfl, rfl, rfl, rfl⟩
  | remove x => exact key x _ fun hx => hx ▸ ⟨by simp, rfl, rfl, rfl, rfl⟩
  | release x => exact key x _ fun hx => hx ▸ ⟨by simp, rfl, rfl, rfl, rfl⟩

/-- The list of a token changes under its lock. -/
theorem SubMove.callbacks {s s' : St} {e : Ev} (hm : SubMove s e s') (t : Nat) :
    (s'.tokens t).callbacks = (s.tokens t).callbacks ∨ (s.tokens t).lock = none := by
  have key := fun (x : Nat) (v : Token) => update_rel (m := s.tokens) (i := x) (v := v) (j := t)
    (r := fun t t' => t'.callbacks = t.callbacks ∨ t.lock = none) fun _ => .inl rfl
  cases hm with
  | begin => exact key _ _ (.inl rfl)
  | throws => exact key _ _ (.inl rfl)
  | done => exact key _ _ (.inl rfl)
  | add u _ hl => exact key _ _ (.inr hl)
  | remove u _ hl => exact key _ _ (.inr hl)
  | _ => exact .inl rfl

/-- A step of a subscription runs no callback. -/
theorem SubMove.runs {s s' : St} {e : Ev} (hm : SubMove s e s')
    (hb : ∀ u, (s.subs u).phase = .unborn → s.subs u = {}) (u : Nat) :
    (s'.subs u).runs = (s.subs u).runs ∧
    ((s.subs u).phase = .unborn ∨ (s'.subs u).token = (s.subs u).token) := by
  have key := fun (x : Nat) (v : Subscription) => update_rel (m := s.subs) (i := x) (v := v)
    (j := u) (r := fun a b => b.runs = a.runs ∧ (a.phase = .unborn ∨ b.token = a.token))
    fun _ => ⟨rfl, .inr rfl⟩
  cases hm with
  | begin x t _ hp => exact key _ _ ⟨by rw [hb x hp], .inl hp⟩
  | _ => exact key _ _ ⟨rfl, .inr rfl⟩

/-! ## The call that steps -/

theorem goto_pc (s : St) (k : Nat) (pc : CancelPc) : ((s.goto k pc).calls k).pc = pc := by
  simp [St.goto]

theorem leave_pc (s : St) (k : Nat) (lock : Option Nat) (related : List Nat) :
    ((s.leave k lock related).calls k).pc = .done := goto_pc s k .done

section Call

variable {s s' : St} {k : Nat}

/-- A call sets the flag of its next token. -/
theorem CallMove.flag (hm : CallMove s k (s.calls k).body s') (t : Nat) :
    (s'.tokens t).cancelled = (s.tokens t).cancelled ∨
    ∃ todo, (s.calls k).pc = .tokens (t :: todo) ∧ (s'.calls k).pc = .promise t todo := by
  cases hm with
  | token x todo hpc =>
    by_cases ht : t = x
    · rw [ht]
      exact .inr ⟨todo, hpc, goto_pc ..⟩
    · exact .inl (congrArg Token.cancelled (update_of_ne ht ..))
  | tokenDone x todo hpc => exact .inl (update_proj Token.cancelled (by rfl) t)
  | _ => exact .inl rfl

/-- A call sets the flag of its body when it enters it. -/
theorem CallMove.cancels (hm : CallMove s k (s.calls k).body s') (b : Nat) :
    (s'.bodies b).cancelled = (s.bodies b).cancelled ∨
    b = (s.calls k).body ∧ (s.calls k).pc = .enter ∧
      (s'.calls k).pc = .tokens (s.bodies b).tokens := by
  cases hm with
  | enter hpc =>
    by_cases hb : b = (s.calls k).body
    · rw [hb]
      exact .inr ⟨rfl, hpc, goto_pc ..⟩
    · exact .inl (congrArg Body.cancelled (update_of_ne hb ..))
  | again => exact .inl (update_proj Body.cancelled (by rfl) b)
  | relatedDone => exact .inl (update_proj Body.cancelled (by rfl) b)
  | nestedDone => exact .inl (update_proj Body.cancelled (by rfl) b)
  | _ => exact .inl rfl

/-- A call runs the next callback of the token that it is at. -/
theorem CallMove.runs (hm : CallMove s k (s.calls k).body s') (u : Nat) :
    (s'.subs u).runs = (s.subs u).runs ∨
    ∃ t subs todo, (s.calls k).pc = .callbacks t (u :: subs) todo ∧
      (s'.calls k).pc = .submit t u subs todo ∧ (s'.subs u).runs = (s.subs u).runs + 1 := by
  cases hm with
  | run t v subs todo hpc =>
    by_cases hu : u = v
    · subst hu
      exact .inr ⟨t, subs, todo, hpc, goto_pc .., by simp⟩
    · exact .inl (congrArg Subscription.runs (update_of_ne hu ..))
  | submit t v subs todo hpc => exact .inl (update_proj Subscription.runs (by rfl) u)
  | _ => exact .inl rfl

/-- A promise stays cancelled. -/
theorem CallMove.promises (hm : CallMove s k (s.calls k).body s') (p : Nat)
    (h : (s.promises p).cancelled = true) : (s'.promises p).cancelled = true := by
  cases hm with
  | promise t q todo hpc hc =>
    exact update_rel (r := fun a b : PromiseBase0 => a.cancelled = true → b.cancelled = true)
      (fun _ => id) (fun _ => rfl) p h
  | _ => exact h

theorem CallMove.outer {b : Nat} (hm : CallMove s k b s') :
    (s'.calls k).outer = (s.calls k).outer := by
  cases hm <;> simp [St.goto, St.leave]

theorem CallMove.born {b : Nat} (hm : CallMove s k b s') : (s.calls k).pc ≠ .unborn := by
  cases hm <;> simp_all

/-- The call that steps has entered its body. -/
theorem CallMove.entered {b : Nat} (hm : CallMove s k b s') :
    (s'.calls k).pc ≠ .unborn ∧ (s'.calls k).pc ≠ .enter := by
  cases hm <;> simp [St.goto, St.leave]

end Call

end Cancel

end Corsl
