import Corsl.Conc.Owner
import Corsl.Future.Completion

/-!
# Future objects and the frames of their coroutines

A program that calls coroutines and moves their futures around. `World` has a frame for each call,
with the local system of `Future/Basic.lean`, and the future objects, each with its `coro`.

* `step`: calls, default and move construction, move assignment (which swaps), destruction, and the
  steps of the frames. Destruction of an object that holds a handle is the step `release` of its
  frame, and nothing else is.
* `Handles`: a handle whose frame is not released is in exactly one object.
* `frame_destroyed`: each frame is destroyed once, by its completion or by the destructor of its
  future, after both have happened.
-/

namespace Corsl

open Conc Function

namespace Future

variable {T : Type}

inductive ObjectPhase where
  | unborn | live | dead
  deriving DecidableEq, Repr

/-- `future<T>`; `coro` is the number of a frame. -/
structure Object where
  phase : ObjectPhase := .unborn
  coro : Option Nat := none

/-- The frames and the future objects of a program. -/
structure World (T : Type) where
  frames : Nat → Option (St T) := fun _ => none
  objects : Nat → Object := fun _ => {}

/-- The steps of the program. -/
inductive WorldEv (T : Type) where
  /-- A coroutine is called: `get_return_object` makes the object `o`. -/
  | call (o f : Nat)
  /-- `future()`. -/
  | default (o : Nat)
  /-- `future(future &&)`: object `o` from `o'`. -/
  | moveConstruct (o o' : Nat)
  /-- `operator =(future &&)`: `o = std::move(o')`. -/
  | moveAssign (o o' : Nat)
  /-- `~future`. -/
  | destruct (o : Nat)
  /-- A step of frame `f`. -/
  | frame (f : Nat) (e : Ev T)

/-- The step is the destructor's decrement. -/
def Ev.isRelease : Ev T → Bool
  | .release => true
  | .lock | .set _ | .complete | .await | .wait _ | .consume | .destroy => false

namespace World

/-- The frame whose handle object `o` holds, while `o` is alive. -/
def handle (w : World T) (o : Nat) : Option Nat :=
  if (w.objects o).phase = .live then (w.objects o).coro else none

/-- The future of frame `f` exists. -/
def Alive (w : World T) (f : Nat) : Prop := ∃ s, w.frames f = some s ∧ s.releaser = .held

/-- One step of the program. -/
def step (w : World T) : WorldEv T → Option (World T)
  | .call o f =>
    if (w.objects o).phase = .unborn ∧ (w.frames f).isNone then
      some { frames := update w.frames f (some {})
             objects := update w.objects o { phase := .live, coro := some f } }
    else none
  | .default o =>
    if (w.objects o).phase = .unborn then
      some { w with objects := update w.objects o { phase := .live, coro := none } }
    else none
  | .moveConstruct o o' =>
    if (w.objects o).phase = .unborn ∧ (w.objects o').phase = .live then
      some { w with
        objects := update (update w.objects o { phase := .live, coro := (w.objects o').coro }) o'
          { w.objects o' with coro := none } }
    else none
  | .moveAssign o o' =>
    if (w.objects o).phase = .live ∧ (w.objects o').phase = .live then
      some { w with
        objects := update (update w.objects o { w.objects o with coro := (w.objects o').coro }) o'
          { w.objects o' with coro := (w.objects o).coro } }
    else none
  | .destruct o =>
    if (w.objects o).phase = .live then
      match (w.objects o).coro with
      | none =>
        some { w with objects := update w.objects o { w.objects o with phase := .dead } }
      | some f =>
        match w.frames f with
        | none => none
        | some s => (Future.step .coroutine s .release).map fun s' =>
          { frames := update w.frames f (some s')
            objects := update w.objects o { w.objects o with phase := .dead } }
    else none
  | .frame f e =>
    match w.frames f with
    | none => none
    | some s =>
      if e.isRelease then none
      else (Future.step .coroutine s e).map fun s' =>
        { w with frames := update w.frames f (some s') }

/-- The program. -/
def sys (T : Type) : Sys (World T) (WorldEv T) := ⟨{}, step⟩

/-! ## What one step does -/

/-- One step of the program, one constructor for each branch. -/
inductive Move (w : World T) : World T → Prop
  | call (o f : Nat) : (w.objects o).phase = .unborn → w.frames f = none →
    Move w { frames := update w.frames f (some {})
             objects := update w.objects o { phase := .live, coro := some f } }
  | default (o : Nat) : (w.objects o).phase = .unborn →
    Move w { w with objects := update w.objects o { phase := .live, coro := none } }
  | moveConstruct (o o' : Nat) : (w.objects o).phase = .unborn → (w.objects o').phase = .live →
    Move w { w with
      objects := update (update w.objects o { phase := .live, coro := (w.objects o').coro }) o'
        { w.objects o' with coro := none } }
  | moveAssign (o o' : Nat) : (w.objects o).phase = .live → (w.objects o').phase = .live →
    Move w { w with
      objects := update (update w.objects o { w.objects o with coro := (w.objects o').coro }) o'
        { w.objects o' with coro := (w.objects o).coro } }
  | destructEmpty (o : Nat) : (w.objects o).phase = .live → (w.objects o).coro = none →
    Move w { w with objects := update w.objects o { w.objects o with phase := .dead } }
  | destruct (o f : Nat) (s s' : St T) : w.handle o = some f → w.frames f = some s →
    Future.step .coroutine s .release = some s' →
    Move w { frames := update w.frames f (some s')
             objects := update w.objects o { w.objects o with phase := .dead } }
  | frame (f : Nat) (e : Ev T) (s s' : St T) : w.frames f = some s → e.isRelease = false →
    Future.step .coroutine s e = some s' →
    Move w { w with frames := update w.frames f (some s') }

theorem step_move {w w' : World T} {e : WorldEv T} (h : step w e = some w') : Move w w' := by
  cases e with
  | call o f =>
    simp only [step] at h
    split at h
    · rename_i hg; cases h; exact .call o f hg.1 (by simpa using hg.2)
    · cases h
  | default o =>
    simp only [step] at h
    split at h
    · rename_i hg; cases h; exact .default o hg
    · cases h
  | moveConstruct o o' =>
    simp only [step] at h
    split at h
    · rename_i hg; cases h; exact .moveConstruct o o' hg.1 hg.2
    · cases h
  | moveAssign o o' =>
    simp only [step] at h
    split at h
    · rename_i hg; cases h; exact .moveAssign o o' hg.1 hg.2
    · cases h
  | destruct o =>
    simp only [step] at h
    split at h
    · rename_i hl
      split at h
      · rename_i hc; cases h; exact .destructEmpty o hl hc
      · rename_i f hc
        split at h
        · cases h
        · rename_i s hs
          obtain ⟨s', hs', rfl⟩ := Option.map_eq_some_iff.mp h
          exact .destruct o f s s' (by rw [handle, if_pos hl, hc]) hs hs'
    · cases h
  | frame f e =>
    simp only [step] at h
    split at h
    · cases h
    · rename_i s hs
      split at h
      · cases h
      · rename_i he
        obtain ⟨s', hs', rfl⟩ := Option.map_eq_some_iff.mp h
        exact .frame f e s s' hs (by simpa using he) hs'

/-! ## The frames -/

/-- A frame that is there after a step is new, or was there and has taken a step at most. -/
theorem Move.frame_cases {w w' : World T} (hm : Move w w') {f : Nat} {s' : St T}
    (hs : w'.frames f = some s') : s' = {} ∨ w.frames f = some s' ∨
      ∃ s e, w.frames f = some s ∧ Future.step .coroutine s e = some s' := by
  cases hm with
  | call o g =>
    simp only [update_apply] at hs
    split at hs
    · cases hs; exact .inl rfl
    · exact .inr (.inl hs)
  | destruct o g s t _ hg hst =>
    simp only [update_apply] at hs
    split at hs
    · rename_i hf; cases hs; rw [hf]; exact .inr (.inr ⟨s, .release, hg, hst⟩)
    · exact .inr (.inl hs)
  | frame g e s t hg _ hst =>
    simp only [update_apply] at hs
    split at hs
    · rename_i hf; cases hs; rw [hf]; exact .inr (.inr ⟨s, e, hg, hst⟩)
    · exact .inr (.inl hs)
  | default => exact .inr (.inl hs)
  | moveConstruct => exact .inr (.inl hs)
  | moveAssign => exact .inr (.inl hs)
  | destructEmpty => exact .inr (.inl hs)

/-- Each frame is in a state that a run of its own system reaches. -/
theorem frame_reach {w : World T} (hw : (sys T).Reach w) :
    ∀ f s, w.frames f = some s → (Future.sys .coroutine T).Reach s := by
  refine Sys.Inductive.reach (I := fun w : World T =>
    ∀ f s, w.frames f = some s → (Future.sys .coroutine T).Reach s)
    ⟨fun f s h => (by cases h), fun w e w' ih _ hst f s' hs => ?_⟩ hw
  obtain rfl | hs | ⟨s, e, hs, he⟩ := (step_move hst).frame_cases hs
  · exact .init
  · exact ih f s' hs
  · exact .step e (ih f s hs) trivial he

/-! ## The handles -/

/-- The destructor's decrement ends the time that a future exists. -/
theorem release_held {s s' : St T} (h : Future.step .coroutine s .release = some s') :
    s.releaser = .held ∧ s'.releaser ≠ .held := by
  have key : ∀ b : Bool, (if b then Releaser.destroying else .released) ≠ .held := by decide
  simp only [Future.step] at h
  split at h
  · rename_i hr _; cases h; exact ⟨hr, key _⟩
  · rename_i hr _; cases h; exact ⟨hr, key _⟩
  · rename_i hr _; cases h; exact ⟨hr, key _⟩
  · cases h

/-- No other step does. -/
theorem releaser_held_iff {s s' : St T} {e : Ev T} (he : e.isRelease = false)
    (h : Future.step .coroutine s e = some s') : s'.releaser = .held ↔ s.releaser = .held := by
  cases e with
  | release => cases he
  | complete =>
    have hm : CompleterMove .coroutine s s' := completeStep_move h
    cases hm <;> rfl
  | consume =>
    have hm : ConsumerMove s s' := consumeStep_move h
    cases hm <;> rfl
  | lock => simp only [Future.step] at h; split at h <;> cases h; rfl
  | set value => simp only [Future.step] at h; split at h <;> cases h; rfl
  | await =>
    simp only [Future.step] at h
    split at h
    · split at h <;> cases h <;> rfl
    · cases h
  | wait isGet =>
    simp only [Future.step] at h
    split at h
    · split at h <;> cases h <;> rfl
    · cases h
  | destroy =>
    simp only [Future.step] at h
    split at h
    · rename_i hr
      split at h
      · cases h
      · cases h
        simp only [hr]
        split <;> simp
    · rename_i hr
      cases h
      simp [hr]
    · cases h

/-- A handle whose future exists is in one object, and an object's handle is of such a frame. -/
def Handles (w : World T) : Prop := Owned w.handle w.Alive

/-- An object that is not there yet, or is destroyed, holds nothing. -/
theorem handle_eq_none {w : World T} {o : Nat} (h : (w.objects o).phase ≠ .live) :
    w.handle o = none := if_neg h

/-- Both move constructors and move assignment exchange two objects. -/
theorem handle_swap {w w' : World T} {o o' : Nat} {a b : Object}
    (ho : w'.objects = update (update w.objects o a) o' b)
    (ha : (if a.phase = .live then a.coro else none) = w.handle o')
    (hb : (if b.phase = .live then b.coro else none) = w.handle o) :
    w'.handle = w.handle ∘ Equiv.swap o o' := by
  funext x
  simp only [handle, ho, comp_apply]
  by_cases hx' : x = o'
  · rw [hx', update_self, Equiv.swap_apply_right]
    exact hb
  · rw [update_of_ne hx']
    by_cases hx : x = o
    · rw [hx, update_self, Equiv.swap_apply_left]
      exact ha
    · rw [update_of_ne hx, Equiv.swap_apply_of_ne_of_ne hx hx']

theorem handle_update {w w' : World T} {o : Nat} {a : Object}
    (ho : w'.objects = update w.objects o a) :
    w'.handle = update w.handle o (if a.phase = .live then a.coro else none) := by
  funext x
  simp only [handle, ho]
  by_cases hx : x = o
  · rw [hx, update_self, update_self]
  · rw [update_of_ne hx, update_of_ne hx, handle]

theorem alive_update {w w' : World T} {f : Nat} {s : St T}
    (hf : w'.frames = update w.frames f (some s)) (g : Nat) :
    w'.Alive g ↔ g = f ∧ s.releaser = .held ∨ g ≠ f ∧ w.Alive g := by
  simp only [Alive, hf]
  by_cases hg : g = f
  · simp [hg]
  · simp [hg]

theorem Handles.move {w w' : World T} (h : Handles w) (hm : Move w w') : Handles w' := by
  cases hm with
  | call o f ho hf =>
    have hfree : ¬w.Alive f := by rintro ⟨s, hs, -⟩; rw [hf] at hs; cases hs
    have ho' : w.handle o = none := handle_eq_none (by rw [ho]; decide)
    unfold Handles
    rw [handle_update rfl]
    refine (Owned.acquire h ho' hfree).congr fun g => ?_
    rw [alive_update rfl]
    by_cases hg : g = f <;> simp [hg, hfree]
  | default o ho =>
    have ho' : w.handle o = none := handle_eq_none (by rw [ho]; decide)
    unfold Handles
    rw [handle_update rfl]
    simp only [if_true]
    rw [← ho', update_eq_self]
    exact h
  | moveConstruct o o' ho ho' =>
    unfold Handles
    rw [handle_swap rfl (by simp [handle, ho']) (by simp [handle, ho, ho'])]
    exact Owned.permute h _
  | moveAssign o o' ho ho' =>
    unfold Handles
    rw [handle_swap rfl (by simp [handle, ho, ho']) (by simp [handle, ho, ho'])]
    exact Owned.permute h _
  | destructEmpty o ho hc =>
    have ho' : w.handle o = none := by rw [handle, if_pos ho, hc]
    unfold Handles
    rw [handle_update rfl]
    simp only [reduceCtorEq, if_false]
    rw [← ho', update_eq_self]
    exact h
  | destruct o f s s' ho hs hst =>
    unfold Handles
    rw [handle_update rfl]
    refine (Owned.release h ho).congr fun g => ?_
    rw [alive_update rfl]
    simp [(release_held hst).2]
  | frame f e s s' hs he hst =>
    refine Owned.congr h fun g => ?_
    rw [alive_update rfl, releaser_held_iff he hst]
    by_cases hg : g = f
    · simp [hg, Alive, hs]
    · simp [hg]

theorem reach_handles {w : World T} (hw : (sys T).Reach w) : Handles w := by
  refine Sys.Inductive.reach (I := Handles) ⟨?_, fun _ _ _ h _ hst => h.move (step_move hst)⟩ hw
  have h0 : (sys T).init.handle = fun _ => none := by
    funext o
    rfl
  unfold Handles
  rw [h0]
  refine Owned.none fun f hf => ?_
  obtain ⟨s, hs, -⟩ := hf
  cases hs

/-- Only the destructor of its holder ends a future. -/
theorem released_by_holder {w w' : World T} {e : WorldEv T} {f : Nat} {s s' : St T}
    (hst : step w e = some w') (hs : w.frames f = some s) (hs' : w'.frames f = some s')
    (hh : s.releaser = .held) (hr : s'.releaser ≠ .held) :
    ∃ o, e = .destruct o ∧ w.handle o = some f := by
  have same : w'.frames f = w.frames f → False := by
    intro h
    rw [h, hs] at hs'
    cases hs'
    exact hr hh
  cases e with
  | call o g =>
    simp only [step] at hst
    split at hst
    · rename_i hg
      cases hst
      refine (same (update_of_ne ?_ _ _)).elim
      rintro rfl
      rw [hs] at hg
      exact absurd hg.2 (by simp)
    · cases hst
  | default o =>
    simp only [step] at hst
    split at hst <;> cases hst
    exact (same rfl).elim
  | moveConstruct o o' =>
    simp only [step] at hst
    split at hst <;> cases hst
    exact (same rfl).elim
  | moveAssign o o' =>
    simp only [step] at hst
    split at hst <;> cases hst
    exact (same rfl).elim
  | destruct o =>
    refine ⟨o, rfl, ?_⟩
    simp only [step] at hst
    split at hst
    · rename_i hl
      split at hst
      · cases hst
        exact (same rfl).elim
      · rename_i g hc
        split at hst
        · cases hst
        · obtain ⟨t', -, rfl⟩ := Option.map_eq_some_iff.mp hst
          by_cases hg : f = g
          · rw [handle, if_pos hl, hc, hg]
          · exact (same (update_of_ne hg _ _)).elim
    · cases hst
  | frame g e =>
    simp only [step] at hst
    split at hst
    · cases hst
    · rename_i t ht
      split at hst
      · cases hst
      · rename_i he
        obtain ⟨t', ht', rfl⟩ := Option.map_eq_some_iff.mp hst
        by_cases hg : f = g
        · subst hg
          simp only [update_self, Option.some.injEq] at hs'
          rw [hs, Option.some.injEq] at ht
          subst ht hs'
          exact absurd ((releaser_held_iff (by simpa using he) ht').mpr hh) hr
        · exact (same (update_of_ne hg _ _)).elim

/-! ## The frame -/

/-- What becomes of frame `f`, in state `s`, and of its handle. -/
structure Destroyed (w : World T) (f : Nat) (s : St T) : Prop where
  once : s.destroyed.length ≤ 1
  /-- It has completed, and its future is gone. -/
  after : s.destroyed ≠ [] → s.completer.suspended = true ∧ s.releaser = .released
  /-- In a complete run one of the two sides has destroyed it. -/
  complete : s.completer = .done → s.releaser = .released →
    s.destroyed = [.completion] ∨ s.destroyed = [.release]
  /-- Without a future the completion goes on until the frame is destroyed. -/
  live : s.completer.hasSet = true → s.releaser ≠ .held → s.destroyed.length = 1 ∨
    (Future.step .coroutine s .complete).isSome = true ∨
      (Future.step .coroutine s .destroy).isSome = true
  /-- Its own completion destroys it after it has resumed every continuation. -/
  resumed : s.destroyed = [.completion] → ∀ n ∈ s.registered, n ∈ s.resumed.map Prod.fst
  /-- No step of the library uses it after that. -/
  defined : s.undefined = false
  /-- Its handle is in one object, and is the only reference. -/
  holder : s.releaser = .held → (∃! o, w.handle o = some f) ∧ s.p.useCount = 1
  /-- The destructor of that object ends this. -/
  ends : ∀ e w' s', step w e = some w' → w'.frames f = some s' → s.releaser = .held →
    s'.releaser ≠ .held → ∃ o, e = .destruct o ∧ w.handle o = some f
  /-- From then on it is in no object. -/
  gone : s.releaser ≠ .held → (∀ o, w.handle o ≠ some f) ∧ s.p.useCount = 0

theorem frame_live {s : St T} (h : Inv .coroutine s) (hv : s.completer.hasSet = true)
    (hr : s.releaser ≠ .held) : s.destroyed.length = 1 ∨
      (Future.step .coroutine s .complete).isSome = true ∨
        (Future.step .coroutine s .destroy).isSome = true := by
  by_cases hd : s.completer = .done
  · cases hr' : s.releaser with
    | held => exact absurd hr' hr
    | freeing => exact .inr (.inr (by simp [Future.step, hr']))
    | destroying =>
      have hc : s.consumer.holds = false := by
        by_contra hh
        have := h.locked.running (by simpa using hh)
        rw [hd] at this
        cases this
      have hl := h.locked.free (by rw [hd]; rfl) hc
      exact .inr (.inr (by simp [Future.step, hr', hl]))
    | released =>
      obtain hk | hk := h.freed.stays rfl (by rw [hd]; rfl)
      · exact .inl (by rw [h.freed.released hr' hk]; rfl)
      · exact .inl (by rw [hk]; rfl)
  · exact .inr (.inl (complete_enabled hv hd))

/-- Each frame is destroyed once, after it has completed and its future is gone. -/
theorem frame_destroyed {w : World T} (hw : (sys T).Reach w) {f : Nat} {s : St T}
    (hs : w.frames f = some s) : Destroyed w f s := by
  have h := reach_inv (frame_reach hw f s hs)
  have hh := reach_handles hw
  have hc := h.freed.count
  refine ⟨?_, fun hd => ?_, fun hd hr => ?_, frame_live h, fun hd => ?_, h.defined, fun hr => ?_,
    fun e w' s' hst hs' hr hr' => released_by_holder hst hs hs' hr hr', fun hr => ?_⟩
  · obtain hf | hf | hf := h.freed.frame
    · simp [hf]
    · simp [hf.1]
    · simp [hf.1]
  · obtain hf | hf | hf := h.freed.frame
    · exact absurd hf hd
    · exact ⟨by rw [hf.2.1]; rfl, hf.2.2.1⟩
    · exact ⟨h.freed.suspended hf.2.2, hf.2.1⟩
  · obtain hk | hk := h.freed.stays rfl (by rw [hd]; rfl)
    · exact .inr (h.freed.released hr hk)
    · exact .inl hk
  · obtain hf | hf | hf := h.freed.frame
    · rw [hf] at hd; cases hd
    · exact h.woken hf.2.1
    · rw [hf.1] at hd; cases hd
  · rw [if_pos hr] at hc
    exact ⟨Owned.existsUnique hh ⟨s, hs, hr⟩, hc⟩
  · rw [if_neg hr] at hc
    refine ⟨fun o ho => hr ?_, hc⟩
    obtain ⟨t, ht, htr⟩ := (hh.live_iff f).mpr ⟨o, ho⟩
    rw [hs] at ht
    cases ht
    exact htr

/-- A future that is moved into another object and destroyed there, while a coroutine that awaits
it is suspended. -/
def abandoned : List (WorldEv Nat) :=
  [.call 0 0, .default 1, .moveAssign 1 0, .frame 0 .await, .frame 0 .consume, .destruct 1,
    .frame 0 .destroy, .frame 0 .lock, .frame 0 (.set (.value 7)), .frame 0 .complete,
    .frame 0 .complete, .frame 0 .complete]

theorem frame_destroyed_abandoned : ∃ s, ((sys Nat).after abandoned).frames 0 = some s ∧
    Destroyed ((sys Nat).after abandoned) 0 s ∧ s.destroyed = [.completion] ∧
    s.resumed = [(0, .value 7)] :=
  ⟨_, rfl, frame_destroyed (Sys.reach_after (by decide)) rfl, by decide, by decide⟩

end World

end Future

end Corsl
