import Corsl.Conc.Measure
import Corsl.Conc.Roster
import Corsl.WhenAny.Basic

/-!
# `when_any` has one winner, and its block is the winner's

* `Move`: what one step does, one constructor for each branch; `step_move` is the inversion.
* `Owns`: who has a pointer to the block, by where everyone is. The owners are a roster
  (`Conc.Roster`) of them, so the block is there while anyone is who uses it.
* `Places`: which helpers the loop has started, and where the coroutine is.
* `Race`: the order of the exchanges. The first one takes the handle, and nobody else finds it.
* `Stored`: what the winner has stored, by where it is.
-/

namespace Corsl

open Conc Function

namespace WhenAny

variable {V : Type} {t : Tasks V}

/-! ## Where everyone is -/

namespace HelperPc

/-- It has a pointer to the block. -/
def owns : HelperPc → Bool
  | .unborn | .gone => false
  | .awaiting | .exchanging | .storing | .indexing | .excepting | .calling | .releasing => true

/-- It has done the exchange. -/
def exchanged : HelperPc → Bool
  | .unborn | .awaiting | .exchanging => false
  | .storing | .indexing | .excepting | .calling | .releasing | .gone => true

/-- It has the handle. -/
def holds : HelperPc → Bool
  | .storing | .indexing | .excepting | .calling => true
  | .unborn | .awaiting | .exchanging | .releasing | .gone => false

theorem exchanged_of_holds {pc : HelperPc} (h : pc.holds = true) : pc.exchanged = true := by
  cases pc <;> first | rfl | exact absurd h (by decide)

theorem owns_of_holds {pc : HelperPc} (h : pc.holds = true) : pc.owns = true := by
  cases pc <;> first | rfl | exact absurd h (by decide)

/-- What it stores next is what task `i` has. -/
def Fits (t : Tasks V) (i : Nat) : HelperPc → Prop
  | .storing => ∃ v, t.outcome i = .ok v ∧ t.isVoid i = false
  | .indexing => ∃ v, t.outcome i = .ok v
  | .excepting => ∃ e, t.outcome i = .error e
  | .unborn | .awaiting | .exchanging | .calling | .releasing | .gone => True

end HelperPc

namespace LoopPc

/-- The number of helpers that it has started. -/
def started (t : Tasks V) : LoopPc → Nat
  | .outside | .entered | .copying => 0
  | .starting i => i
  | .returned => t.size

/-- It has stored the handle. -/
def stored : LoopPc → Bool
  | .copying | .starting _ | .returned => true
  | .outside | .entered => false

/-- It uses the awaitable. -/
def uses : LoopPc → Bool
  | .entered | .copying => true
  | .outside | .starting _ | .returned => false

/-- `references[i]` is not null. -/
def refers (t : Tasks V) (i : Nat) : LoopPc → Bool
  | .starting j => j ≤ i && i < t.size
  | .outside | .entered | .copying | .returned => false

end LoopPc

namespace CoroPc

/-- It has gone on. -/
def goneOn : CoroPc V → Bool
  | .resumed | .done _ | .left _ => true
  | .idle | .suspended => false

/-- The result of its `co_await`. -/
def result : CoroPc V → Option (Except Exception (Nat × Option V))
  | .done r | .left r => some r
  | .idle | .suspended | .resumed => none

end CoroPc

/-- Who has a pointer to the block (module doc). -/
def Owns (t : Tasks V) (s : St V) : Owner → Prop
  | .awaitable => s.coro.hasLeft = false
  | .reference i => s.loop.refers t i = true
  | .helper i => (s.helpers i).owns = true

/-! ## What one step does -/

/-- The steps of the coroutine. -/
inductive CoroMove (t : Tasks V) (s : St V) : St V → Prop
  | ready : s.coro = .idle → t.size = 0 → CoroMove t s { s with coro := .resumed }
  | suspend : s.coro = .idle → (t.range = true → t.size ≠ 0) →
    CoroMove t s { s with coro := .suspended, loop := .entered }
  | result : s.coro = .resumed → CoroMove t s { s.touchAwaitable.touch with
      block := (s.block.awaitResume t).2, coro := .done (s.block.awaitResume t).1 }
  | leave (r : Except Exception (Nat × Option V)) : s.coro = .done r →
    CoroMove t s { s.release .awaitable with coro := .left r }

/-- The steps of `await_suspend`. -/
inductive LoopMove (t : Tasks V) (s : St V) : St V → Prop
  | enter : s.loop = .entered → LoopMove t s { s.touchAwaitable.touch with
      block := { s.block with resume := true }, loop := .copying }
  | copy : s.loop = .copying → LoopMove t s { s.touchAwaitable with
      owners := s.owners ++ (List.range t.size).map .reference, loop := .starting 0 }
  | start (i : Nat) : s.loop = .starting i → i < t.size →
    LoopMove t s { s.setHelper i .awaiting with
      owners := s.owners.erase (.reference i) ++ [.helper i], loop := .starting (i + 1) }
  | leave (i : Nat) : s.loop = .starting i → t.size ≤ i →
    LoopMove t s { s with loop := .returned }

/-- The steps of the helper of task `i`. -/
inductive HelperMove (t : Tasks V) (s : St V) (i : Nat) : St V → Prop
  | finish : s.helpers i = .awaiting → HelperMove t s i (s.setHelper i .exchanging)
  | win : s.helpers i = .exchanging → s.block.resume = true →
    HelperMove t s i { s.touch.setHelper i (wonPc t i) with
      block := { s.block with resume := false }
      exchanged := s.exchanged ++ [i], winners := s.winners ++ [i] }
  | lose : s.helpers i = .exchanging → s.block.resume = false →
    HelperMove t s i { s.touch.setHelper i .releasing with
      block := { s.block with resume := false }, exchanged := s.exchanged ++ [i] }
  | store (v : V) : s.helpers i = .storing → t.outcome i = .ok v →
    HelperMove t s i { s.touch.setHelper i .indexing with block := { s.block with result := v } }
  | index : s.helpers i = .indexing →
    HelperMove t s i { s.touch.setHelper i .calling with block := { s.block with index := i } }
  | except (e : Exception) : s.helpers i = .excepting → t.outcome i = .error e →
    HelperMove t s i
      { s.touch.setHelper i .calling with block := { s.block with exception := some e } }
  | call : s.helpers i = .calling → s.coro = .suspended →
    HelperMove t s i { s.setHelper i .releasing with coro := .resumed, resumes := s.resumes + 1 }
  | lost : s.helpers i = .calling → s.coro ≠ .suspended →
    HelperMove t s i { s.setHelper i .releasing with undefined := true, resumes := s.resumes + 1 }
  | release : s.helpers i = .releasing →
    HelperMove t s i ((s.release (.helper i)).setHelper i .gone)

/-- One step of the system. -/
inductive Move (t : Tasks V) (s s' : St V) : Prop
  | coro : CoroMove t s s' → Move t s s'
  | loop : LoopMove t s s' → Move t s s'
  | helper (i : Nat) : HelperMove t s i s' → Move t s s'

theorem suspendStep_move {s s' : St V} (h : suspendStep t s = some s') : LoopMove t s s' := by
  unfold suspendStep at h
  split at h
  · rename_i hl; cases h; exact .enter hl
  · rename_i hl; cases h; exact .copy hl
  · rename_i i hl
    split at h
    · rename_i hi; cases h; exact .start i hl hi
    · rename_i hi; cases h; exact .leave i hl (by omega)
  · cases h

theorem helperStep_move {s s' : St V} {i : Nat} (h : helperStep t s i = some s') :
    HelperMove t s i s' := by
  unfold helperStep at h
  split at h
  · rename_i hi; cases h; exact .finish hi
  · rename_i hi
    cases h
    cases hr : s.block.resume with
    | true => simp only [if_true]; exact .win hi hr
    | false => simp only [Bool.false_eq_true, if_false]; exact .lose hi hr
  · rename_i hi
    split at h
    · rename_i v hv; cases h; exact .store v hi hv
    · cases h
  · rename_i hi; cases h; exact .index hi
  · rename_i hi
    split at h
    · cases h
    · rename_i e he; cases h; exact .except e hi he
  · rename_i hi
    cases h
    unfold St.wake
    split
    · rename_i hc; exact .call hi hc
    · rename_i hc; exact .lost hi hc
  · rename_i hi; cases h; exact .release hi
  · cases h

/-- Every step is a move. -/
theorem step_move {s s' : St V} {e : Ev} (h : step t s e = some s') : Move t s s' := by
  cases e with
  | ready =>
    simp only [step] at h
    split at h
    · rename_i hc
      split at h
      · rename_i hr
        cases h
        simp only [awaitReady, Bool.and_eq_true, decide_eq_true_eq] at hr
        exact .coro (.ready hc hr.2)
      · rename_i hr
        cases h
        simp only [awaitReady, Bool.and_eq_true, decide_eq_true_eq, not_and] at hr
        exact .coro (.suspend hc hr)
    · cases h
  | suspend => exact .loop (suspendStep_move h)
  | helper i => exact .helper i (helperStep_move h)
  | resume =>
    simp only [step] at h
    split at h
    · rename_i hc; cases h; exact .coro (.result hc)
    · cases h
  | destroy =>
    simp only [step] at h
    split at h
    · rename_i r hc; cases h; exact .coro (.leave r hc)
    · cases h

/-! ## The invariants -/

/-- The block when the winner has stored all that it has. -/
def blockOf [Inhabited V] (t : Tasks V) (w : Nat) : Block V :=
  match t.outcome w with
  | .ok v => { result := if t.isVoid w then default else v, index := w }
  | .error e => { result := default, exception := some e }

/-- The block while its winner is at `pc`. -/
def winnerBlock [Inhabited V] (t : Tasks V) (w : Nat) : HelperPc → Block V
  | .storing | .excepting => { result := default }
  | .indexing => { result := (blockOf t w).result }
  | .unborn | .awaiting | .exchanging | .calling | .releasing | .gone => blockOf t w

/-- The block as `await_resume` finds it. -/
def St.written [Inhabited V] (t : Tasks V) (s : St V) : Block V :=
  match s.exchanged.head? with
  | none => { resume := s.loop.stored, result := default }
  | some w => winnerBlock t w (s.helpers w)

/-- The owners of the block (module doc). -/
structure Alive (t : Tasks V) (s : St V) : Prop where
  owners : Roster s.owners (Owns t s)
  destroyed : s.destroyed = s.owners.isEmpty

/-- The loop and the coroutine (module doc). -/
structure Places (t : Tasks V) (s : St V) : Prop where
  bound : s.loop.started t ≤ t.size
  started : ∀ i, s.helpers i ≠ .unborn ↔ i < s.loop.started t
  idle : s.coro = .idle → s.loop = .outside
  outside : s.loop = .outside → s.coro ≠ .suspended
  nonempty : s.loop ≠ .outside → t.size ≠ 0
  inline : s.coro.goneOn = true → s.loop = .outside → t.size = 0

/-- The exchanges (module doc). -/
structure Race (s : St V) : Prop where
  order : Roster s.exchanged fun i => (s.helpers i).exchanged = true
  winners : s.winners = s.exchanged.head?.toList
  holder : ∀ i, (s.helpers i).holds = true → s.exchanged.head? = some i ∧ s.coro = .suspended
  waiting : s.coro = .suspended → ∀ w, s.exchanged.head? = some w → (s.helpers w).holds = true
  goneOn : s.coro.goneOn = true → s.loop ≠ .outside → s.exchanged ≠ []
  resumes : s.resumes = if s.loop ≠ .outside ∧ s.coro.goneOn = true then 1 else 0

/-- What the winner has stored (module doc). -/
structure Stored [Inhabited V] (t : Tasks V) (s : St V) : Prop where
  fits : ∀ i, (s.helpers i).Fits t i
  block : s.block =
    if s.coro.result.isSome then ((s.written t).awaitResume t).2 else s.written t
  result : ∀ r, s.coro.result = some r → r = ((s.written t).awaitResume t).1

/-- The invariant. -/
structure Inv [Inhabited V] (t : Tasks V) (s : St V) : Prop where
  alive : Alive t s
  places : Places t s
  race : Race s
  stored : Stored t s
  fresh : s.stale = false
  defined : s.undefined = false

variable [Inhabited V]

theorem Inv.init : Inv t { block := { result := default } } := by
  refine ⟨⟨⟨fun o => ?_, by simp⟩, rfl⟩, ?_, ?_, ?_, rfl, rfl⟩
  · cases o <;> simp [Owns, CoroPc.hasLeft, LoopPc.refers, HelperPc.owns]
  · constructor <;> simp [LoopPc.started, CoroPc.goneOn]
  · constructor <;> simp [HelperPc.holds]
    exact ⟨by simp [HelperPc.exchanged], by simp⟩
  · constructor <;> simp [St.written, CoroPc.result, LoopPc.stored, HelperPc.Fits]

section Facts

variable {s : St V} {i : Nat}

/-- The block is there while anyone owns it. -/
theorem Inv.not_destroyed (h : Inv t s) {o : Owner} (ho : Owns t s o) : s.destroyed = false := by
  rw [h.alive.destroyed]
  have hm := (h.alive.owners.mem o).mpr ho
  cases hs : s.owners with
  | nil => rw [hs] at hm; cases hm
  | cons _ _ => rfl

/-- A helper that is there was started by a loop that has stored the handle. -/
theorem Inv.born (h : Inv t s) (hi : s.helpers i ≠ .unborn) :
    i < t.size ∧ s.loop.stored = true ∧ s.loop ≠ .outside ∧ s.loop.uses = false ∧
      s.coro ≠ .idle := by
  have hlt := (h.places.started i).mp hi
  have hidle := h.places.idle
  refine ⟨Nat.lt_of_lt_of_le hlt h.places.bound, ?_⟩
  cases hl : s.loop with
  | outside => rw [hl] at hlt; exact absurd hlt (Nat.not_lt_zero i)
  | entered => rw [hl] at hlt; exact absurd hlt (Nat.not_lt_zero i)
  | copying => rw [hl] at hlt; exact absurd hlt (Nat.not_lt_zero i)
  | starting j => exact ⟨rfl, by simp, rfl, fun hc => by rw [hidle hc] at hl; cases hl⟩
  | returned => exact ⟨rfl, by simp, rfl, fun hc => by rw [hidle hc] at hl; cases hl⟩

/-- While the coroutine has not gone on, and has left `await_ready`, it is suspended. -/
theorem Inv.suspended (h : Inv t s) (hi : s.helpers i ≠ .unborn) (hg : s.coro.goneOn = false) :
    s.coro = .suspended := by
  have hb := (h.born hi).2.2.2.2
  cases hc : s.coro with
  | idle => exact absurd hc hb
  | suspended => rfl
  | resumed => rw [hc] at hg; cases hg
  | done r => rw [hc] at hg; cases hg
  | left r => rw [hc] at hg; cases hg

/-- A task that has done the exchange is on the list. -/
theorem Inv.exchanged_ne_nil (h : Inv t s) (hi : (s.helpers i).exchanged = true) :
    s.exchanged ≠ [] := by
  have hm := (h.race.order.mem i).mpr hi
  intro h0
  rw [h0] at hm
  cases hm

/-- While no task has done the exchange, the coroutine has not gone on. -/
theorem Inv.not_goneOn (h : Inv t s) (hl : s.loop ≠ .outside) (h0 : s.exchanged = []) :
    s.coro.goneOn = false := by
  by_contra hg
  exact h.race.goneOn (by simpa using hg) hl h0

/-- The handle is there from its store to the first exchange. -/
theorem Inv.resume_eq (h : Inv t s) :
    s.block.resume = (s.loop.stored && s.exchanged.isEmpty) := by
  have hb := h.stored.block
  have hres : ∀ b : Block V, (b.awaitResume t).2.resume = b.resume := by
    intro b
    unfold Block.awaitResume
    split
    · rfl
    · split <;> rfl
  have hw : s.block.resume = (s.written t).resume := by
    rw [hb]
    split
    · exact hres _
    · rfl
  rw [hw, St.written]
  cases he : s.exchanged with
  | nil => simp
  | cons w ws =>
    simp only [List.head?_cons, List.isEmpty_cons, Bool.and_false]
    unfold winnerBlock blockOf
    cases s.helpers w <;> cases t.outcome w <;> rfl

end Facts

/-! ## The owners -/

section Owners

variable {s s' : St V} {i : Nat}

omit [Inhabited V]

/-- A step of someone who owns the block after as before. -/
theorem Alive.keep (h : Alive t s) (ho : s'.owners = s.owners)
    (hd : s'.destroyed = s.destroyed) (hc : s'.coro.hasLeft = s.coro.hasLeft)
    (hl : ∀ i, s'.loop.refers t i = s.loop.refers t i)
    (hh : ∀ i, (s'.helpers i).owns = (s.helpers i).owns) : Alive t s' := by
  refine ⟨?_, by rw [hd, ho, h.destroyed]⟩
  rw [ho]
  refine h.owners.congr fun o => ?_
  cases o <;> simp only [Owns, hc, hl, hh]

/-- The destructor of the pointer of `o`. -/
theorem Alive.release (h : Alive t s) {o : Owner} (ho : s'.owners = s.owners.erase o)
    (hd : s'.destroyed = (s.destroyed || (s.owners.erase o).isEmpty)) (hQ : ¬Owns t s' o)
    (hne : ∀ d, d ≠ o → (Owns t s' d ↔ Owns t s d)) : Alive t s' := by
  refine ⟨?_, ?_⟩
  · rw [ho]
    exact h.owners.erase hQ hne
  · rw [hd, ho, h.destroyed]
    cases s.owners <;> simp

/-- `references` is filled. -/
theorem Alive.copy (h : Alive t s) (hl : s.loop = .copying)
    (ho : s'.owners = s.owners ++ (List.range t.size).map .reference)
    (hd : s'.destroyed = s.destroyed) (hc : s'.coro = s.coro) (hl' : s'.loop = .starting 0)
    (hh : s'.helpers = s.helpers) (halive : s.destroyed = false) : Alive t s' := by
  have hinj : Function.Injective Owner.reference := fun _ _ h => by cases h; rfl
  refine ⟨?_, ?_⟩
  · rw [ho]
    refine h.owners.extend (List.nodup_range.map hinj) (fun o hm => ?_) fun o => ?_
    · obtain ⟨i, -, rfl⟩ := List.mem_map.mp hm
      simp [Owns, hl, LoopPc.refers]
    · cases o <;> simp [Owns, hc, hl, hl', hh, LoopPc.refers]
  · rw [hd, ho, halive]
    rw [h.destroyed] at halive
    cases hs : s.owners <;> simp [hs] at halive ⊢

/-- The pointer of `references[i]` moves into the helper. -/
theorem Alive.start (h : Alive t s) (hl : s.loop = .starting i)
    (hu : s.helpers i = .unborn) (ho : s'.owners = s.owners.erase (.reference i) ++ [.helper i])
    (hd : s'.destroyed = s.destroyed) (hc : s'.coro = s.coro) (hl' : s'.loop = .starting (i + 1))
    (hh : s'.helpers = update s.helpers i .awaiting) (halive : s.destroyed = false) :
    Alive t s' := by
  refine ⟨?_, by rw [hd, ho, halive]; simp⟩
  have herase : Roster (s.owners.erase (.reference i)) fun o => Owns t s o ∧ o ≠ .reference i :=
    h.owners.erase (by simp) fun d hd => and_iff_left hd
  rw [ho]
  refine herase.append ?_ ?_ fun o ho => ?_
  · simp [Owns, hu, HelperPc.owns]
  · simp [Owns, hh, HelperPc.owns]
  · cases o with
    | awaitable => simp [Owns, hc]
    | reference j =>
      simp only [Owns, hl, hl', LoopPc.refers, Bool.and_eq_true, decide_eq_true_eq, ne_eq,
        Owner.reference.injEq]
      omega
    | helper j =>
      have hj : j ≠ i := fun he => ho (by rw [he])
      simp [Owns, hh, update_of_ne hj]

end Owners

/-! ## The race -/

section Races

variable {s s' : St V} {i : Nat}

omit [Inhabited V]

/-- A step that changes nothing of the race. -/
theorem Race.keep (h : Race s) (hx : ∀ i, (s'.helpers i).exchanged = (s.helpers i).exchanged)
    (hd : ∀ i, (s'.helpers i).holds = (s.helpers i).holds) (he : s'.exchanged = s.exchanged)
    (hw : s'.winners = s.winners) (hc : s'.coro = s.coro) (hr : s'.resumes = s.resumes)
    (hl : s'.loop = .outside ↔ s.loop = .outside) : Race s' := by
  obtain ⟨order, winners, holder, waiting, goneOn, resumes⟩ := h
  refine ⟨?_, by rw [hw, he, winners], ?_, ?_, ?_, ?_⟩
  · rw [he]
    exact order.congr fun i => by rw [hx]
  · simpa only [hd, he, hc] using holder
  · simpa only [hd, he, hc] using waiting
  · simpa only [he, hc, ne_eq, hl] using goneOn
  · simpa only [hr, hc, ne_eq, hl] using resumes

/-- A step of the coroutine that has gone on. -/
theorem Race.goOn (h : Race s) (hh : s'.helpers = s.helpers) (he : s'.exchanged = s.exchanged)
    (hw : s'.winners = s.winners) (hr : s'.resumes = s.resumes) (hl : s'.loop = s.loop)
    (hg : s.coro.goneOn = true) (hg' : s'.coro.goneOn = true) : Race s' := by
  have hn : s.coro ≠ .suspended := by intro hc; rw [hc] at hg; cases hg
  have hn' : s'.coro ≠ .suspended := by intro hc; rw [hc] at hg'; cases hg'
  refine ⟨?_, by rw [hw, he, h.winners], fun i hi => ?_, fun hc => absurd hc hn', fun _ => ?_, ?_⟩
  · rw [he, hh]
    exact h.order
  · rw [hh] at hi
    exact absurd (h.holder i hi).2 hn
  · rw [hl, he]
    exact h.goneOn hg
  · rw [hr, h.resumes, hl, hg, hg']

/-- A step of the coroutine before it waits: there are no helpers yet. -/
theorem Race.enter (h : Race s) (hno : ∀ i, (s.helpers i).exchanged = false)
    (hh : s'.helpers = s.helpers) (he : s'.exchanged = s.exchanged)
    (hw : s'.winners = s.winners) (hr : s'.resumes = 0)
    (hg' : s'.coro.goneOn = true → s'.loop = .outside) : Race s' := by
  have hnil : s.exchanged = [] := List.eq_nil_iff_forall_not_mem.mpr fun i hi => by
    have := (h.order.mem i).mp hi
    rw [hno i] at this
    cases this
  refine ⟨?_, by rw [hw, he, h.winners], fun i hi => ?_, fun _ w hw' => ?_, fun hg hl => ?_, ?_⟩
  · rw [he, hh]
    exact h.order
  · rw [hh] at hi
    exact absurd (HelperPc.exchanged_of_holds hi) (by rw [hno i]; decide)
  · rw [he, hnil] at hw'
    cases hw'
  · exact absurd (hg' hg) hl
  · rw [hr, if_neg]
    rintro ⟨hl, hg⟩
    exact hl (hg' hg)

/-- The exchange of task `i`, the first one. -/
theorem Race.win (h : Race s) {pc : HelperPc} (hpc : pc.holds = true)
    (h0 : s.exchanged = []) (hc : s.coro = .suspended)
    (hh : s'.helpers = update s.helpers i pc) (he : s'.exchanged = s.exchanged ++ [i])
    (hw : s'.winners = s.winners ++ [i]) (hc' : s'.coro = s.coro) (hr : s'.resumes = s.resumes)
    (hl : s'.loop = s.loop) : Race s' := by
  have hno : ∀ j, (s.helpers j).exchanged = false := fun j => by
    by_contra hx
    have hm := (h.order.mem j).mpr (by simpa using hx)
    rw [h0] at hm
    cases hm
  refine ⟨?_, ?_, fun j hj => ?_, fun _ w hw' => ?_, fun _ _ => ?_, ?_⟩
  · rw [he, hh]
    refine h.order.append (c := i) ?_ ?_ fun d hd => ?_
    · rw [hno i]; simp
    · rw [update_self, HelperPc.exchanged_of_holds hpc]
    · rw [update_of_ne hd]
  · rw [hw, he, h.winners, h0]
    rfl
  · have hji : j = i := by
      by_contra hji
      rw [hh, update_of_ne hji] at hj
      exact absurd (HelperPc.exchanged_of_holds hj) (by rw [hno j]; decide)
    rw [he, h0, hc', hc, hji]
    exact ⟨rfl, rfl⟩
  · rw [he, h0] at hw'
    rw [← Option.some.inj hw', hh, update_self, hpc]
  · rw [he]
    simp
  · rw [hr, hc', hl, h.resumes]

/-- A later exchange, of task `i`. -/
theorem Race.lose (h : Race s) (hi : s.helpers i = .exchanging) (h0 : s.exchanged ≠ [])
    (hh : s'.helpers = update s.helpers i .releasing) (he : s'.exchanged = s.exchanged ++ [i])
    (hw : s'.winners = s.winners) (hc : s'.coro = s.coro) (hr : s'.resumes = s.resumes)
    (hl : s'.loop = s.loop) : Race s' := by
  have hhead : (s.exchanged ++ [i]).head? = s.exchanged.head? := List.head?_append_of_ne_nil _ h0
  have hd : ∀ j, (s'.helpers j).holds = (s.helpers j).holds := fun j => by
    rw [hh]
    exact update_proj _ (by rw [hi]; rfl) j
  refine ⟨?_, ?_, ?_, ?_, fun _ _ => ?_, by rw [hr, hc, hl, h.resumes]⟩
  · rw [he, hh]
    refine h.order.append (c := i) ?_ ?_ fun d hd => ?_
    · rw [hi]; simp [HelperPc.exchanged]
    · rw [update_self]; rfl
    · rw [update_of_ne hd]
  · rw [hw, he, hhead, h.winners]
  · simpa only [hd, he, hhead, hc] using h.holder
  · simpa only [hd, he, hhead, hc] using h.waiting
  · rw [he]
    simp

/-- The winner resumes the coroutine. -/
theorem Race.call (h : Race s) (hi : s.helpers i = .calling) (hlo : s.loop ≠ .outside)
    (hh : s'.helpers = update s.helpers i .releasing) (he : s'.exchanged = s.exchanged)
    (hw : s'.winners = s.winners) (hc : s'.coro = .resumed) (hr : s'.resumes = s.resumes + 1)
    (hl : s'.loop = s.loop) : Race s' := by
  obtain ⟨hhead, hs⟩ := h.holder i (by rw [hi]; rfl)
  refine ⟨?_, by rw [hw, he, h.winners], fun j hj => ?_, fun hs' => ?_, fun _ _ => ?_, ?_⟩
  · rw [he, hh]
    refine h.order.congr fun j => ?_
    rw [update_proj HelperPc.exchanged (by rw [hi]; rfl) j]
  · -- whoever else had the handle would be the first, too
    by_cases hji : j = i
    · rw [hh, hji, update_self] at hj
      cases hj
    · rw [hh, update_of_ne hji] at hj
      have := (h.holder j hj).1
      rw [hhead] at this
      exact absurd (Option.some.inj this).symm hji
  · rw [hc] at hs'
    cases hs'
  · intro h0
    rw [he] at h0
    rw [h0] at hhead
    cases hhead
  · rw [hr, h.resumes, hs, hc, hl, if_neg (by simp [CoroPc.goneOn]), if_pos ⟨hlo, rfl⟩]

end Races

/-! ## The block -/

section Blocks

variable {s s' : St V} {i : Nat}

omit [Inhabited V] in
theorem fits_update (h : ∀ j, (s.helpers j).Fits t j) {pc : HelperPc} (hpc : pc.Fits t i)
    (j : Nat) : (update s.helpers i pc j).Fits t j := by
  by_cases hj : j = i
  · rw [hj, update_self]
    exact hpc
  · rw [update_of_ne hj]
    exact h j

theorem written_congr (he : s'.exchanged = s.exchanged) (hl : s'.loop.stored = s.loop.stored)
    (hh : ∀ w, s.exchanged.head? = some w →
      winnerBlock t w (s'.helpers w) = winnerBlock t w (s.helpers w)) :
    s'.written t = s.written t := by
  unfold St.written
  rw [he, hl]
  cases hw : s.exchanged.head? with
  | none => rfl
  | some w => exact hh w hw

/-- A step that leaves the block, and what the winner has stored, alone. -/
theorem Stored.keep (h : Stored t s) (hf : ∀ i, (s'.helpers i).Fits t i)
    (hw : s'.written t = s.written t) (hb : s'.block = s.block)
    (hc : s'.coro.result = s.coro.result) : Stored t s' :=
  ⟨hf, by rw [hb, hw, hc, h.block], by rw [hw, hc]; exact h.result⟩

/-- A step before `await_resume` that stores. -/
theorem Stored.store (hf : ∀ i, (s'.helpers i).Fits t i) (hc : s'.coro.result = none)
    (hb : s'.block = s'.written t) : Stored t s' :=
  ⟨hf, by rw [hb, hc]; rfl, fun r hr => by rw [hc] at hr; cases hr⟩

/-- What is in the block before `await_resume`. -/
theorem Stored.eq (h : Stored t s) (hc : s.coro.result = none) : s.block = s.written t := by
  rw [h.block, hc]
  rfl

/-- What is in the block while the winner, at work, is at `pc`. -/
theorem Inv.block_eq (h : Inv t s) (hd : (s.helpers i).holds = true) :
    s.block = winnerBlock t i (s.helpers i) := by
  obtain ⟨hhead, hc⟩ := h.race.holder i hd
  rw [h.stored.eq (by rw [hc]; rfl), St.written, hhead]

/-- A step of a helper that has nothing stored, or all. -/
theorem Stored.aside (h : Stored t s) {pc : HelperPc}
    (hh : s'.helpers = update s.helpers i pc)
    (hold : ∀ w, winnerBlock t w (s.helpers i) = blockOf t w)
    (hpc : ∀ w, winnerBlock t w pc = blockOf t w) (hf : pc.Fits t i)
    (he : s'.exchanged = s.exchanged) (hb : s'.block = s.block)
    (hc : s'.coro.result = s.coro.result) (hl : s'.loop = s.loop) : Stored t s' := by
  refine h.keep ?_ (written_congr he (by rw [hl]) fun w _ => ?_) hb hc
  · rw [hh]
    exact fits_update h.fits hf
  · rw [hh]
    by_cases hwi : w = i
    · rw [hwi, update_self, hpc, hold]
    · rw [update_of_ne hwi]

end Blocks

/-! ## Every step keeps the invariant -/

/-- Before the loop starts a helper there are none. -/
theorem Inv.unborn {s : St V} (h : Inv t s) (hl : s.loop.started t = 0) (i : Nat) :
    s.helpers i = .unborn := by
  by_contra hu
  have := (h.places.started i).mp hu
  omega

theorem Inv.exchanged_nil {s : St V} (h : Inv t s) (hl : s.loop.started t = 0) :
    s.exchanged = [] := by
  refine List.eq_nil_iff_forall_not_mem.mpr fun i hi => ?_
  have := (h.race.order.mem i).mp hi
  rw [h.unborn hl i] at this
  cases this

theorem Inv.coro_move {s s' : St V} (h : Inv t s) (hm : CoroMove t s s') : Inv t s' := by
  obtain ⟨bound, started, idle, outside, nonempty, inline⟩ := h.places
  cases hm with
  | ready hc h0 =>
    have hl := idle hc
    have hno := h.unborn (by rw [hl]; rfl)
    refine ⟨?_, ⟨bound, started, nofun, fun _ => nofun, nonempty, fun _ _ => h0⟩, ?_, ?_,
      h.fresh, h.defined⟩
    · exact h.alive.keep rfl rfl (by rw [hc]; rfl) (fun _ => rfl) fun _ => rfl
    · refine h.race.enter (fun i => by rw [hno i]; rfl) rfl rfl rfl ?_ fun _ => hl
      rw [h.race.resumes, if_neg fun hn => hn.1 hl]
    · exact h.stored.keep h.stored.fits rfl rfl (by rw [hc]; rfl)
  | suspend hc hs =>
    have hl := idle hc
    have hno := h.unborn (by rw [hl]; rfl)
    have hne : t.size ≠ 0 := by
      intro h0
      cases hr : t.range with
      | true => exact hs hr h0
      | false => exact absurd (t.two_le hr) (by omega)
    refine ⟨?_, ⟨Nat.zero_le _, fun i => ?_, nofun, nofun, fun _ => hne, nofun⟩, ?_, ?_,
      h.fresh, h.defined⟩
    · exact h.alive.keep rfl rfl (by rw [hc]; rfl) (fun _ => by rw [hl]; rfl) fun _ => rfl
    · simp [hno i, LoopPc.started]
    · refine h.race.enter (fun i => by rw [hno i]; rfl) rfl rfl rfl ?_ nofun
      rw [h.race.resumes, if_neg fun hn => hn.1 hl]
    · refine h.stored.keep h.stored.fits ?_ rfl (by rw [hc]; rfl)
      exact written_congr rfl (by rw [hl]; rfl) fun _ _ => rfl
  | result hc =>
    have hleft : s.coro.hasLeft = false := by rw [hc]; rfl
    have hd := h.not_destroyed (o := .awaitable) hleft
    refine ⟨?_, ⟨bound, started, nofun, fun _ => nofun, nonempty, fun _ => ?_⟩, ?_, ?_, ?_,
      h.defined⟩
    · exact h.alive.keep rfl rfl (by rw [hleft]; rfl) (fun _ => rfl) fun _ => rfl
    · exact inline (by rw [hc]; rfl)
    · exact h.race.goOn rfl rfl rfl rfl rfl (by rw [hc]; rfl) rfl
    · have hb := h.stored.eq (by rw [hc]; rfl)
      refine ⟨h.stored.fits, ?_, fun r hr => ?_⟩
      · simp only [CoroPc.result, Option.isSome_some, if_true]
        rw [hb]
        rfl
      · cases hr
        rw [hb]
        rfl
    · simp [St.touch, St.touchAwaitable, h.fresh, hleft, hd]
  | leave r hc =>
    refine ⟨?_, ⟨bound, started, nofun, fun _ => nofun, nonempty, fun _ => ?_⟩, ?_, ?_, h.fresh,
      h.defined⟩
    · refine h.alive.release rfl rfl (by simp [Owns, CoroPc.hasLeft]) fun o ho => ?_
      cases o with
      | awaitable => exact absurd rfl ho
      | reference i => rfl
      | helper i => rfl
    · exact inline (by rw [hc]; rfl)
    · exact h.race.goOn rfl rfl rfl rfl rfl (by rw [hc]; rfl) rfl
    · exact h.stored.keep h.stored.fits rfl rfl (by rw [hc]; rfl)

/-- While the loop uses the awaitable, the coroutine waits. -/
theorem Inv.loop_suspended {s : St V} (h : Inv t s) (hl : s.loop.uses = true) :
    s.coro = .suspended ∧ s.exchanged = [] := by
  have h0 : s.loop.started t = 0 := by
    cases hl' : s.loop <;> rw [hl'] at hl <;> first | rfl | cases hl
  have hlo : s.loop ≠ .outside := by intro hl'; rw [hl'] at hl; cases hl
  have hnil := h.exchanged_nil h0
  have hg := h.not_goneOn hlo hnil
  refine ⟨?_, hnil⟩
  cases hc : s.coro with
  | idle => exact absurd (h.places.idle hc) hlo
  | suspended => rfl
  | resumed => rw [hc] at hg; cases hg
  | done r => rw [hc] at hg; cases hg
  | left r => rw [hc] at hg; cases hg

theorem Inv.loop_move {s s' : St V} (h : Inv t s) (hm : LoopMove t s s') : Inv t s' := by
  obtain ⟨bound, started, idle, outside, nonempty, inline⟩ := h.places
  cases hm with
  | enter hl =>
    obtain ⟨hc, hnil⟩ := h.loop_suspended (by rw [hl]; rfl)
    have hno := h.unborn (by rw [hl]; rfl)
    have hd := h.not_destroyed (o := .awaitable) (by rw [Owns, hc]; rfl)
    refine ⟨?_, ⟨Nat.zero_le _, fun i => ?_, ?_, nofun, fun _ => ?_, fun _ => nofun⟩, ?_, ?_, ?_,
      h.defined⟩
    · exact h.alive.keep rfl rfl rfl (fun _ => by rw [hl]; rfl) fun _ => rfl
    · simp [St.touch, St.touchAwaitable, hno i, LoopPc.started]
    · intro hc'
      simp only [St.touch, St.touchAwaitable] at hc'
      rw [hc] at hc'
      cases hc'
    · exact nonempty (by rw [hl]; simp)
    · exact h.race.keep (fun _ => rfl) (fun _ => rfl) rfl rfl rfl rfl (by simp [hl])
    · refine .store h.stored.fits (by simp [St.touch, St.touchAwaitable, hc, CoroPc.result]) ?_
      rw [h.stored.eq (by rw [hc]; rfl)]
      simp [St.written, St.touch, St.touchAwaitable, hnil, LoopPc.stored]
    · simp [St.touch, St.touchAwaitable, h.fresh, hc, hd, CoroPc.hasLeft]
  | copy hl =>
    obtain ⟨hc, hnil⟩ := h.loop_suspended (by rw [hl]; rfl)
    have hno := h.unborn (by rw [hl]; rfl)
    have hd := h.not_destroyed (o := .awaitable) (by rw [Owns, hc]; rfl)
    refine ⟨?_, ⟨Nat.zero_le _, fun i => ?_, ?_, nofun, fun _ => ?_, fun _ => nofun⟩, ?_, ?_, ?_,
      h.defined⟩
    · exact h.alive.copy hl rfl rfl rfl rfl rfl hd
    · simp [St.touchAwaitable, hno i, LoopPc.started]
    · intro hc'
      simp only [St.touchAwaitable] at hc'
      rw [hc] at hc'
      cases hc'
    · exact nonempty (by rw [hl]; simp)
    · exact h.race.keep (fun _ => rfl) (fun _ => rfl) rfl rfl rfl rfl (by simp [hl])
    · refine h.stored.keep h.stored.fits ?_ rfl rfl
      exact written_congr rfl (by rw [hl]; rfl) fun _ _ => rfl
    · simp [St.touchAwaitable, h.fresh, hc, CoroPc.hasLeft]
  | start i hl hi =>
    have hu : s.helpers i = .unborn := by
      by_contra hu
      have := (started i).mp hu
      rw [hl] at this
      exact absurd this (Nat.lt_irrefl i)
    have hlo : s.loop ≠ .outside := by rw [hl]; simp
    have hd := h.not_destroyed (o := .reference i) (by simp [Owns, hl, LoopPc.refers, hi])
    refine ⟨?_, ⟨Nat.succ_le_of_lt hi, fun j => ?_, fun hc => ?_, nofun, fun _ => nonempty hlo,
      fun _ => nofun⟩, ?_, ?_, h.fresh, h.defined⟩
    · exact h.alive.start hl hu rfl rfl rfl rfl rfl hd
    · simp only [St.setHelper, LoopPc.started]
      by_cases hj : j = i
      · rw [hj, update_self]
        exact iff_of_true (by simp) (Nat.lt_succ_self i)
      · rw [update_of_ne hj, started j, hl, LoopPc.started]
        omega
    · exact absurd (idle hc) hlo
    · refine h.race.keep (update_proj _ (by rw [hu]; rfl)) (update_proj _ (by rw [hu]; rfl))
        rfl rfl rfl rfl (by simp [hl])
    · refine h.stored.keep (fits_update h.stored.fits trivial) ?_ rfl rfl
      refine written_congr rfl (by simp [hl, LoopPc.stored]) fun w hw => ?_
      have hwi : w ≠ i := by
        rintro rfl
        have := (h.race.order.mem w).mp (List.mem_of_head? hw)
        rw [hu] at this
        cases this
      simp only [St.setHelper, update_of_ne hwi]
  | leave i hl hi =>
    have hlo : s.loop ≠ .outside := by rw [hl]; simp
    refine ⟨?_, ⟨Nat.le_refl _, fun j => ?_, fun hc => ?_, nofun, fun _ => nonempty hlo,
      fun _ => nofun⟩, ?_, ?_, h.fresh, h.defined⟩
    · refine h.alive.keep rfl rfl rfl (fun j => ?_) fun _ => rfl
      rw [hl]
      simp only [LoopPc.refers]
      symm
      simp only [Bool.and_eq_false_iff, decide_eq_false_iff_not]
      omega
    · rw [started j, hl]
      rw [hl] at bound
      simp only [LoopPc.started] at bound ⊢
      omega
    · exact absurd (idle hc) hlo
    · exact h.race.keep (fun _ => rfl) (fun _ => rfl) rfl rfl rfl rfl (by simp [hl])
    · refine h.stored.keep h.stored.fits ?_ rfl rfl
      exact written_congr rfl (by simp [hl, LoopPc.stored]) fun _ _ => rfl

omit [Inhabited V] in
/-- A step of a helper. -/
theorem Places.helper {s s' : St V} {i : Nat} {pc : HelperPc} (h : Places t s)
    (hi : s.helpers i ≠ .unborn) (hpc : pc ≠ .unborn) (hlo : s.loop ≠ .outside)
    (hh : s'.helpers = update s.helpers i pc) (hl : s'.loop = s.loop)
    (hc : s'.coro = .idle → s.coro = .idle) : Places t s' := by
  refine ⟨by rw [hl]; exact h.bound, fun j => ?_, fun hi' => ?_, fun ho => ?_, fun _ => ?_,
    fun _ ho => ?_⟩
  · rw [hh, hl, ← h.started j]
    by_cases hj : j = i
    · rw [hj, update_self]
      exact iff_of_true hpc hi
    · rw [update_of_ne hj]
  · exact absurd (h.idle (hc hi')) hlo
  · exact absurd (hl ▸ ho) hlo
  · exact h.nonempty hlo
  · exact absurd (hl ▸ ho) hlo

/-- The exchange of task `i` finds the handle. -/
theorem Inv.win {s : St V} {i : Nat} (h : Inv t s) (hi : s.helpers i = .exchanging)
    (hr : s.block.resume = true) : Inv t { s.touch.setHelper i (wonPc t i) with
      block := { s.block with resume := false }
      exchanged := s.exchanged ++ [i], winners := s.winners ++ [i] } := by
  have hne : s.helpers i ≠ .unborn := by rw [hi]; simp
  obtain ⟨-, -, hlo, -⟩ := h.born hne
  have hd := h.not_destroyed (o := .helper i) (by rw [Owns, hi]; rfl)
  have hnil : s.exchanged = [] := by
    have := h.resume_eq
    rw [hr] at this
    simpa using (Bool.and_eq_true_iff.mp this.symm).2
  have hc := h.suspended hne (h.not_goneOn hlo hnil)
  have hpc : (wonPc t i).holds = true ∧ (wonPc t i).owns = true ∧ wonPc t i ≠ .unborn ∧
      (wonPc t i).Fits t i ∧ winnerBlock t i (wonPc t i) = { result := default } := by
    unfold wonPc
    cases ho : t.outcome i with
    | error e => exact ⟨rfl, rfl, by simp, ⟨e, ho⟩, rfl⟩
    | ok v =>
      cases hv : t.isVoid i with
      | false => exact ⟨rfl, rfl, by simp, ⟨v, ho, hv⟩, rfl⟩
      | true => exact ⟨rfl, rfl, by simp, ⟨v, ho⟩, by simp [winnerBlock, blockOf, ho, hv]⟩
  obtain ⟨hholds, howns, hu, hfits, hb⟩ := hpc
  refine ⟨?_, h.places.helper hne hu hlo rfl rfl id, ?_, ?_, ?_, h.defined⟩
  · exact h.alive.keep rfl rfl rfl (fun _ => rfl)
      (update_proj (m := s.helpers) _ (by rw [howns, hi]; rfl))
  · exact h.race.win hholds hnil hc rfl rfl rfl rfl rfl rfl
  · refine .store (fits_update h.stored.fits hfits) ?_ ?_
    · simp [St.touch, St.setHelper, hc, CoroPc.result]
    · have hw := h.stored.eq (by rw [hc]; rfl)
      rw [St.written, hnil] at hw
      simp [St.written, St.setHelper, hnil, hb, hw]
  · simp [St.touch, St.setHelper, h.fresh, hd]

/-- The exchange of task `i` finds null. -/
theorem Inv.lose {s : St V} {i : Nat} (h : Inv t s) (hi : s.helpers i = .exchanging)
    (hr : s.block.resume = false) : Inv t { s.touch.setHelper i .releasing with
      block := { s.block with resume := false }, exchanged := s.exchanged ++ [i] } := by
  have hne : s.helpers i ≠ .unborn := by rw [hi]; simp
  obtain ⟨-, hst, hlo, -⟩ := h.born hne
  have hd := h.not_destroyed (o := .helper i) (by rw [Owns, hi]; rfl)
  have hnil : s.exchanged ≠ [] := by
    have := h.resume_eq
    rw [hr, hst, Bool.true_and] at this
    simpa using this.symm
  have hhead : (s.exchanged ++ [i]).head? = s.exchanged.head? := List.head?_append_of_ne_nil _ hnil
  refine ⟨?_, h.places.helper hne (by simp) hlo rfl rfl id, ?_, ?_, ?_, h.defined⟩
  · exact h.alive.keep rfl rfl rfl (fun _ => rfl) (update_proj (m := s.helpers) _ (by rw [hi]; rfl))
  · exact h.race.lose hi hnil rfl rfl rfl rfl rfl rfl
  · refine h.stored.keep (fits_update h.stored.fits trivial) ?_ ?_ rfl
    · simp only [St.written, St.touch, St.setHelper, hhead]
      cases hw : s.exchanged.head? with
      | none => rfl
      | some w =>
        have hwi : w ≠ i := by
          rintro rfl
          have := (h.race.order.mem w).mp (List.mem_of_head? hw)
          rw [hi] at this
          cases this
        simp only [update_of_ne hwi]
    · rw [← hr]
  · simp [St.touch, St.setHelper, h.fresh, hd]

/-- A step in which the winner stores: the block is `b` before and `b'` after. -/
theorem Inv.winner_stores {s : St V} {i : Nat} {pc : HelperPc} {b : Block V} (h : Inv t s)
    (hi : (s.helpers i).holds = true) (hpc : pc.holds = true) (hf : pc.Fits t i)
    (hb : b = winnerBlock t i pc) :
    Inv t { s.touch.setHelper i pc with block := b } := by
  obtain ⟨hhead, hc⟩ := h.race.holder i hi
  have hne : s.helpers i ≠ .unborn := by intro hu; rw [hu] at hi; cases hi
  have hown : (s.helpers i).owns = true := HelperPc.owns_of_holds hi
  obtain ⟨-, -, hlo, -⟩ := h.born hne
  have hd := h.not_destroyed (o := .helper i) hown
  refine ⟨?_, h.places.helper hne ?_ hlo rfl rfl id, ?_, ?_, ?_, h.defined⟩
  · exact h.alive.keep rfl rfl rfl (fun _ => rfl)
      (update_proj (m := s.helpers) _ (by rw [hown, HelperPc.owns_of_holds hpc]))
  · rintro rfl
    cases hpc
  · refine h.race.keep (update_proj (m := s.helpers) _ ?_)
      (update_proj (m := s.helpers) _ (by rw [hpc, hi])) rfl rfl rfl rfl Iff.rfl
    rw [HelperPc.exchanged_of_holds hi, HelperPc.exchanged_of_holds hpc]
  · refine .store (fits_update h.stored.fits hf) ?_ ?_
    · simp [St.touch, St.setHelper, hc, CoroPc.result]
    · simp [St.written, St.touch, St.setHelper, hhead, hb]
  · simp [St.touch, St.setHelper, h.fresh, hd]

theorem Inv.helper_move {s s' : St V} {i : Nat} (h : Inv t s) (hm : HelperMove t s i s') :
    Inv t s' := by
  have hborn := @Inv.born V t _ s i h
  cases hm with
  | finish hi =>
    have hne : s.helpers i ≠ .unborn := by rw [hi]; simp
    refine ⟨?_, h.places.helper hne (by simp) (hborn hne).2.2.1 rfl rfl id, ?_, ?_, h.fresh,
      h.defined⟩
    · exact h.alive.keep rfl rfl rfl (fun _ => rfl) (update_proj _ (by rw [hi]; rfl))
    · exact h.race.keep (update_proj _ (by rw [hi]; rfl)) (update_proj _ (by rw [hi]; rfl))
        rfl rfl rfl rfl Iff.rfl
    · exact h.stored.aside rfl (fun _ => by rw [hi]; rfl) (fun _ => rfl) trivial rfl rfl rfl rfl
  | win hi hr => exact h.win hi hr
  | lose hi hr => exact h.lose hi hr
  | store v hi hv =>
    have hholds : (s.helpers i).holds = true := by rw [hi]; rfl
    obtain ⟨v', hv', hvoid⟩ : ∃ v', t.outcome i = .ok v' ∧ t.isVoid i = false := by
      have := h.stored.fits i
      rwa [hi] at this
    refine h.winner_stores hholds rfl ⟨v, hv⟩ ?_
    rw [h.block_eq hholds, hi]
    simp [winnerBlock, blockOf, hv, hvoid]
  | index hi =>
    have hholds : (s.helpers i).holds = true := by rw [hi]; rfl
    obtain ⟨v, hv⟩ : ∃ v, t.outcome i = .ok v := by
      have := h.stored.fits i
      rwa [hi] at this
    refine h.winner_stores hholds rfl trivial ?_
    rw [h.block_eq hholds, hi]
    simp [winnerBlock, blockOf, hv]
  | except e hi he =>
    have hholds : (s.helpers i).holds = true := by rw [hi]; rfl
    refine h.winner_stores hholds rfl trivial ?_
    rw [h.block_eq hholds, hi]
    simp [winnerBlock, blockOf, he]
  | call hi hc =>
    have hne : s.helpers i ≠ .unborn := by rw [hi]; simp
    have hlo := (hborn hne).2.2.1
    refine ⟨?_, h.places.helper hne (by simp) hlo rfl rfl nofun, ?_, ?_, h.fresh, h.defined⟩
    · exact h.alive.keep rfl rfl (by rw [hc]; rfl) (fun _ => rfl)
        (update_proj _ (by rw [hi]; rfl))
    · exact h.race.call hi hlo rfl rfl rfl rfl rfl rfl
    · exact h.stored.aside rfl (fun _ => by rw [hi]; rfl) (fun _ => rfl) trivial rfl rfl
        (by rw [hc]; rfl) rfl
  | lost hi hc => exact absurd (h.race.holder i (by rw [hi]; rfl)).2 hc
  | release hi =>
    have hne : s.helpers i ≠ .unborn := by rw [hi]; simp
    refine ⟨?_, h.places.helper hne (by simp) (hborn hne).2.2.1 rfl rfl id, ?_, ?_, h.fresh,
      h.defined⟩
    · refine h.alive.release rfl rfl ?_ fun o ho => ?_
      · simp [Owns, St.setHelper, HelperPc.owns]
      · cases o with
        | awaitable => rfl
        | reference j => rfl
        | helper j =>
          have hj : j ≠ i := fun he => ho (by rw [he])
          simp [Owns, St.setHelper, St.release, update_of_ne hj]
    · exact h.race.keep (update_proj (m := s.helpers) _ (by rw [hi]; rfl))
        (update_proj (m := s.helpers) _ (by rw [hi]; rfl)) rfl rfl rfl rfl Iff.rfl
    · exact h.stored.aside rfl (fun _ => by rw [hi]; rfl) (fun _ => rfl) trivial rfl rfl rfl rfl

theorem Inv.move {s s' : St V} (h : Inv t s) (hm : Move t s s') : Inv t s' := by
  cases hm with
  | coro hm => exact h.coro_move hm
  | loop hm => exact h.loop_move hm
  | helper i hm => exact h.helper_move hm

/-- Every reachable state satisfies the invariant. -/
theorem reach_inv {s : St V} (hs : (sys t).Reach s) : Inv t s :=
  Sys.Inductive.reach ⟨.init, fun _ _ _ h _ hst => h.move (step_move hst)⟩ hs

/-! ## The length of a run -/

/-- The steps that are left to a helper, at most. -/
def HelperPc.weight : HelperPc → Nat
  | .unborn => 7
  | .awaiting => 6
  | .exchanging => 5
  | .storing => 4
  | .indexing | .excepting => 3
  | .calling => 2
  | .releasing => 1
  | .gone => 0

def LoopPc.weight (t : Tasks V) : LoopPc → Nat
  | .outside => t.size + 4
  | .entered => t.size + 3
  | .copying => t.size + 2
  | .starting i => t.size - i + 1
  | .returned => 0

def CoroPc.weight : CoroPc V → Nat
  | .idle | .suspended => 3
  | .resumed => 2
  | .done _ => 1
  | .left _ => 0

/-- The steps that are left, at most. -/
def St.weight (t : Tasks V) (s : St V) : Nat :=
  total HelperPc.weight t.size s.helpers + s.loop.weight t + s.coro.weight

theorem weight_helper {s s' : St V} {i : Nat} {pc : HelperPc} (h : Inv t s)
    (hh : s'.helpers = update s.helpers i pc) (hi : s.helpers i ≠ .unborn)
    (hpc : pc.weight < (s.helpers i).weight) (hl : s'.loop = s.loop)
    (hc : s'.coro.weight ≤ s.coro.weight) : s'.weight t < s.weight t := by
  have := total_update_lt HelperPc.weight s.helpers (h.born hi).1 hpc
  simp only [St.weight, hh, hl]
  omega

omit [Inhabited V] in
theorem wonPc_weight (t : Tasks V) (i : Nat) : (wonPc t i).weight < 5 := by
  unfold wonPc
  split
  · split <;> decide
  · decide

theorem weight_helper_move {s s' : St V} {i : Nat} (h : Inv t s) (hm : HelperMove t s i s') :
    s'.weight t < s.weight t := by
  cases hm with
  | finish hi =>
    exact weight_helper h rfl (by rw [hi]; simp) (by rw [hi]; decide) rfl (Nat.le_refl _)
  | win hi =>
    exact weight_helper h rfl (by rw [hi]; simp) (by rw [hi]; exact wonPc_weight t i) rfl
      (Nat.le_refl _)
  | lose hi => exact weight_helper h rfl (by rw [hi]; simp) (by rw [hi]; decide) rfl (Nat.le_refl _)
  | store v hi =>
    exact weight_helper h rfl (by rw [hi]; simp) (by rw [hi]; decide) rfl (Nat.le_refl _)
  | index hi =>
    exact weight_helper h rfl (by rw [hi]; simp) (by rw [hi]; decide) rfl (Nat.le_refl _)
  | except e hi =>
    exact weight_helper h rfl (by rw [hi]; simp) (by rw [hi]; decide) rfl (Nat.le_refl _)
  | call hi hc =>
    exact weight_helper h rfl (by rw [hi]; simp) (by rw [hi]; decide) rfl
      (by rw [hc]; exact Nat.le_succ 2)
  | lost hi => exact weight_helper h rfl (by rw [hi]; simp) (by rw [hi]; decide) rfl (Nat.le_refl _)
  | release hi =>
    exact weight_helper h rfl (by rw [hi]; simp) (by rw [hi]; decide) rfl (Nat.le_refl _)

theorem weight_move {s s' : St V} (h : Inv t s) (hm : Move t s s') : s'.weight t < s.weight t := by
  cases hm with
  | helper i hm => exact weight_helper_move h hm
  | coro hm =>
    cases hm with
    | ready hc =>
      simp only [St.weight, hc, CoroPc.weight]
      omega
    | suspend hc =>
      simp only [St.weight, hc, h.places.idle hc, CoroPc.weight, LoopPc.weight]
      omega
    | result hc =>
      simp only [St.weight, St.touch, St.touchAwaitable, hc, CoroPc.weight]
      omega
    | leave r hc =>
      simp only [St.weight, St.release, hc, CoroPc.weight]
      omega
  | loop hm =>
    cases hm with
    | enter hl =>
      simp only [St.weight, St.touch, St.touchAwaitable, hl, LoopPc.weight]
      omega
    | copy hl =>
      simp only [St.weight, St.touchAwaitable, hl, LoopPc.weight]
      omega
    | start i hl hi =>
      have hu : s.helpers i = .unborn := by
        by_contra hu
        have := (h.places.started i).mp hu
        rw [hl] at this
        exact absurd this (Nat.lt_irrefl i)
      have := total_update_lt HelperPc.weight (a := .awaiting) s.helpers hi (by rw [hu]; decide)
      simp only [St.weight, St.setHelper, hl, LoopPc.weight]
      omega
    | leave i hl =>
      simp only [St.weight, hl, LoopPc.weight]
      omega

/-! ## Results -/

/-- What the awaiter gets when task `w` is the winner. -/
def Tasks.answer (t : Tasks V) (w : Nat) : Except Exception (Nat × Option V) :=
  match t.outcome w with
  | .error e => .error e
  | .ok v => .ok (w, if t.noResult then none else some (if t.isVoid w then default else v))

theorem awaitResume_blockOf (t : Tasks V) (w : Nat) :
    ((blockOf t w).awaitResume t).1 = t.answer w := by
  unfold blockOf Tasks.answer Block.awaitResume
  cases t.outcome w with
  | error e => rfl
  | ok v => cases t.noResult <;> rfl

omit [Inhabited V] in
theorem awaitResume_exception (t : Tasks V) (b : Block V) :
    (b.awaitResume t).2.exception = b.exception := by
  unfold Block.awaitResume
  split
  · rfl
  · split <;> rfl

omit [Inhabited V] in
theorem awaitResume_index (t : Tasks V) (b : Block V) :
    (b.awaitResume t).2.index = b.index := by
  unfold Block.awaitResume
  split
  · rfl
  · split <;> rfl

omit [Inhabited V] in
theorem awaitResume_result (t : Tasks V) (b : Block V) :
    (b.awaitResume t).2.result = b.result ∨ (b.awaitResume t).2.result = t.moved b.result := by
  unfold Block.awaitResume
  split
  · exact .inl rfl
  · split
    · exact .inl rfl
    · exact .inr rfl

/-- All have finished: the coroutine, the loop and every helper. -/
def St.finished (t : Tasks V) (s : St V) : Prop :=
  s.coro.hasLeft = true ∧ s.loop = .returned ∧ ∀ i < t.size, s.helpers i = .gone

/-- What `when_any` owes to its awaiter and its tasks. -/
structure Decided (t : Tasks V) (s : St V) : Prop where
  /-- Each task exchanges once, and the first one to do it obtains the handle, nobody else. -/
  order : s.exchanged.Nodup ∧ ∀ i, i ∈ s.exchanged ↔ (s.helpers i).exchanged = true
  winner : s.winners = s.exchanged.head?.toList
  /-- The coroutine is resumed once at most, and goes on only by that. -/
  once : s.resumes ≤ 1
  goneOn : s.coro.goneOn = true → s.resumes = 1 ∧ ∃ w < t.size, s.winners = [w]
  /-- What changes the block is a store of the winner before the resume, or `await_resume`, which
  moves the result out. -/
  written : ∀ e s', step t s e = some s' →
    s'.block.exception ≠ s.block.exception ∨ s'.block.index ≠ s.block.index ∨
      s'.block.result ≠ s.block.result →
    (∃ w, e = .helper w ∧ s.winners = [w] ∧ s.resumes = 0) ∨
      (e = .resume ∧ s'.block.exception = s.block.exception ∧ s'.block.index = s.block.index)
  /-- So nothing changes it after the resume but `await_resume`. -/
  frozen : s.resumes ≠ 0 → ∀ s', (sys t).Later (fun _ _ => True) s s' →
    s'.block.exception = s.block.exception ∧ s'.block.index = s.block.index ∧
      (s'.block.result = s.block.result ∨
        s.coro = .resumed ∧ s'.block.result = t.moved s.block.result)
  /-- The awaiter gets what the winner has. -/
  delivers : ∀ r, s.coro.result = some r → ∃ w, s.winners = [w] ∧ r = t.answer w
  /-- The block is there for the tasks that are still to be started, and for those that run, -/
  references : ∀ i, s.loop.refers t i = true → .reference i ∈ s.owners ∧ s.destroyed = false
  helpers : ∀ i, (s.helpers i).owns = true → .helper i ∈ s.owners ∧ s.destroyed = false
  /-- and nobody uses it, or the awaitable, later. -/
  fresh : s.stale = false
  /-- Only a suspended coroutine is resumed. -/
  defined : s.undefined = false
  /-- There is a step until all have finished, only so many, and then the awaiter was resumed. -/
  live : ¬s.finished t → ∃ e, (step t s e).isSome = true
  ends : ∀ es, ((sys t).exec s es).isSome = true → es.length ≤ s.weight t
  finished : s.finished t → s.resumes = 1 ∧ (∃ w < t.size, s.winners = [w]) ∧
    (∀ i, i ∈ s.exchanged ↔ i < t.size) ∧ s.destroyed = true

section Decided

variable {s s' : St V}

/-- The winner, before it has resumed the coroutine. -/
theorem Inv.holder (h : Inv t s) {i : Nat} (hi : (s.helpers i).holds = true) :
    s.winners = [i] ∧ s.resumes = 0 := by
  obtain ⟨hhead, hc⟩ := h.race.holder i hi
  refine ⟨by rw [h.race.winners, hhead]; rfl, ?_⟩
  rw [h.race.resumes, hc, if_neg (by simp [CoroPc.goneOn])]

/-- A coroutine that waited and has gone on was resumed by the winner. -/
theorem Inv.goneOn (h : Inv t s) (hg : s.coro.goneOn = true) (hn : t.size ≠ 0) :
    s.resumes = 1 ∧ ∃ w < t.size, s.exchanged.head? = some w ∧ s.written t = blockOf t w := by
  have hlo : s.loop ≠ .outside := fun hl => hn (h.places.inline hg hl)
  refine ⟨by rw [h.race.resumes, if_pos ⟨hlo, hg⟩], ?_⟩
  cases he : s.exchanged with
  | nil => exact absurd he (h.race.goneOn hg hlo)
  | cons w ws =>
    have hx := (h.race.order.mem w).mp (by rw [he]; exact List.mem_cons_self ..)
    have hu : s.helpers w ≠ .unborn := by intro hu; rw [hu] at hx; cases hx
    have hd : (s.helpers w).holds = false := by
      by_contra hd
      have := (h.race.holder w (by simpa using hd)).2
      rw [this] at hg
      cases hg
    refine ⟨w, (h.born hu).1, rfl, ?_⟩
    rw [St.written, he, List.head?_cons]
    show winnerBlock t w (s.helpers w) = blockOf t w
    cases hw : s.helpers w <;> rw [hw] at hd <;> first | rfl | cases hd

/-- What changes the block (`Decided.written`). -/
theorem Inv.written (h : Inv t s) {e : Ev} (hst : step t s e = some s')
    (hne : s'.block.exception ≠ s.block.exception ∨ s'.block.index ≠ s.block.index ∨
      s'.block.result ≠ s.block.result) :
    (∃ w, e = .helper w ∧ s.winners = [w] ∧ s.resumes = 0) ∨
      (e = .resume ∧ s'.block.exception = s.block.exception ∧
        s'.block.index = s.block.index) := by
  have same : ∀ {p : Prop}, s'.block.exception = s.block.exception →
      s'.block.index = s.block.index → s'.block.result = s.block.result → p := by
    intro p h1 h2 h3
    obtain hn | hn | hn := hne
    · exact absurd h1 hn
    · exact absurd h2 hn
    · exact absurd h3 hn
  cases e with
  | ready =>
    simp only [step] at hst
    split at hst
    · split at hst <;> cases hst <;> exact same rfl rfl rfl
    · cases hst
  | suspend => cases suspendStep_move hst <;> exact same rfl rfl rfl
  | destroy =>
    simp only [step] at hst
    split at hst
    · cases hst; exact same rfl rfl rfl
    · cases hst
  | resume =>
    refine .inr ⟨rfl, ?_⟩
    simp only [step] at hst
    split at hst
    · cases hst
      exact ⟨awaitResume_exception t s.block, awaitResume_index t s.block⟩
    · cases hst
  | helper i =>
    cases helperStep_move hst with
    | finish => exact same rfl rfl rfl
    | win => exact same rfl rfl rfl
    | lose => exact same rfl rfl rfl
    | call => exact same rfl rfl rfl
    | lost => exact same rfl rfl rfl
    | release => exact same rfl rfl rfl
    | store v hi => exact .inl ⟨i, rfl, h.holder (by rw [hi]; rfl)⟩
    | index hi => exact .inl ⟨i, rfl, h.holder (by rw [hi]; rfl)⟩
    | except e hi => exact .inl ⟨i, rfl, h.holder (by rw [hi]; rfl)⟩

omit [Inhabited V] in
/-- What only grows: the exchanges, the number of resumes, and how far the coroutine is. -/
theorem move_grows (hm : Move t s s') : s.exchanged <+: s'.exchanged ∧ s.resumes ≤ s'.resumes ∧
    (s.coro.result.isSome = true → s'.coro.result.isSome = true) := by
  have same : ∀ {u : St V}, u.exchanged = s.exchanged → u.resumes = s.resumes →
      u.coro = s.coro → s.exchanged <+: u.exchanged ∧ s.resumes ≤ u.resumes ∧
        (s.coro.result.isSome = true → u.coro.result.isSome = true) := fun h1 h2 h3 =>
    ⟨by rw [h1], by rw [h2], by rw [h3]; exact id⟩
  cases hm with
  | coro hm =>
    cases hm with
    | ready hc => exact ⟨List.prefix_rfl, Nat.le_refl _, by rw [hc]; exact nofun⟩
    | suspend hc => exact ⟨List.prefix_rfl, Nat.le_refl _, by rw [hc]; exact nofun⟩
    | result hc => exact ⟨List.prefix_rfl, Nat.le_refl _, fun _ => rfl⟩
    | leave r hc => exact ⟨List.prefix_rfl, Nat.le_refl _, fun _ => rfl⟩
  | loop hm => cases hm <;> exact same rfl rfl rfl
  | helper i hm =>
    cases hm with
    | finish => exact same rfl rfl rfl
    | win => exact ⟨List.prefix_append .., Nat.le_refl _, id⟩
    | lose => exact ⟨List.prefix_append .., Nat.le_refl _, id⟩
    | store => exact same rfl rfl rfl
    | index => exact same rfl rfl rfl
    | except => exact same rfl rfl rfl
    | call hi hc => exact ⟨List.prefix_rfl, Nat.le_succ _, by rw [hc]; exact nofun⟩
    | lost => exact ⟨List.prefix_rfl, Nat.le_succ _, id⟩
    | release => exact same rfl rfl rfl

theorem later_grows (hs : (sys t).Reach s) (hl : (sys t).Later (fun _ _ => True) s s') :
    s.exchanged <+: s'.exchanged ∧ s.resumes ≤ s'.resumes ∧
      (s.coro.result.isSome = true → s'.coro.result.isSome = true) := by
  refine Sys.Later.keep (I := fun _ => True) (P := fun u => s.exchanged <+: u.exchanged ∧
    s.resumes ≤ u.resumes ∧ (s.coro.result.isSome = true → u.coro.result.isSome = true))
    (fun _ _ => trivial) ?_ hs hl ⟨List.prefix_rfl, Nat.le_refl _, id⟩
  intro u e u' _ hu _ hst
  obtain ⟨h1, h2, h3⟩ := hu
  obtain ⟨g1, g2, g3⟩ := move_grows (step_move hst)
  exact ⟨h1.trans g1, h2.trans g2, g3 ∘ h3⟩

/-- Nothing changes the block after the resume (`Decided.frozen`). -/
theorem frozen (hs : (sys t).Reach s) (hn : t.size ≠ 0) (hr : s.resumes ≠ 0)
    (hl : (sys t).Later (fun _ _ => True) s s') :
    s'.block.exception = s.block.exception ∧ s'.block.index = s.block.index ∧
      (s'.block.result = s.block.result ∨
        s.coro = .resumed ∧ s'.block.result = t.moved s.block.result) := by
  have h := reach_inv hs
  have h' := reach_inv (hs.later hl)
  obtain ⟨hx, hle, hres⟩ := later_grows hs hl
  have hgone : ∀ {u : St V}, Inv t u → u.resumes ≠ 0 → u.coro.goneOn = true := by
    intro u hu hr
    by_contra hg
    rw [hu.race.resumes, if_neg fun hc => hg hc.2] at hr
    exact hr rfl
  have hg := hgone h hr
  obtain ⟨-, w, -, hw, hb⟩ := h.goneOn hg hn
  obtain ⟨-, w', -, hw', hb'⟩ := h'.goneOn (hgone h' (by omega)) hn
  -- the winner is the same, and so is what it has stored
  have hww : w' = w := by
    obtain ⟨rest, hrest⟩ := hx
    have hne : s.exchanged ≠ [] := by intro h0; rw [h0] at hw; cases hw
    rw [← hrest, List.head?_append_of_ne_nil _ hne, hw] at hw'
    exact (Option.some.inj hw').symm
  subst hww
  have e := h.stored.block
  have e' := h'.stored.block
  rw [hb] at e
  rw [hb'] at e'
  cases hc : s.coro.result.isSome with
  | true =>
    rw [hc, if_pos rfl] at e
    rw [hres hc, if_pos rfl] at e'
    rw [e, e']
    exact ⟨rfl, rfl, .inl rfl⟩
  | false =>
    rw [hc, if_neg (by decide)] at e
    have hcoro : s.coro = .resumed := by
      cases hs : s.coro with
      | resumed => rfl
      | idle => rw [hs] at hg; cases hg
      | suspended => rw [hs] at hg; cases hg
      | done r => rw [hs] at hc; cases hc
      | left r => rw [hs] at hc; cases hc
    rw [e, e']
    split
    · refine ⟨awaitResume_exception .., awaitResume_index .., ?_⟩
      obtain he | he := awaitResume_result t (blockOf t w')
      · exact .inl he
      · exact .inr ⟨hcoro, he⟩
    · exact ⟨rfl, rfl, .inl rfl⟩

/-- A helper that has started and is not gone can take a step. -/
theorem Inv.helper_enabled (h : Inv t s) {i : Nat} (hi : (s.helpers i).owns = true) :
    (step t s (.helper i)).isSome = true := by
  have hf := h.stored.fits i
  simp only [step, helperStep]
  cases hh : s.helpers i with
  | unborn => rw [hh] at hi; cases hi
  | gone => rw [hh] at hi; cases hi
  | awaiting => rfl
  | exchanging => rfl
  | indexing => rfl
  | calling => rfl
  | releasing => rfl
  | storing =>
    rw [hh] at hf
    obtain ⟨v, hv, -⟩ := hf
    simp [hv]
  | excepting =>
    rw [hh] at hf
    obtain ⟨e, he⟩ := hf
    simp [he]

/-- Until all have finished there is a step. -/
theorem Inv.live (h : Inv t s) (hn : t.size ≠ 0) (hf : ¬s.finished t) :
    ∃ e, (step t s e).isSome = true := by
  cases hl : s.loop with
  | entered => exact ⟨.suspend, by simp [step, suspendStep, hl]⟩
  | copying => exact ⟨.suspend, by simp [step, suspendStep, hl]⟩
  | starting i =>
    refine ⟨.suspend, ?_⟩
    simp only [step, suspendStep, hl]
    split <;> rfl
  | outside =>
    have hc : s.coro = .idle := by
      have hsus := h.places.outside hl
      have hinl := fun hg => hn (h.places.inline hg hl)
      cases hc : s.coro <;> first | rfl | exact absurd hc hsus | exact absurd (by rw [hc]; rfl) hinl
    refine ⟨.ready, ?_⟩
    simp only [step, hc]
    split <;> rfl
  | returned =>
    by_cases hall : ∀ i < t.size, s.helpers i = .gone
    · -- all helpers are gone, so the winner has called
      cases hc : s.coro with
      | idle => rw [h.places.idle hc] at hl; cases hl
      | resumed => exact ⟨.resume, by simp [step, hc]⟩
      | done r => exact ⟨.destroy, by simp [step, hc]⟩
      | left r => exact absurd ⟨by rw [hc]; rfl, hl, hall⟩ hf
      | suspended =>
        have h0 := hall 0 (by omega)
        have hne := h.exchanged_ne_nil (i := 0) (by rw [h0]; rfl)
        obtain ⟨w, hw⟩ := Option.ne_none_iff_exists'.mp (mt List.head?_eq_none_iff.mp hne)
        have hx := (h.race.order.mem w).mp (List.mem_of_head? hw)
        have hu : s.helpers w ≠ .unborn := by intro hu; rw [hu] at hx; cases hx
        have hd := h.race.waiting hc w hw
        rw [hall w (h.born hu).1] at hd
        cases hd
    · obtain ⟨i, hi, hne⟩ : ∃ i < t.size, s.helpers i ≠ .gone := by
        by_contra hno
        exact hall fun i hi => by
          by_contra hg
          exact hno ⟨i, hi, hg⟩
      have hu : s.helpers i ≠ .unborn := (h.places.started i).mpr (by rw [hl]; exact hi)
      refine ⟨.helper i, h.helper_enabled ?_⟩
      cases hh : s.helpers i <;> first | rfl | exact absurd hh hu | exact absurd hh hne

/-- **`when_any` has one winner.** -/
theorem decided (hn : t.size ≠ 0) (hs : (sys t).Reach s) : Decided t s := by
  have h := reach_inv hs
  have hwin : ∀ {w}, s.exchanged.head? = some w → s.winners = [w] := fun hw => by
    rw [h.race.winners, hw]
    rfl
  have hgone : s.coro.goneOn = true → s.resumes = 1 ∧ ∃ w < t.size, s.winners = [w] := fun hg => by
    obtain ⟨h1, w, hlt, hw, -⟩ := h.goneOn hg hn
    exact ⟨h1, w, hlt, hwin hw⟩
  have hres : ∀ {r}, s.coro.result = some r → s.coro.goneOn = true := fun hr => by
    cases hc : s.coro <;> rw [hc] at hr <;> first | rfl | cases hr
  refine ⟨⟨h.race.order.nodup, h.race.order.mem⟩, h.race.winners, ?_, hgone, fun _ _ => h.written,
    fun hr _ hl => frozen hs hn hr hl, fun r hr => ?_, fun i hi => ?_, fun i hi => ?_, h.fresh,
    h.defined, h.live hn, fun es hes => ?_, fun hf => ?_⟩
  · rw [h.race.resumes]
    split <;> decide
  · obtain ⟨-, w, -, hw, hb⟩ := h.goneOn (hres hr) hn
    refine ⟨w, hwin hw, ?_⟩
    rw [h.stored.result r hr, hb, awaitResume_blockOf]
  · exact ⟨(h.alive.owners.mem (.reference i)).mpr hi, h.not_destroyed (o := .reference i) hi⟩
  · exact ⟨(h.alive.owners.mem (.helper i)).mpr hi, h.not_destroyed (o := .helper i) hi⟩
  · obtain ⟨s', hs'⟩ := Option.isSome_iff_exists.mp hes
    exact Sys.exec_length_le (I := Inv t)
      (fun u e u' hi hst => ⟨hi.move (step_move hst), weight_move hi (step_move hst)⟩) h hs'
  · obtain ⟨hleft, hl, hall⟩ := hf
    have hg : s.coro.goneOn = true := by
      cases hc : s.coro <;> rw [hc] at hleft <;> first | rfl | cases hleft
    obtain ⟨h1, hw⟩ := hgone hg
    refine ⟨h1, hw, fun i => ⟨fun hi => ?_, fun hi => ?_⟩, ?_⟩
    · have hx := (h.race.order.mem i).mp hi
      exact (h.born (i := i) fun hu => by rw [hu] at hx; cases hx).1
    · exact (h.race.order.mem i).mpr (by rw [hall i hi]; rfl)
    · rw [h.alive.destroyed, List.isEmpty_iff, List.eq_nil_iff_forall_not_mem]
      intro o ho
      have hown := (h.alive.owners.mem o).mp ho
      cases o with
      | awaitable => rw [Owns, hleft] at hown; cases hown
      | reference i => rw [Owns, hl] at hown; cases hown
      | helper i =>
        rw [Owns] at hown
        have hu : s.helpers i ≠ .unborn := by intro hu; rw [hu] at hown; cases hown
        rw [hall i (h.born hu).1] at hown
        cases hown

end Decided

theorem two_le_three : 2 ≤ 3 := by decide

/-- A value, an exception and a value. -/
def threeTasks : Tasks Nat where
  range := false
  size := 3
  isVoid _ := false
  outcome i := if i = 1 then .error (.other 1) else .ok (i + 7)
  moved _ := 0
  two_le _ := two_le_three
  uniform _ _ := rfl

/-- The first ends before the loop starts the second; the coroutine goes on and destroys the
awaitable, and then the others start and finish. -/
def threeRun : List Ev :=
  [.ready, .suspend, .suspend, .suspend, .helper 0, .helper 0, .helper 0, .helper 0, .helper 0,
    .resume, .destroy, .helper 0, .suspend, .suspend, .suspend, .helper 2, .helper 1, .helper 2,
    .helper 1, .helper 1, .helper 2]

theorem decided_three : Decided threeTasks ((sys threeTasks).after threeRun) ∧
    ((sys threeTasks).after threeRun).winners = [0] ∧
    ((sys threeTasks).after threeRun).exchanged = [0, 2, 1] ∧
    ((sys threeTasks).after threeRun).destroyed = true :=
  ⟨decided (by decide) (Sys.reach_after (by decide)), by decide, by decide, by decide⟩

end WhenAny

end Corsl
