import Corsl.Timers.Endings

/-!
# `tp_timer` answers every cancellation once

Expiry, cancellation and the next wait compete for one handle and one flag, each in a section of its
own. `ledgers` keeps two histories beside a `tp_timer`: the waits that have ended with what they
have thrown, and the `Note`s, one for each raise of the flag (with the wait that is to answer it:
the one in progress, or the next one) and one for each handle that is taken.

* `Balanced`: the raises, in order, are the waits that have thrown, and one more while the flag is
  up.
* `Watched`: while a wait is parked, a call that it has seen raise the flag has not returned, and if
  the flag is up there is one.
* `waits_answered`: all that the histories say, and that a wait in progress with the flag up ends
  with `timer_cancelled` by what the threads do that are at work.

Submissions do not fail here.
-/

namespace Corsl

open Conc Function

namespace Timers

/-- What happens to the flag and to the handle. -/
inductive Note where
  /-- The flag goes up; `n` is the wait in progress, or the next one. -/
  | raised (n : Nat)
  /-- The continuation of wait `n` is taken and resumed. -/
  | taken (n : Nat)
  deriving DecidableEq, Repr

def Note.raised? : Note → Option Nat
  | .raised n => some n
  | .taken _ => none

def Note.taken? : Note → Option Nat
  | .taken n => some n
  | .raised _ => none

namespace St

/-- The wait in progress, or the next one. -/
def answering (s : St) : Nat := s.coro.wait?.getD s.waits

/-- What a step does to the flag and to the handle. -/
def notes (s : St) (e : Ev) : List Note :=
  match e with
  | .cancel _ => if s.timer.cancellationRequested then [] else [.raised s.answering]
  | e => if (s.resumer e).isSome then s.timer.resumeLocation.toList.map .taken else []

end St

/-- A `tp_timer` with its histories. -/
def ledgers : Sys ((St × List (Nat × Option Exception)) × List Note) Ev :=
  (history .tp).logged fun s e => s.1.notes e

/-- The waits that have thrown `timer_cancelled`. -/
def throwers (l : List (Nat × Option Exception)) : List Nat :=
  (l.filter (·.2 = some .timerCancelled)).map Prod.fst

/-- Each parked handle is resumed at most once, and each raise of the flag answered once. -/
structure Answered (s : (St × List (Nat × Option Exception)) × List Note) : Prop where
  /-- `suspend` finds no continuation, and no coroutine is resumed that is not suspended. -/
  vacant : ∀ n, s.1.1.coro = .created n false → s.1.1.timer.resumeLocation = none
  defined : s.1.1.undefined = false
  once : (s.2.filterMap Note.taken?).Nodup
  /-- When `cancel()` has returned, the wait that was parked when it raised the flag is not. -/
  released : ∀ k n, (s.1.1.cancels k).pc = .done → (s.1.1.cancels k).seen = some n →
    s.1.1.timer.resumeLocation ≠ some n ∧ s.1.1.coro ≠ .parked n
  /-- Each raise has one throw, of the wait in progress or of the next one, or waits for it. -/
  raises : s.2.filterMap Note.raised? =
    throwers s.1.2 ++ if s.1.1.timer.cancellationRequested then [s.1.1.answering] else []
  distinct : (s.2.filterMap Note.raised?).Nodup
  /-- And the wait in progress throws. -/
  throws : ∀ n, s.1.1.timer.cancellationRequested = true → s.1.1.coro.wait? = some n →
    (history .tp).Ends (fun _ _ => True) (fun _ e => e.serves) s.1 n (some .timerCancelled)

variable {s s' : St} {e : Ev}

/-! ## The calls that a parked wait has seen -/

/-- What holds of a `tp_timer` while a wait is parked. -/
structure Watched (s : St) : Prop where
  live : s.terminated = false
  active : ∀ k n, (s.cancels k).seen = some n → s.coro = .parked n →
    (s.cancels k).pc.active = true
  sought : ∀ n, s.coro = .parked n → s.timer.cancellationRequested = true →
    ∃ k, (s.cancels k).pc.active = true

theorem Watched.init : Watched {} :=
  ⟨rfl, fun _ _ h => (by cases h), fun _ h => (by cases h)⟩

/-- A step after which the coroutine is not parked. -/
theorem Watched.away (h : Watched s) (ht : s'.terminated = s.terminated)
    (hc : ∀ n, s'.coro ≠ .parked n) : Watched s' :=
  ⟨ht ▸ h.live, fun _ n _ hn => absurd hn (hc n), fun n hn => absurd hn (hc n)⟩

/-- A step that leaves the coroutine and the calls as they are. -/
theorem Watched.same (h : Watched s) (ht : s'.terminated = s.terminated) (hc : s'.coro = s.coro)
    (hf : s'.timer.cancellationRequested = s.timer.cancellationRequested)
    (hk : s'.cancels = s.cancels) : Watched s' :=
  ⟨ht ▸ h.live, by rw [hc, hk]; exact h.active, by rw [hc, hf, hk]; exact h.sought⟩

theorem suspendStep_watched {n : Nat} (h : Watched s) (hi : Inv s)
    (hc : s.coro = .created n false) : Watched (suspendStep .tp s n) := by
  by_cases hf : s.timer.cancellationRequested = true
  · rw [suspendStep, Timer.suspend_cancelled hf]
    exact h.away rfl fun m => by simp
  · rw [Bool.not_eq_true] at hf
    by_cases hl : s.timer.resumeLocation = none
    · rw [suspendStep, Timer.suspend_free hf hl]
      refine ⟨h.live, fun k m hs hm => ?_, fun m _ hup => ?_⟩
      · -- no call has seen the wait that parks
        cases hm
        exact absurd hs (hi.unseen k n false hc)
      · rw [hf] at hup
        cases hup
    · rw [suspendStep, Timer.suspend_twice hf hl]
      exact h.same rfl rfl rfl rfl

theorem Watched.step (h : Watched s) (hi : Inv s) (hst : step .tp s e = some s') : Watched s' := by
  have hm := step_move hst
  obtain ⟨-, hs⟩ := step_live hst
  cases e with
  | wait ready =>
    cases hm with
    | wait => exact h.away rfl fun n => by simp
    | os => exact h.same rfl rfl rfl rfl
  | await =>
    simp only [liveStep] at hs
    split at hs
    · cases hs
      exact h.away rfl fun n => by simp
    · rename_i n hc
      cases hs
      exact suspendStep_watched h hi hc
    · cases hs
  | check =>
    cases hm with
    | throws => exact h.away rfl fun n => by simp
    | returns => exact h.away rfl fun n => by simp
    | os => exact h.same rfl rfl rfl rfl
  | callback k =>
    cases hm with
    | callbackTake => exact h.away rfl fun n => by simp [St.taken, St.setCallback]
    | callbackLost k n hl hc => exact absurd ((hi.stored n).mp hl) hc
    | callbackEnd => exact h.same rfl rfl rfl rfl
    | os => exact h.same rfl rfl rfl rfl
  | cancel k =>
    obtain ⟨-, hact, hc, ht, hf⟩ := cancel_unborn hst
    refine ⟨ht ▸ h.live, fun i n hs hn => ?_, fun _ _ _ => ⟨k, hact⟩⟩
    by_cases hik : i = k
    · rw [hik]
      exact hact
    · cases hm with
      | cancel =>
        simp only [ne_eq, hik, not_false_eq_true, update_of_ne] at hs ⊢
        exact h.active i n hs hn
      | os => exact h.active i n hs hn
  | call k =>
    have hact : ∀ n, s.coro = .parked n → s'.timer.resumeLocation = s.timer.resumeLocation →
        (s'.cancels k).pc.active = true := fun n hn he =>
      call_active hst ((hi.stored n).mpr hn) (he ▸ (hi.stored n).mpr hn)
    cases hm with
    | cancelTake => exact h.away rfl fun n => by simp [St.taken, St.setCancel]
    | cancelLost k n hl hc => exact absurd ((hi.stored n).mp hl) hc
    | drain k pc =>
      refine ⟨h.live, fun i n hs hn => ?_, fun n hn _ => ⟨k, hact n hn rfl⟩⟩
      by_cases hik : i = k
      · rw [hik]
        exact hact n hn rfl
      · simp only [St.setCancel, ne_eq, hik, not_false_eq_true, update_of_ne] at hs ⊢
        exact h.active i n hs hn
    | os => exact h.same rfl rfl rfl rfl
  | _ => cases hm <;> exact h.same rfl rfl rfl rfl

theorem reach_watched (hs : (sys .tp).Reach s) : Watched s :=
  hs.rec_on (fun _ h => reach_inv h) .init fun _ _ _ hi h _ hst => h.step hi hst

/-- A wait in progress is hit while the flag is up. -/
theorem Watched.hit (h : Watched s) {n : Nat} (hf : s.timer.cancellationRequested = true)
    (hn : s.coro.wait? = some n) : ∃ k, Hit .tp s k n := by
  cases hc : s.coro with
  | idle =>
    rw [hc] at hn
    cases hn
  | created m ready =>
    rw [hc] at hn
    cases hn
    exact ⟨0, h.live, hf, by rw [Place, hc]; exact ⟨rfl, .inr rfl⟩⟩
  | parked m =>
    rw [hc] at hn
    cases hn
    obtain ⟨k, hk⟩ := h.sought n hc hf
    exact ⟨k, h.live, hf, by rw [Place, hc]; exact ⟨rfl, hk⟩⟩
  | resuming m b =>
    rw [hc] at hn
    cases hn
    exact ⟨0, h.live, hf, by rw [Place, hc]⟩

/-! ## The ledgers -/

/-- What a step of a `tp_timer` does to the flag. -/
theorem step_flag (h : step .tp s e = some s') :
    (∃ k, e = .cancel k ∧ s'.timer.cancellationRequested = true) ∨
    (endings .tp s e = [] ∧ (∀ k, e ≠ .cancel k) ∧
      s'.timer.cancellationRequested = s.timer.cancellationRequested) ∨
    ∃ n, endings .tp s e =
        [(n, if s.timer.cancellationRequested then some .timerCancelled else none)] ∧
      (∀ k, e ≠ .cancel k) ∧ s'.timer.cancellationRequested = false := by
  have hm := step_move h
  obtain ⟨-, hs⟩ := step_live h
  cases e with
  | wait ready =>
    simp only [liveStep] at hs
    split at hs
    · split at hs
      · cases hs
      · cases hs
        exact .inr (.inl ⟨rfl, by simp, rfl⟩)
    · cases hs
  | await =>
    simp only [liveStep] at hs
    right
    split at hs
    · rename_i n hc
      cases hs
      exact .inl ⟨by simp [endings, hc], by simp, rfl⟩
    · rename_i n hc
      cases hs
      by_cases hf : s.timer.cancellationRequested = true
      · refine .inr ⟨n, ?_, by simp, ?_⟩ <;>
          simp [endings, hc, suspendStep, Timer.suspend_cancelled hf, hf]
      · rw [Bool.not_eq_true] at hf
        by_cases hl : s.timer.resumeLocation = none
        · refine .inl ⟨?_, by simp, ?_⟩ <;>
            simp [endings, hc, suspendStep, Timer.suspend_free hf hl]
        · refine .inl ⟨?_, by simp, ?_⟩ <;>
            simp [endings, hc, suspendStep, Timer.suspend_twice hf hl]
    · cases hs
  | check =>
    simp only [liveStep] at hs
    split at hs
    · rename_i n b hc
      cases hs
      refine .inr (.inr ⟨n, ?_, by simp, ?_⟩) <;> cases hf : s.timer.cancellationRequested <;>
        simp [endings, hc, hf, Timer.checkException]
    · cases hs
  | cancel k => exact .inl ⟨k, rfl, (cancel_unborn h).2.2.2.2⟩
  | _ => cases hm <;> exact .inr (.inl ⟨rfl, by simp, rfl⟩)

/-- The raises are the throws, and the one that waits for its own. -/
structure Balanced (s : (St × List (Nat × Option Exception)) × List Note) : Prop where
  raises : s.2.filterMap Note.raised? =
    throwers s.1.2 ++ if s.1.1.timer.cancellationRequested then [s.1.1.answering] else []
  distinct : (s.1.2.map Prod.fst).Nodup
  once : (s.2.filterMap Note.taken?).Nodup
  /-- A wait whose handle was taken is not parked again. -/
  gone : ∀ n ∈ s.2.filterMap Note.taken?, n < s.1.1.waits ∧ s.1.1.coro ≠ .parked n ∧
    ∀ ready, s.1.1.coro ≠ .created n ready

theorem throwers_append (l l' : List (Nat × Option Exception)) :
    throwers (l ++ l') = throwers l ++ throwers l' := by
  simp [throwers]

theorem notes_cancel (k : Nat) :
    s.notes (.cancel k) = if s.timer.cancellationRequested then [] else [.raised s.answering] := rfl

theorem notes_of_ne (h : ∀ k, e ≠ .cancel k) : s.notes e =
    if (s.resumer e).isSome then s.timer.resumeLocation.toList.map .taken else [] := by
  cases e with
  | cancel k => exact absurd rfl (h k)
  | _ => rfl

theorem raised_of_ne (h : ∀ k, e ≠ .cancel k) : (s.notes e).filterMap Note.raised? = [] := by
  rw [notes_of_ne h]
  split
  · cases s.timer.resumeLocation <;> rfl
  · rfl

/-- The raises and the throws keep in step. -/
theorem raises_step {l : List (Nat × Option Exception)} {r : List Nat} (hi : Inv s)
    (h : r = throwers l ++ if s.timer.cancellationRequested then [s.answering] else [])
    (hst : step .tp s e = some s') :
    r ++ (s.notes e).filterMap Note.raised? = throwers (l ++ endings .tp s e) ++
      if s'.timer.cancellationRequested then [s'.answering] else [] := by
  have ht := step_turn hst hi
  rw [throwers_append]
  rcases step_flag hst with ⟨k, rfl, hf⟩ | ⟨he, hne, hf⟩ | ⟨n, he, hne, hf⟩
  · -- a call raises the flag, or finds it up
    have ha : s'.answering = s.answering := by
      have hc := (cancel_unborn hst).2.2.1
      cases ht with
      | stay hw hn => rw [St.answering, hw, hn, St.answering]
      | starts _ hw _ =>
        rw [hc] at hw
        rw [St.answering, St.answering, hc, hw]
        rfl
    rw [hf, if_pos rfl, ha, notes_cancel, h]
    cases hup : s.timer.cancellationRequested <;> simp [endings, throwers, Note.raised?]
  · have ha : s'.answering = s.answering := by
      rw [he] at ht
      cases ht with
      | stay hw hn => rw [St.answering, hw, hn, St.answering]
      | starts hc hw _ =>
        rw [St.answering, hw, St.answering, hc]
        rfl
    rw [raised_of_ne hne, he, hf, ha, h]
    simp [throwers]
  · -- the wait in progress ends, and has thrown if the flag was up
    have hw : s.coro.wait? = some n := by
      rw [he] at ht
      cases ht with
      | ends _ _ hw => exact hw
    have ha : s.answering = n := by rw [St.answering, hw]; rfl
    rw [raised_of_ne hne, he, hf, h, ha]
    cases hup : s.timer.cancellationRequested <;> simp [throwers]

theorem taken_notes (hi : Inv s) (hst : step .tp s e = some s') :
    (s.notes e).filterMap Note.taken? = [] ∨ ∃ n, (s.notes e).filterMap Note.taken? = [n] ∧
      s.coro = .parked n ∧ s'.coro = .resuming n true ∧ s'.waits = s.waits ∧
        s'.terminated = false := by
  by_cases hne : ∀ k, e ≠ .cancel k
  · rw [notes_of_ne hne]
    split
    · rename_i hr
      cases hl : s.timer.resumeLocation with
      | none => exact .inl rfl
      | some n => exact .inr ⟨n, rfl, resumer_takes hi hst hr hl⟩
    · exact .inl rfl
  · simp only [not_forall, not_not] at hne
    obtain ⟨k, rfl⟩ := hne
    left
    rw [notes_cancel]
    split <;> rfl

/-- A wait is parked once, and its awaiter is made once. -/
theorem step_parks (hst : step .tp s e = some s') :
    s.waits ≤ s'.waits ∧
    (∀ n, s'.coro = .parked n → s.coro = .parked n ∨ s.coro = .created n false) ∧
    ∀ n ready, s'.coro = .created n ready → s.coro = .created n ready ∨ n = s.waits := by
  have hm := step_move hst
  cases hm <;> refine ⟨?_, fun n hn => ?_, fun n ready hn => ?_⟩ <;>
    simp only [St.taken, St.lost, St.setCancel, St.setCallback] at * <;> grind -linarith

theorem Balanced.step {l : List (Nat × Option Exception)} {r : List Note}
    (h : Balanced ((s, l), r)) (hi : Inv s) (hov : Over (s, l)) (hst : step .tp s e = some s') :
    Balanced ((s', l ++ endings .tp s e), r ++ s.notes e) := by
  obtain ⟨hle, hpark, hmake⟩ := step_parks hst
  refine ⟨?_, ?_, ?_, ?_⟩
  · show (r ++ s.notes e).filterMap Note.raised? = _
    rw [List.filterMap_append]
    exact raises_step hi h.raises hst
  · show ((l ++ endings .tp s e).map Prod.fst).Nodup
    have hd := h.distinct
    have ht := step_turn hst hi
    generalize endings .tp s e = es at ht
    cases ht with
    | stay => rw [List.append_nil]; exact hd
    | starts => rw [List.append_nil]; exact hd
    | ends n t hw =>
      rw [List.map_append]
      refine List.nodup_append'.mpr ⟨hd, by simp, ?_⟩
      simp only [List.map_cons, List.map_nil, List.disjoint_singleton]
      intro hn
      obtain ⟨x, hx, rfl⟩ := List.mem_map.mp hn
      exact (hov x hx).2 hw
  · show ((r ++ s.notes e).filterMap Note.taken?).Nodup
    rw [List.filterMap_append]
    rcases taken_notes hi hst with he | ⟨n, he, hc, -⟩
    · rw [he, List.append_nil]
      exact h.once
    · rw [he]
      refine List.nodup_append'.mpr ⟨h.once, by simp, ?_⟩
      rw [List.disjoint_singleton]
      exact fun hn => (h.gone n hn).2.1 hc
  · show ∀ n ∈ (r ++ s.notes e).filterMap Note.taken?, _
    rw [List.filterMap_append]
    have old : ∀ n ∈ r.filterMap Note.taken?, n < s'.waits ∧ s'.coro ≠ .parked n ∧
        ∀ ready, s'.coro ≠ .created n ready := by
      intro n hn
      obtain ⟨hlt, hp, hc⟩ := h.gone n hn
      simp only at hlt hp hc
      refine ⟨by omega, fun hn' => ?_, fun ready hn' => ?_⟩
      · rcases hpark n hn' with ho | ho
        · exact hp ho
        · exact hc false ho
      · rcases hmake n ready hn' with ho | ho
        · exact hc ready ho
        · omega
    intro n hn
    rcases taken_notes hi hst with he | ⟨m, he, hc, hc', hw, -⟩
    · rw [he, List.append_nil] at hn
      exact old n hn
    · rw [he, List.mem_append, List.mem_singleton] at hn
      rcases hn with hn | rfl
      · exact old n hn
      · refine ⟨?_, by simp [hc'], by simp [hc']⟩
        show n < s'.waits
        rw [hw]
        exact hi.wait n (by rw [hc]; rfl)

theorem reach_balanced {s : (St × List (Nat × Option Exception)) × List Note}
    (hs : ledgers.Reach s) : Balanced s := by
  refine hs.logged_induction (I := fun t => Inv t.1 ∧ Over t)
    (fun t ht => ⟨reach_inv ht.base, reach_over ht⟩) ⟨rfl, .nil, .nil, fun n hn => (by cases hn)⟩ ?_
  intro s e s' r hi hb _ hst
  obtain ⟨hst, hl⟩ := Sys.logged_step.mp hst
  have := hb.step hi.1 hi.2 hst
  rw [← hl] at this
  exact this

/-- **Every parked handle is resumed once at most, and every cancellation answered once.** -/
theorem waits_answered (s : (St × List (Nat × Option Exception)) × List Note)
    (hs : ledgers.Reach s) : Answered s := by
  have hi := reach_inv hs.base.base
  have hb := reach_balanced hs
  have hw := reach_watched hs.base.base
  have hov := reach_over hs.base
  refine ⟨fun n hc => ?_, hi.defined, hb.once, fun k n hpc hseen => ?_, hb.raises, ?_,
    fun n hf hn => ?_⟩
  · refine Option.eq_none_iff_forall_ne_some.mpr fun m hm => ?_
    rw [(hi.stored m).mp hm] at hc
    cases hc
  · have hp : s.1.1.coro ≠ .parked n := by
      intro hp
      have := hw.active k n hseen hp
      rw [hpc] at this
      cases this
    exact ⟨fun hl => hp ((hi.stored n).mp hl), hp⟩
  · rw [hb.raises]
    have hth : (throwers s.1.2).Nodup := hb.distinct.sublist (List.filter_sublist.map _)
    split
    · refine List.nodup_append'.mpr ⟨hth, by simp, ?_⟩
      rw [List.disjoint_singleton]
      intro hn
      -- the waits that have thrown are over
      obtain ⟨x, hx, hxn⟩ := List.mem_map.mp hn
      obtain ⟨hlt, hne⟩ := hov x (List.mem_filter.mp hx).1
      rw [St.answering] at hxn
      cases hcw : s.1.1.coro.wait? with
      | none =>
        rw [hcw, Option.getD_none] at hxn
        omega
      | some m =>
        rw [hcw, Option.getD_some] at hxn
        exact hne (hxn ▸ hcw)
    · rw [List.append_nil]
      exact hth
  · obtain ⟨k, hk⟩ := hw.hit hf hn
    exact hk.ends hs.base

/-- A cancellation that finds no wait is answered by the next one, one that finds it parked by it,
and two that come together by one throw; a wait that expires in between returns. -/
def answersRun : List Ev :=
  [.cancel 0, .call 0, .wait false, .await, .start true, .wait false, .await, .expire, .dispatch,
    .callback 0, .check, .callback 0, .wait false, .await, .cancel 1, .cancel 2, .call 1, .call 1,
    .call 1, .check]

theorem waits_answered_demo : Answered (ledgers.after answersRun) ∧
    (ledgers.after answersRun).1.2 =
      [(0, some .timerCancelled), (1, none), (2, some .timerCancelled)] ∧
    (ledgers.after answersRun).2 = [.raised 0, .taken 1, .raised 2, .taken 2] :=
  ⟨waits_answered _ (Sys.reach_after (by decide)), by decide, by decide⟩

end Timers

end Corsl
