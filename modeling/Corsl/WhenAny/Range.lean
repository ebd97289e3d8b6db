import Corsl.WhenAny.Lemmas

/-!
# What `when_any_range` reports (`when_any.h`)

A range that is not empty is awaited like the arguments of `when_any`, so what `await_resume`
reports is the winner's (`Denotes`). An empty range has no winner: its `await_ready` is true, and
the `co_await` completes at once with the block as it was made (`empty_completes`).
-/

namespace Corsl

open Conc

namespace WhenAny

variable {V : Type} {t : Tasks V}

/-- Its `co_await task` is over. -/
def HelperPc.isOver : HelperPc → Bool
  | .unborn | .awaiting => false
  | .exchanging | .storing | .indexing | .excepting | .calling | .releasing | .gone => true

theorem HelperPc.isOver_of_exchanged {pc : HelperPc} (h : pc.exchanged = true) :
    pc.isOver = true := by
  cases pc <;> first | rfl | cases h

/-- What the `co_await` of a range reports denotes a task that has completed. -/
structure Denotes (t : Tasks V) (s : St V) : Prop where
  /-- The coroutine goes on only when a task has completed. -/
  completed : s.coro.goneOn = true → ∃ i < t.size, (s.helpers i).isOver = true
  /-- An index is that of the winner, which has not thrown, and the value is its value. -/
  normal : ∀ i v, s.coro.result = some (.ok (i, v)) → i < t.size ∧ s.winners = [i] ∧
    (s.helpers i).isOver = true ∧
      ∃ w, t.outcome i = .ok w ∧ v = if t.isVoid i then none else some w
  /-- An exception of the winner is rethrown. -/
  threw : ∀ i e, s.winners = [i] → t.outcome i = .error e → ∀ r, s.coro.result = some r →
    r = .error e

section Range

variable [Inhabited V] {s : St V}

/-- The winner, when the coroutine has gone on, and what it gets. -/
theorem Inv.winner (h : Inv t s) (hn : t.size ≠ 0) (hg : s.coro.goneOn = true) :
    ∃ w < t.size, s.winners = [w] ∧ (s.helpers w).isOver = true ∧
      ∀ r, s.coro.result = some r → r = t.answer w := by
  obtain ⟨-, w, hlt, hhead, hb⟩ := h.goneOn hg hn
  have hx := (h.race.order.mem w).mp (List.mem_of_head? hhead)
  refine ⟨w, hlt, by rw [h.race.winners, hhead]; rfl, HelperPc.isOver_of_exchanged hx, ?_⟩
  intro r hr
  rw [h.stored.result r hr, hb, awaitResume_blockOf]

omit [Inhabited V] in
theorem CoroPc.goneOn_of_result {c : CoroPc V} {r : Except Exception (Nat × Option V)}
    (h : c.result = some r) : c.goneOn = true := by
  cases c <;> first | rfl | cases h

omit [Inhabited V] in
theorem noResult_range (hr : t.range = true) (i : Nat) : t.noResult = t.isVoid i := by
  rw [Tasks.noResult, if_pos hr, t.uniform hr i]

theorem Inv.denotes (h : Inv t s) (hr : t.range = true) (hn : t.size ≠ 0) : Denotes t s := by
  refine ⟨fun hg => ?_, fun i v hres => ?_, fun i e hwin he r hres => ?_⟩
  · obtain ⟨w, hlt, -, hover, -⟩ := h.winner hn hg
    exact ⟨w, hlt, hover⟩
  · obtain ⟨w, hlt, hwin, hover, hanswer⟩ := h.winner hn (CoroPc.goneOn_of_result hres)
    have heq := hanswer _ hres
    unfold Tasks.answer at heq
    cases ho : t.outcome w with
    | error e =>
      rw [ho] at heq
      cases heq
    | ok x =>
      rw [ho] at heq
      simp only [Except.ok.injEq, Prod.mk.injEq] at heq
      obtain ⟨rfl, hv⟩ := heq
      refine ⟨hlt, hwin, hover, x, ho, ?_⟩
      rw [hv, noResult_range hr i]
      split <;> rfl
  · obtain ⟨w, -, hwin', -, hanswer⟩ := h.winner hn (CoroPc.goneOn_of_result hres)
    obtain rfl : i = w := List.singleton_inj.mp (hwin.symm.trans hwin')
    rw [hanswer r hres, Tasks.answer, he]

/-- The `co_await` of an empty range completes at once. -/
theorem empty_completes (h : Inv t s) (hr : t.range = true) (h0 : t.size = 0) :
    s.coro ≠ .suspended ∧
      (s.coro = .idle → step t s .ready = some { s with coro := .resumed }) := by
  refine ⟨fun hc => ?_, fun hc => ?_⟩
  · have hlo : s.loop ≠ .outside := fun hl => h.places.outside hl hc
    exact h.places.nonempty hlo h0
  · simp [step, hc, awaitReady, hr, h0]

/-- **A range that is not empty reports a task that has completed**, and an empty one completes at
once, without a task. -/
theorem range_denotes (t : Tasks V) (hr : t.range = true) :
    (t.size ≠ 0 → ∀ s, (sys t).Reach s → Denotes t s) ∧
    (t.size = 0 → ∀ s, (sys t).Reach s → s.coro ≠ .suspended ∧
      (s.coro = .idle → step t s .ready = some { s with coro := .resumed })) :=
  ⟨fun hn _ hs => (reach_inv hs).denotes hr hn, fun h0 _ hs => empty_completes (reach_inv hs) hr h0⟩

end Range

/-- A range of `size` tasks that produce 7, 8 and so on. -/
def rangeTasks (size : Nat) : Tasks Nat where
  range := true
  size
  isVoid _ := false
  outcome i := .ok (i + 7)
  moved _ := 0
  two_le h := Bool.noConfusion h
  uniform _ _ := rfl

/-- Task 1 of two completes first. -/
def rangeRun : List Ev :=
  [.ready, .suspend, .suspend, .suspend, .suspend, .suspend, .helper 1, .helper 1, .helper 1,
    .helper 1, .helper 1, .resume]

theorem range_denotes_two : Denotes (rangeTasks 2) ((sys (rangeTasks 2)).after rangeRun) ∧
    ((sys (rangeTasks 2)).after rangeRun).coro.result = some (.ok (1, some 8)) :=
  ⟨(range_denotes (rangeTasks 2) rfl).1 (by decide) _ (Sys.reach_after (by decide)), by decide⟩

/-- An empty range reports index 0. -/
theorem range_denotes_empty : ¬∀ t : Tasks Nat, t.range = true → ∀ s, (sys t).Reach s →
    Denotes t s := by
  intro h
  have hs : (sys (rangeTasks 0)).Reach ((sys (rangeTasks 0)).after [.ready, .resume]) :=
    Sys.reach_after rfl
  obtain ⟨hlt, -⟩ := (h (rangeTasks 0) rfl _ hs).normal 0 (some 0) rfl
  exact absurd hlt (Nat.lt_irrefl 0)

end WhenAny

end Corsl
