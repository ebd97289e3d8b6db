import Corsl.Conc.History
import Corsl.WhenAll.Lemmas

/-!
# Which exception `when_all` rethrows

`finished_exception` tests `exception` and stores its own as two steps, without a lock, so a second
task that fails can store over the first, or before it. The history is the order in which the tasks
enter `finished_exception`. `inTurn` is the condition on a step that keeps the first exception: no
other task stores its own, unless the first is between its test and its store, and stores over it.
-/

namespace Corsl

open Conc Function

namespace WhenAll

variable {R : Nat → Type} {t : Tasks R}

/-- The task that enters `finished_exception` in a step. -/
def entering (t : Tasks R) (s : St R) : Ev → List Nat
  | .helper i =>
    match s.helpers i, t.outcome i with
    | .awaiting, .error _ => [i]
    | _, _ => []
  | _ => []

/-- A step that keeps the first exception (module doc). -/
def inTurn (s : St R × List Nat) : Ev → Bool
  | .helper i =>
    match s.2.head? with
    | some w => s.1.helpers i ≠ .recording || i = w || s.1.helpers w = .recording
    | none => true
  | _ => true

/-- `await_resume` rethrows the exception of the task that entered `finished_exception` first, if
there is one. -/
def RethrowsFirst (t : Tasks R) (s : St R × List Nat) : Prop :=
  ∀ r, s.1.coro = .done r → (∃ i < t.size, ∃ e, t.outcome i = .error e) →
    ∃ w e, s.2.head? = some w ∧ t.outcome w = .error e ∧ r = .error e

/-- It is in `finished_exception`, or after it, if its task threw. -/
def HelperPc.begun : HelperPc → Bool
  | .unborn | .awaiting => false
  | .storing | .failing | .recording | .counting | .last | .done => true

/-- The first task that fails, and the field `exception`. -/
structure First (t : Tasks R) (s : St R × List Nat) : Prop where
  entered : ∀ i, i ∈ s.2 ↔ (∃ e, t.outcome i = .error e) ∧ (s.1.helpers i).begun = true
  empty : s.2 = [] → s.1.aw.exception = none
  failing : ∀ w, s.2.head? = some w → s.1.helpers w = .failing → s.1.aw.exception = none
  stored : ∀ w e, s.2.head? = some w → t.outcome w = .error e →
    (s.1.helpers w).stored = true → s.1.aw.exception = some e

theorem First.init [∀ i, Inhabited (R i)] : First t ((sys t).init, []) :=
  ⟨fun i => by simp [sys, HelperPc.begun], fun _ => rfl, nofun, nofun⟩

section Steps

variable {s s' : St R} {l : List Nat} {i : Nat} {pc : HelperPc}

/-- A step of a helper that leaves `exception` alone, and does not enter `finished_exception`. -/
theorem First.keep (h : First t (s, l)) (hh : s'.helpers = update s.helpers i pc)
    (hb : pc.begun = (s.helpers i).begun ∨ ∃ v, t.outcome i = .ok v) (hf : pc ≠ .failing)
    (hs : pc.stored = (s.helpers i).stored ∨
      (∃ v, t.outcome i = .ok v) ∨ l.head? ≠ some i) (he : s'.aw.exception = s.aw.exception) :
    First t (s', l) := by
  obtain ⟨entered, empty, failing, stored⟩ := h
  refine ⟨fun j => ?_, fun hl => by rw [he]; exact empty hl, fun w hw hw' => ?_,
    fun w e hw hwe hw' => ?_⟩
  · simp only [hh]
    by_cases hj : j = i
    · rw [hj, update_self, entered i]
      obtain hb | ⟨v, hv⟩ := hb
      · simp only [hb]
      · simp [hv]
    · rw [update_of_ne hj]
      exact entered j
  · simp only [hh, he] at hw' ⊢
    by_cases hwi : w = i
    · rw [hwi, update_self] at hw'
      exact absurd hw' hf
    · rw [update_of_ne hwi] at hw'
      exact failing w hw hw'
  · simp only [hh, he] at hw' ⊢
    by_cases hwi : w = i
    · rw [hwi, update_self] at hw'
      obtain hs | ⟨v, hv⟩ | hl := hs
      · exact stored w e hw hwe (by rw [hwi, ← hs]; exact hw')
      · rw [hwi, hv] at hwe
        cases hwe
      · exact absurd (hwi ▸ hw) hl
    · rw [update_of_ne hwi] at hw'
      exact stored w e hw hwe hw'

/-- Task `i` enters `finished_exception`. -/
theorem First.enter (h : First t (s, l)) (hi : s.helpers i = .awaiting) {e : Exception}
    (hie : t.outcome i = .error e) : First t (s.setHelper i .failing, l ++ [i]) := by
  obtain ⟨entered, empty, failing, stored⟩ := h
  have hnot : i ∉ l := fun hm => by
    have := ((entered i).mp hm).2
    simp only [hi] at this
    cases this
  have hhead : ∀ {w}, w ≠ i → (l ++ [i]).head? = some w → l.head? = some w := by
    intro w hw hl
    cases l with
    | nil => exact absurd (Option.some.inj hl).symm hw
    | cons a as => exact hl
  have hfirst : (l ++ [i]).head? = some i → l = [] := by
    intro hl
    cases l with
    | nil => rfl
    | cons a as => exact absurd (by rw [Option.some.inj hl]; exact List.mem_cons_self ..) hnot
  refine ⟨fun j => ?_, fun hl => by simp at hl, fun w hw hw' => ?_, fun w e' hw hwe hw' => ?_⟩
  · simp only [St.setHelper, List.mem_append, List.mem_singleton]
    by_cases hj : j = i
    · rw [hj, update_self]
      simp [hie, HelperPc.begun]
    · rw [update_of_ne hj, or_iff_left hj]
      exact entered j
  · by_cases hwi : w = i
    · exact empty (hfirst (hwi ▸ hw))
    · simp only [St.setHelper, update_of_ne hwi] at hw'
      exact failing w (hhead hwi hw) hw'
  · simp only [St.setHelper] at hw' ⊢
    by_cases hwi : w = i
    · rw [hwi, update_self] at hw'
      cases hw'
    · rw [update_of_ne hwi] at hw'
      exact stored w e' (hhead hwi hw) hwe hw'

/-- Task `i` stores its exception, in its turn. -/
theorem First.record (h : First t (s, l)) (hi : s.helpers i = .recording) {e : Exception}
    (hie : t.outcome i = .error e) (hok : inTurn (s, l) (.helper i) = true)
    (hh : s'.helpers = update s.helpers i .counting) (he : s'.aw.exception = some e) :
    First t (s', l) := by
  obtain ⟨entered, empty, failing, stored⟩ := h
  have hmem : i ∈ l := (entered i).mpr ⟨⟨e, hie⟩, by simp only [hi]; rfl⟩
  -- the first task stores last, if it is another
  have hturn : ∀ w, l.head? = some w → w ≠ i → s.helpers w = .recording := by
    intro w hw hwi
    simp only [inTurn, hw, hi, ne_eq, not_true, decide_false, Bool.false_or, Bool.or_eq_true,
      decide_eq_true_eq] at hok
    exact hok.resolve_left fun h => hwi h.symm
  refine ⟨fun j => ?_, fun hl => ?_, fun w hw hw' => ?_, fun w e' hw hwe hw' => ?_⟩
  · simp only [hh]
    by_cases hj : j = i
    · rw [hj, update_self, entered i]
      simp [hi, HelperPc.begun]
    · rw [update_of_ne hj]
      exact entered j
  · rw [show l = [] from hl] at hmem
    cases hmem
  · simp only [hh] at hw'
    by_cases hwi : w = i
    · rw [hwi, update_self] at hw'
      cases hw'
    · rw [update_of_ne hwi, hturn w hw hwi] at hw'
      cases hw'
  · simp only [hh] at hw' ⊢
    by_cases hwi : w = i
    · rw [hwi, hie] at hwe
      cases hwe
      exact he
    · rw [update_of_ne hwi, hturn w hw hwi] at hw'
      cases hw'

theorem First.same (h : First t (s, l)) (hh : s'.helpers = s.helpers)
    (he : s'.aw.exception = s.aw.exception) : First t (s', l) := by
  obtain ⟨entered, empty, failing, stored⟩ := h
  exact ⟨by simpa only [hh] using entered, by simpa only [he] using empty,
    by simpa only [hh, he] using failing, by simpa only [hh, he] using stored⟩

theorem First.coro_move (h : First t (s, l)) (hi : Inv t s) (hm : CoroMove t s s') :
    First t (s', l) := by
  cases hm with
  | start i stale hl hlt =>
    obtain ⟨hu, -⟩ := hi.starting hlt (by rw [hl]; exact Nat.le_refl i)
    exact h.keep rfl (.inl (by rw [hu]; rfl)) (by simp) (.inl (by rw [hu]; rfl)) rfl
  | ready => exact h.same rfl rfl
  | suspend => exact h.same rfl rfl
  | enter => exact h.same rfl rfl
  | leave => exact h.same rfl rfl
  | result => exact h.same rfl rfl

theorem First.helper_step (h : First t (s, l)) (hok : inTurn (s, l) (.helper i) = true)
    (hst : helperStep t s i = some s') :
    First t (s', l ++ entering t s (.helper i)) := by
  -- every step but the first of a task that threw
  have hnil : s.helpers i ≠ .awaiting ∨ (∃ v, t.outcome i = .ok v) →
      l ++ entering t s (.helper i) = l := by
    intro hn
    simp only [entering]
    split
    · rename_i e ha he
      obtain hn | ⟨v, hv⟩ := hn
      · exact absurd ha hn
      · rw [hv] at he
        cases he
    · exact List.append_nil l
  cases helperStep_move hst with
  | void v hi hv =>
    rw [hnil (.inr ⟨v, hv⟩)]
    exact h.keep rfl (.inr ⟨v, hv⟩) (by simp) (.inr (.inl ⟨v, hv⟩)) rfl
  | value v hi hv =>
    rw [hnil (.inr ⟨v, hv⟩)]
    exact h.keep rfl (.inr ⟨v, hv⟩) (by simp) (.inr (.inl ⟨v, hv⟩)) rfl
  | error e hi he =>
    have : entering t s (.helper i) = [i] := by simp only [entering, hi, he]
    rw [this]
    exact h.enter hi he
  | store v hi hv =>
    rw [hnil (.inr ⟨v, hv⟩)]
    exact h.keep rfl (.inr ⟨v, hv⟩) (by simp) (.inr (.inl ⟨v, hv⟩)) rfl
  | found hi he =>
    rw [hnil (.inl (by rw [hi]; simp))]
    -- the first task finds no exception
    exact h.keep rfl (.inl (by rw [hi]; rfl)) (by simp)
      (.inr (.inr fun hw => he (h.failing i hw hi))) rfl
  | missing hi he =>
    rw [hnil (.inl (by rw [hi]; simp))]
    exact h.keep rfl (.inl (by rw [hi]; rfl)) (by simp) (.inl (by rw [hi]; rfl)) rfl
  | record e hi he =>
    rw [hnil (.inl (by rw [hi]; simp))]
    exact h.record hi he hok rfl rfl
  | count hi =>
    rw [hnil (.inl (by rw [hi]; simp))]
    exact h.keep rfl (.inl (by rw [hi]; rfl)) (by simp) (.inl (by rw [hi]; rfl)) rfl
  | last hi =>
    rw [hnil (.inl (by rw [hi]; simp))]
    exact h.keep rfl (.inl (by rw [hi]; rfl)) (by simp) (.inl (by rw [hi]; rfl)) rfl
  | resume hi =>
    rw [hnil (.inl (by rw [hi]; simp))]
    exact h.keep rfl (.inl (by rw [hi]; rfl)) (by simp) (.inl (by rw [hi]; rfl)) rfl
  | lost hi =>
    rw [hnil (.inl (by rw [hi]; simp))]
    exact h.keep rfl (.inl (by rw [hi]; rfl)) (by simp) (.inl (by rw [hi]; rfl)) rfl

/-- A step in which no task but the first stores late. -/
theorem First.step {e : Ev} (h : First t (s, l)) (hinv : Inv t s) (hok : inTurn (s, l) e = true)
    (hst : WhenAll.step t s e = some s') : First t (s', l ++ entering t s e) := by
  have hcoro : entering t s e = [] → (∀ i, e ≠ .helper i) →
      First t (s', l ++ entering t s e) := by
    intro hnil he
    rw [hnil, List.append_nil]
    exact h.coro_move hinv (coroStep_move he hst)
  cases e with
  | helper i => exact h.helper_step hok hst
  | ready => exact hcoro rfl fun _ => nofun
  | suspend => exact hcoro rfl fun _ => nofun
  | resume => exact hcoro rfl fun _ => nofun

end Steps

/-- **`when_all` rethrows the first exception**, in the runs in which no task stores its own before
the test of the first one, or after its store. -/
theorem rethrows_first [∀ i, Inhabited (R i)] {s : St R × List Nat}
    (hs : ((sys t).logged (entering t)).ReachBy (fun s e => inTurn s e = true) s) :
    RethrowsFirst t s := by
  have h : First t s := hs.logged_induction (fun _ => reach_inv) .init
    fun u e u' l hu hj hok hst => hj.step hu hok hst
  have hinv := reach_inv hs.base
  intro r hr hex
  obtain ⟨i, hi, e, he⟩ := hex
  have hgone : s.1.coro.goneOn = true := by rw [hr]; rfl
  have hstored : ∀ {j}, j < t.size → (s.1.helpers j).stored = true := hinv.stored_of_goneOn hgone
  have hbegun : ∀ {pc : HelperPc}, pc.stored = true → pc.begun = true := fun {pc} hp => by
    cases pc <;> first | rfl | exact absurd hp (by decide)
  have hm : i ∈ s.2 := (h.entered i).mpr ⟨⟨e, he⟩, hbegun (hstored hi)⟩
  obtain ⟨w, hw⟩ : ∃ w, s.2.head? = some w := by
    cases hl : s.2 with
    | nil => rw [hl] at hm; cases hm
    | cons w ws => exact ⟨w, rfl⟩
  obtain ⟨⟨e', he'⟩, hb⟩ := (h.entered w).mp (List.mem_of_head? hw)
  have hlt : w < t.size := hinv.lt fun hu => by rw [hu] at hb; cases hb
  refine ⟨w, e', hw, he', ?_⟩
  rw [hinv.results.done r hr, Awaitable.awaitResume, h.stored w e' hw he' (hstored hlt)]

/-- Two tasks that throw. -/
def twoThrows : Tasks fun _ => Nat where
  range := false
  size := 2
  isVoid _ := false
  outcome i := .error (.other i)
  size_lt := by decide
  two_le _ := by decide
  uniform h := by cases h

/-- The second finds the exception of the first. -/
def inTurnRun : List Ev :=
  [.ready, .suspend, .suspend, .suspend, .suspend, .helper 0, .helper 1, .helper 0, .helper 0,
    .helper 1, .helper 0, .helper 1, .helper 1, .resume]

theorem rethrows_first_two :
    RethrowsFirst twoThrows (((sys twoThrows).logged (entering twoThrows)).after inTurnRun) ∧
    (((sys twoThrows).logged (entering twoThrows)).after inTurnRun).1.coro.goneOn = true :=
  ⟨rethrows_first (Sys.reachBy_meets (by decide)), by decide⟩

/-- Both test `exception` before the first stores its own, and the second stores over it. -/
def overlapRun : List Ev :=
  [.ready, .suspend, .suspend, .suspend, .suspend, .helper 0, .helper 1, .helper 0, .helper 1,
    .helper 0, .helper 1, .helper 0, .helper 1, .helper 1, .resume]

theorem later_exception :
    ((sys twoThrows).logged (entering twoThrows)).Reach
      (((sys twoThrows).logged (entering twoThrows)).after overlapRun) ∧
    ¬RethrowsFirst twoThrows
      (((sys twoThrows).logged (entering twoThrows)).after overlapRun) := by
  refine ⟨Sys.reach_after (by decide), fun h => ?_⟩
  obtain ⟨w, e, hw, he, hr⟩ := h (.error (.other 1)) rfl ⟨0, by decide, _, rfl⟩
  have hfirst : w = 0 := (Option.some.inj hw).symm
  subst hfirst
  cases he
  cases hr

end WhenAll

end Corsl
