import Corsl.WhenAll.Lemmas

/-!
# The vector of results of `when_all_range`

`results` is a `std::vector<T>`. For `T = bool` its elements are packed in words, and a store to one
of them reads the word and writes it back later, as two steps.

* `Layout`: how the elements lie in memory.
* `Packed.step`: the system of `when_all` (`WhenAll.step`), with these stores.
* `Packed.apart`: the condition on a step that no store is written back while another store has
  read the same word.

In the runs in which it holds, the system of packed words refines the system of elements
(`Packed.refines`): what the other elements of a word were when it was read they are when it is
written back.
-/

namespace Corsl

open Conc Function

namespace WhenAll

/-- How the elements of the vector lie in memory. -/
inductive Layout where
  /-- Each by itself. -/
  | elements
  /-- `std::vector<bool>`, with `n` elements in a word. -/
  | words (n : Nat)
  deriving DecidableEq, Repr

namespace Packed

variable {T : Type}

/-- The state of the system: that of `when_all`, and the words that stores have read, each by the
task whose result is stored. -/
structure St (T : Type) where
  base : WhenAll.St fun _ => T
  read : Nat → Option (Nat → Component T) := fun _ => none

/-- The results after `word`, with `v` in the place of element `i`, is written back. -/
def writeBack (n i : Nat) (v : T) (word results : Nat → Component T) : Nat → Component T :=
  fun k => if k / n = i / n then if k = i then .value v else word k else results k

/-- The assignment to element `i` of packed results: the word is read, or written back. -/
def storeStep (t : Tasks fun _ => T) (n : Nat) (s : St T) (i : Nat) : Option (St T) :=
  match s.read i, t.outcome i with
  | none, .ok _ =>
    some { s with base := s.base.touch, read := update s.read i (some s.base.aw.results) }
  | some word, .ok v =>
    some {
      base := { s.base.touch.setHelper i .counting with
        aw := { s.base.aw with results := writeBack n i v word s.base.aw.results } }
      read := update s.read i none }
  | _, .error _ => none

/-- One atomic step. -/
def step (l : Layout) (t : Tasks fun _ => T) (s : St T) (e : Ev) : Option (St T) :=
  match l, e with
  | .words n, .helper i =>
    if s.base.helpers i = .storing then storeStep t n s i
    else (WhenAll.step t s.base e).map fun base => { s with base }
  | _, _ => (WhenAll.step t s.base e).map fun base => { s with base }

/-- One `co_await` of `when_all_range`, with its vector of results. -/
def sys [Inhabited T] (l : Layout) (t : Tasks fun _ => T) : Sys (St T) Ev :=
  ⟨{ base := { aw := .new t } }, step l t⟩

/-- The step does not write a word back that another store has read. -/
def apart (l : Layout) (t : Tasks fun _ => T) (s : St T) : Ev → Bool
  | .helper i =>
    match l with
    | .elements => true
    | .words n =>
      s.base.helpers i ≠ .storing || (s.read i).isNone ||
        (List.range t.size).all fun j => j = i || (s.read j).isNone || j / n ≠ i / n
  | _ => true

/-- No result is lost: after the resume, if there is no exception, each is in its place, and the
awaiter gets them. -/
structure InPlace (t : Tasks fun _ => T) (s : St T) : Prop where
  stored : s.base.coro.goneOn = true → s.base.aw.exception = none →
    ∀ i < t.size, ∃ v, t.outcome i = .ok v ∧ s.base.aw.results i = .value v
  returned : ∀ results, s.base.coro = .done (.ok results) →
    ∀ i < t.size, ∃ v, t.outcome i = .ok v ∧ results i = .value v

/-! ## What one step does -/

variable {l : Layout} {t : Tasks fun _ => T} {s s' : St T}

/-- One step of the system with packed words. -/
inductive Move (t : Tasks fun _ => T) (n : Nat) (s : St T) (e : Ev) : St T → Prop
  | base (b : WhenAll.St fun _ => T) : (∀ i, e = .helper i → s.base.helpers i ≠ .storing) →
    WhenAll.step t s.base e = some b → Move t n s e { s with base := b }
  | read (i : Nat) : e = .helper i → s.base.helpers i = .storing → s.read i = none →
    Move t n s e { s with base := s.base.touch, read := update s.read i (some s.base.aw.results) }
  | write (i : Nat) (v : T) (word : Nat → Component T) : e = .helper i →
    s.base.helpers i = .storing → s.read i = some word → t.outcome i = .ok v →
    Move t n s e {
      base := { s.base.touch.setHelper i .counting with
        aw := { s.base.aw with results := writeBack n i v word s.base.aw.results } }
      read := update s.read i none }

theorem step_move {n : Nat} {e : Ev} (h : step (.words n) t s e = some s') : Move t n s e s' := by
  have hbase : (∀ i, e = .helper i → s.base.helpers i ≠ .storing) →
      (WhenAll.step t s.base e).map (fun base => { s with base }) = some s' → Move t n s e s' := by
    intro he h
    obtain ⟨b, hb, rfl⟩ := Option.map_eq_some_iff.mp h
    exact .base b he hb
  cases e with
  | ready => exact hbase (by simp) h
  | suspend => exact hbase (by simp) h
  | resume => exact hbase (by simp) h
  | helper i =>
    simp only [step] at h
    split at h
    · rename_i hi
      unfold storeStep at h
      split at h
      · rename_i hr ho; cases h; exact .read i rfl hi hr
      · rename_i word v hr ho; cases h; exact .write i v word rfl hi hr ho
      · cases h
    · rename_i hi
      exact hbase (fun j hj => by cases hj; exact hi) h

/-! ## The refinement -/

/-- What a step of `when_all` that stores no result leaves alone: the results, and every helper that
is about to store one. -/
theorem base_frame {b b' : WhenAll.St fun _ => T} {e : Ev} (h : WhenAll.step t b e = some b')
    (he : ∀ i, e = .helper i → b.helpers i ≠ .storing) (hinv : Inv t b) :
    b'.aw.results = b.aw.results ∧ ∀ j, b.helpers j = .storing → b'.helpers j = .storing := by
  by_cases hn : ∀ i, e ≠ .helper i
  · cases coroStep_move hn h with
    | start i stale hl hi =>
      obtain ⟨hu, -⟩ := hinv.starting hi (by rw [hl]; exact Nat.le_refl i)
      refine ⟨rfl, fun j hj => ?_⟩
      have hji : j ≠ i := by rintro rfl; rw [hu] at hj; cases hj
      simpa only [St.setHelper, update_of_ne hji] using hj
    | ready => exact ⟨rfl, fun _ => id⟩
    | suspend => exact ⟨rfl, fun _ => id⟩
    | enter => exact ⟨rfl, fun _ => id⟩
    | leave => exact ⟨rfl, fun _ => id⟩
    | result => exact ⟨rfl, fun _ => id⟩
  · obtain ⟨i, hei⟩ : ∃ i, e = .helper i := by
      by_contra hno
      exact hn fun i hi => hno ⟨i, hi⟩
    subst hei
    have hne : ∀ {pc : HelperPc} {j : Nat}, b.helpers j = .storing →
        update b.helpers i pc j = .storing := by
      intro pc j hj
      have hji : j ≠ i := by rintro rfl; exact he j rfl hj
      rwa [update_of_ne hji]
    cases helperStep_move h with
    | store v hi => exact absurd hi (he i rfl)
    | void => exact ⟨rfl, fun _ => hne⟩
    | value => exact ⟨rfl, fun _ => hne⟩
    | error => exact ⟨rfl, fun _ => hne⟩
    | found => exact ⟨rfl, fun _ => hne⟩
    | missing => exact ⟨rfl, fun _ => hne⟩
    | record => exact ⟨rfl, fun _ => hne⟩
    | count => exact ⟨rfl, fun _ => hne⟩
    | last => exact ⟨rfl, fun _ => hne⟩
    | resume => exact ⟨rfl, fun _ => hne⟩
    | lost => exact ⟨rfl, fun _ => hne⟩

variable [Inhabited T]

/-- The state is one of `when_all`, and the words that were read are still what they were. -/
structure Refines (t : Tasks fun _ => T) (n : Nat) (s : St T) : Prop where
  base : (WhenAll.sys t).Reach s.base
  read : ∀ i word, s.read i = some word → s.base.helpers i = .storing ∧
    ∀ k, k / n = i / n → word k = s.base.aw.results k

omit [Inhabited T] in
/-- A word that is still what it was is written back as one element. -/
theorem writeBack_eq {n i : Nat} {v : T} {word results : Nat → Component T}
    (h : ∀ k, k / n = i / n → word k = results k) :
    writeBack n i v word results = update results i (.value v) := by
  funext k
  unfold writeBack
  by_cases hk : k = i
  · subst hk
    simp
  · rw [update_of_ne hk, if_neg hk]
    split
    · rename_i hw
      exact h k hw
    · rfl

omit [Inhabited T] in
/-- While a helper stores its result the awaitable is in use by right. -/
theorem touch_eq {b : WhenAll.St fun _ => T} (h : Inv t b) {i : Nat}
    (hi : b.helpers i = .storing) : b.touch = b := by
  have hr := h.not_resumed (i := i) (by rw [hi]; simp) (by rw [hi]; simp)
  have hs : (b.stale || decide (b.resumes ≠ 0)) = b.stale := by simp [hr]
  unfold WhenAll.St.touch
  rw [hs]

theorem Refines.move {n : Nat} {e : Ev} (h : Refines t n s) (hm : Move t n s e s')
    (hok : apart (.words n) t s e = true) : Refines t n s' := by
  have hinv := reach_inv h.base
  obtain ⟨hbase, hread⟩ := h
  cases hm with
  | base b he hb =>
    obtain ⟨hres, hstoring⟩ := base_frame hb he hinv
    refine ⟨.step e hbase trivial hb, fun i word hi => ?_⟩
    obtain ⟨h1, h2⟩ := hread i word hi
    exact ⟨hstoring i h1, by rw [hres]; exact h2⟩
  | read i he hi hr =>
    rw [touch_eq hinv hi]
    refine ⟨hbase, fun j word hj => ?_⟩
    by_cases hji : j = i
    · rw [hji]
      simp only [hji, update_self, Option.some.injEq] at hj
      rw [← hj]
      exact ⟨hi, fun _ _ => rfl⟩
    · simp only [update_of_ne hji] at hj
      exact hread j word hj
  | write i v word he hi hr ho =>
    subst he
    have hsame := (hread i word hr).2
    refine ⟨.step (.helper i) hbase trivial ?_, fun j word' hj => ?_⟩
    · simp only [WhenAll.sys, WhenAll.step, helperStep, hi, ho, Awaitable.store]
      rw [writeBack_eq hsame]
    · have hji : j ≠ i := by
        rintro rfl
        simp only [update_self] at hj
        cases hj
      simp only [update_of_ne hji] at hj
      obtain ⟨h1, h2⟩ := hread j word' hj
      have hlt : j < t.size := hinv.lt (by rw [h1]; simp)
      have hword : j / n ≠ i / n := by
        simp only [apart, hi, hr, ne_eq, not_true, decide_false, Option.isNone_some, Bool.or_self,
          Bool.false_or, List.all_eq_true, List.mem_range, Bool.or_eq_true,
          decide_eq_true_eq] at hok
        obtain (hj' | hj') | hj' := hok j hlt
        · exact absurd hj' hji
        · rw [hj] at hj'
          cases hj'
        · exact hj'
      refine ⟨?_, fun k hk => ?_⟩
      · show update s.base.helpers i .counting j = .storing
        rwa [update_of_ne hji]
      rw [h2 k hk, writeBack_eq hsame]
      exact (update_of_ne (by rintro rfl; exact hword hk.symm) ..).symm

/-- The system of packed words refines the system of elements. -/
theorem refines {n : Nat}
    (hs : (sys (.words n) t).ReachBy (fun s e => apart (.words n) t s e = true) s) :
    Refines t n s :=
  Sys.Inductive.reach ⟨⟨.init, nofun⟩, fun _ _ _ h hok hst => h.move (step_move hst) hok⟩ hs

/-- With each element by itself the system is that of `when_all`. -/
theorem elements_reach {ok : St T → Ev → Prop} (hs : (sys .elements t).ReachBy ok s) :
    (WhenAll.sys t).Reach s.base := by
  refine Sys.Inductive.reach (I := fun s : St T => (WhenAll.sys t).Reach s.base)
    ⟨.init, fun u e u' hu _ hst => ?_⟩ hs
  have : (WhenAll.step t u.base e).map (fun base => { u with base }) = some u' := hst
  obtain ⟨b, hb, rfl⟩ := Option.map_eq_some_iff.mp this
  exact .step e hu trivial hb

/-! ## Results -/

theorem inPlace (hv : ∀ i, t.isVoid i = false) (hs : (WhenAll.sys t).Reach s.base) :
    InPlace t s := by
  have h := reach_inv hs
  have key : s.base.coro.goneOn = true → s.base.aw.exception = none →
      ∀ i < t.size, ∃ v, t.outcome i = .ok v ∧ s.base.aw.results i = .value v := by
    intro hg he i hi
    have hst := h.stored_of_goneOn hg hi
    cases ho : t.outcome i with
    | error e => exact absurd he (h.results.caught i e hst ho)
    | ok v => exact ⟨v, rfl, h.results.stored i v hst ho (hv i)⟩
  refine ⟨key, fun results hd i hi => ?_⟩
  have hr := h.results.done _ hd
  unfold Awaitable.awaitResume at hr
  split at hr
  · cases hr
  · rename_i he
    cases hr
    exact key (by rw [hd]; rfl) he i hi

/-- **`when_all_range` loses no result**, in the runs in which no word is written back that another
store has read. -/
theorem loses_none (hr : t.range = true) (hv : t.isVoid 0 = false)
    (hs : (sys l t).ReachBy (fun s e => apart l t s e = true) s) : InPlace t s := by
  have hvoid : ∀ i, t.isVoid i = false := fun i => (t.uniform hr i).trans hv
  cases l with
  | elements => exact inPlace hvoid (elements_reach hs)
  | words n => exact inPlace hvoid (refines hs).base

theorem two_lt : 2 < 0x80000000 := by decide

/-- Two tasks whose result is true. -/
def twoTrue : Tasks fun _ => Bool where
  range := true
  size := 2
  isVoid _ := false
  outcome _ := .ok true
  size_lt := two_lt
  two_le h := by cases h
  uniform _ _ := rfl

/-- The second stores its result after the first. -/
def apartRun : List Ev :=
  [.ready, .suspend, .suspend, .suspend, .suspend, .helper 0, .helper 1, .helper 0, .helper 0,
    .helper 1, .helper 1, .helper 0, .helper 1, .helper 1, .resume]

theorem loses_none_two : InPlace twoTrue ((sys (.words 32) twoTrue).after apartRun) ∧
    ((sys (.words 32) twoTrue).after apartRun).base.coro.goneOn = true :=
  ⟨loses_none rfl rfl (Sys.reachBy_meets (by decide)), by decide⟩

/-- Both read the word before the first writes it back. -/
def overlapRun : List Ev :=
  [.ready, .suspend, .suspend, .suspend, .suspend, .helper 0, .helper 1, .helper 0, .helper 1,
    .helper 0, .helper 1, .helper 0, .helper 1, .helper 1, .resume]

theorem lost_result :
    (sys (.words 32) twoTrue).Reach ((sys (.words 32) twoTrue).after overlapRun) ∧
    ¬InPlace twoTrue ((sys (.words 32) twoTrue).after overlapRun) := by
  refine ⟨Sys.reach_after (by decide), fun h => ?_⟩
  obtain ⟨v, hv, hr⟩ := h.stored (by decide) (by decide) 0 (by decide)
  cases hv
  cases hr

end Packed

end WhenAll

end Corsl
