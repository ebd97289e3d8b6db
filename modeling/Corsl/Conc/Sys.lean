import Mathlib.Logic.Function.Basic
import Mathlib.Logic.Relation

/-!
# Systems of processes and their runs

A **system** is a state, an initial state and a partial step function: `step s e` is the state
after the atomic step `e`, or `none` if `e` cannot happen in `s` (its process is elsewhere, or it
waits for a lock). A run interleaves the steps of all processes in any order, so a statement about
every run is a statement about every schedule.

* `Sys.ReachBy ok`: the states of the runs whose steps all meet `ok`. `Sys.Reach`: all runs.
* `Sys.Later ok s`: the states that such a run reaches from `s`.
* `Sys.Inductive ok I`: an inductive invariant of these runs; `Inductive.reach` is the induction
  over a run, done once. `ReachBy.rec_on` is the same with an invariant that is proved already.
* `Sys.exec`: a run on given steps, computed; `Sys.after` is the state at its end. `Sys.meets`
  checks that the steps can happen and meet a condition on them.

Maps of processes are functions, updated with `Function.update`.
-/

attribute [grind =] Function.update_apply

namespace Conc

/-- What holds between the old and the new value of the entry that changes, and of every other entry
and itself, holds for the whole map. -/
theorem update_rel {ι α : Type} [DecidableEq ι] {r : α → α → Prop} (hr : ∀ a, r a a) {m : ι → α}
    {i : ι} {v : α} (h : r (m i) v) (j : ι) : r (m j) (Function.update m i v j) := by
  by_cases hj : j = i
  · rw [hj, Function.update_self]
    exact h
  · rw [Function.update_of_ne hj]
    exact hr (m j)

/-- A part of the entries that the new entry has unchanged. -/
theorem update_proj {ι α β : Type} [DecidableEq ι] (f : α → β) {m : ι → α} {i : ι} {v : α}
    (h : f v = f (m i)) (j : ι) : f (Function.update m i v j) = f (m j) :=
  update_rel (r := fun a a' => f a' = f a) (fun _ => rfl) h j

/-- A system: its initial state and its atomic steps. -/
structure Sys (σ ε : Type) where
  init : σ
  step : σ → ε → Option σ

namespace Sys

variable {σ ε : Type} (S : Sys σ ε)

/-- The states that a run reaches whose every step `e`, taken in `s`, meets `ok s e`. -/
inductive ReachBy (ok : σ → ε → Prop) : σ → Prop
  | init : ReachBy ok S.init
  | step {s s' : σ} (e : ε) : ReachBy ok s → ok s e → S.step s e = some s' → ReachBy ok s'

/-- The states that any run reaches. -/
abbrev Reach : σ → Prop := S.ReachBy fun _ _ => True

/-- `s'` is reached from `s` by steps that meet `ok`. -/
inductive Later (ok : σ → ε → Prop) (s : σ) : σ → Prop
  | refl : Later ok s s
  | step {s' s'' : σ} (e : ε) : Later ok s s' → ok s' e → S.step s' e = some s'' → Later ok s s''

/-- An inductive invariant of the runs whose steps meet `ok`. -/
structure Inductive (ok : σ → ε → Prop) (I : σ → Prop) : Prop where
  init : I S.init
  step : ∀ s e s', I s → ok s e → S.step s e = some s' → I s'

variable {S} {ok : σ → ε → Prop}

theorem Inductive.reach {I : σ → Prop} (h : S.Inductive ok I) {s : σ} (hs : S.ReachBy ok s) :
    I s := by
  induction hs with
  | init => exact h.init
  | step e _ hok hst ih => exact h.step _ e _ ih hok hst

/-- The induction over a run, with an invariant `I` that is proved already. -/
theorem ReachBy.rec_on {I J : σ → Prop} (hI : ∀ s, S.ReachBy ok s → I s) (h0 : J S.init)
    (h : ∀ s e s', I s → J s → ok s e → S.step s e = some s' → J s') {s : σ}
    (hs : S.ReachBy ok s) : J s := by
  induction hs with
  | init => exact h0
  | step e hr hok hst ih => exact h _ e _ (hI _ hr) ih hok hst

/-- A run that meets more meets less. -/
theorem ReachBy.mono {ok' : σ → ε → Prop} (h : ∀ s e, ok s e → ok' s e) {s : σ}
    (hs : S.ReachBy ok s) : S.ReachBy ok' s := by
  induction hs with
  | init => exact .init
  | step e _ hok hst ih => exact .step e ih (h _ e hok) hst

theorem ReachBy.reach {s : σ} (hs : S.ReachBy ok s) : S.Reach s := hs.mono fun _ _ _ => trivial

theorem ReachBy.later {s s' : σ} (hs : S.ReachBy ok s) (h : S.Later ok s s') : S.ReachBy ok s' := by
  induction h with
  | refl => exact hs
  | step e _ hok hst ih => exact .step e ih hok hst

theorem Later.trans {s s' s'' : σ} (h : S.Later ok s s') (h' : S.Later ok s' s'') :
    S.Later ok s s'' := by
  induction h' with
  | refl => exact h
  | step e _ hok hst ih => exact .step e ih hok hst

/-- A step, and then what follows it. -/
theorem Later.head {s s' s'' : σ} (e : ε) (hok : ok s e) (hst : S.step s e = some s')
    (h : S.Later ok s' s'') : S.Later ok s s'' := (Later.step e .refl hok hst).trans h

theorem Later.mono {ok' : σ → ε → Prop} (h : ∀ s e, ok s e → ok' s e) {s s' : σ}
    (hl : S.Later ok s s') : S.Later ok' s s' := by
  induction hl with
  | refl => exact .refl
  | step e _ hok hst ih => exact .step e ih (h _ e hok) hst

/-- What one step keeps, every later state keeps. -/
theorem Later.keep {I P : σ → Prop} (hI : ∀ s, S.ReachBy ok s → I s)
    (h : ∀ s e s', I s → P s → ok s e → S.step s e = some s' → P s') {s s' : σ}
    (hs : S.ReachBy ok s) (hl : S.Later ok s s') (hp : P s) : P s' := by
  induction hl with
  | refl => exact hp
  | step e hl' hok hst ih => exact h _ e _ (hI _ (hs.later hl')) ih hok hst

/-- Steps that make a measure smaller, as long as `Q` does not hold, lead to `Q`. -/
theorem exists_later {J Q : σ → Prop} {μ : σ → Nat}
    (h : ∀ s, J s → Q s ∨ ∃ e s', ok s e ∧ S.step s e = some s' ∧ J s' ∧ μ s' < μ s) {s : σ}
    (hs : J s) : ∃ s', S.Later ok s s' ∧ Q s' := by
  induction hn : μ s using Nat.strongRecOn generalizing s with
  | ind n ih =>
    obtain hq | ⟨e, t, he, hst, ht, hlt⟩ := h s hs
    · exact ⟨s, .refl, hq⟩
    · obtain ⟨u, hl, hu⟩ := ih (μ t) (hn ▸ hlt) ht rfl
      exact ⟨u, .head e he hst hl, hu⟩

/-! ## Runs on given steps -/

/-- The run on the steps `es` from `s`; `none` if a step cannot happen. -/
def exec (S : Sys σ ε) (s : σ) : List ε → Option σ
  | [] => some s
  | e :: es => (S.step s e).bind fun s' => S.exec s' es

/-- The state after the steps `es`, from the initial state. -/
def after (S : Sys σ ε) (es : List ε) : σ := (S.exec S.init es).getD S.init

theorem exec_later {s s' : σ} {es : List ε} (h : S.exec s es = some s')
    (hok : ∀ s, ∀ e ∈ es, ok s e) : S.Later ok s s' := by
  have key : ∀ (es : List ε) (t : σ), S.Later ok s t → (∀ s, ∀ e ∈ es, ok s e) →
      S.exec t es = some s' → S.Later ok s s' := by
    intro es
    induction es with
    | nil =>
      intro t ht _ he
      cases he
      exact ht
    | cons e es ih =>
      intro t ht hall he
      obtain ⟨u, hu, he'⟩ := Option.bind_eq_some_iff.mp he
      exact ih u (.step e ht (hall t e (by simp)) hu) (fun s e' h => hall s e' (by simp [h])) he'
  exact key es s .refl hok h

/-- Steps that each make a measure smaller are bounded by it. -/
theorem exec_length_le {I : σ → Prop} {μ : σ → Nat}
    (h : ∀ s e s', I s → S.step s e = some s' → I s' ∧ μ s' < μ s) {s s' : σ} {es : List ε}
    (hs : I s) (he : S.exec s es = some s') : es.length ≤ μ s := by
  induction es generalizing s with
  | nil => exact Nat.zero_le _
  | cons e es ih =>
    obtain ⟨u, hu, he'⟩ := Option.bind_eq_some_iff.mp he
    obtain ⟨hi, hlt⟩ := h s e u hs hu
    have := ih hi he'
    rw [List.length_cons]
    omega

/-- The state after steps that meet `ok` everywhere is reached. -/
theorem reachBy_after {es : List ε} (h : (S.exec S.init es).isSome = true)
    (hok : ∀ s, ∀ e ∈ es, ok s e) : S.ReachBy ok (S.after es) := by
  obtain ⟨s, hs⟩ := Option.isSome_iff_exists.mp h
  have : S.after es = s := by simp [after, hs]
  rw [this]
  exact ReachBy.init.later (exec_later hs hok)

/-- The steps `es` can happen from `s`, and each meets `ok`. -/
def meets (S : Sys σ ε) (ok : σ → ε → Bool) (s : σ) : List ε → Bool
  | [] => true
  | e :: es => ok s e && match S.step s e with
    | some s' => S.meets ok s' es
    | none => false

/-- The state after steps that meet the check `ok` is reached. -/
theorem reachBy_meets {ok : σ → ε → Bool} {es : List ε} (h : S.meets ok S.init es = true) :
    S.ReachBy (fun s e => ok s e = true) (S.after es) := by
  have key : ∀ (es : List ε) (t : σ), S.ReachBy (fun s e => ok s e = true) t →
      S.meets ok t es = true →
      ∃ u, S.exec t es = some u ∧ S.ReachBy (fun s e => ok s e = true) u := by
    intro es
    induction es with
    | nil => exact fun t ht _ => ⟨t, rfl, ht⟩
    | cons e es ih =>
      intro t ht hm
      rw [meets, Bool.and_eq_true] at hm
      cases hst : S.step t e with
      | none => simp [hst] at hm
      | some t' =>
        rw [hst] at hm
        obtain ⟨u, hu, hr⟩ := ih t' (.step e ht hm.1 hst) hm.2
        exact ⟨u, by simpa [exec, hst] using hu, hr⟩
  obtain ⟨u, hu, hr⟩ := key es S.init .init h
  have : S.after es = u := by simp [after, hu]
  rw [this]
  exact hr

theorem reach_after {es : List ε} (h : (S.exec S.init es).isSome = true) :
    S.Reach (S.after es) := reachBy_after h fun _ _ _ => trivial

end Sys

end Conc
