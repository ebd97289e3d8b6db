import Corsl.Conc.Diamond
import Corsl.Conc.Simulation
import Mathlib.Algebra.BigOperators.Finprod

/-!
# Systems whose runs come to an end

* `Terminates`: no run from a state goes on forever. Then each of them can be prolonged to one that
  gets stuck (`Terminates.stuck`), and where steps commute all of them get stuck in one state
  (`Diamond.end_unique`).
* `terminates_of_stutter`: a system terminates if each of its steps is one of a system that does, or
  makes a measure smaller.
* `finsum_change`: a sum over processes of which finitely many do something, before and after a step
  of a few of them. With it, a sum of what each process has left is a measure.
-/

namespace Conc

namespace Sys

variable {σ σ' ε ε' : Type} {S : Sys σ ε} {S' : Sys σ' ε'} {s t u : σ}

/-- No run from `s` goes on forever. -/
def Terminates (S : Sys σ ε) (s : σ) : Prop := Acc (fun t s => ∃ e, S.step s e = some t) s

theorem Terminates.step {e : ε} (h : S.Terminates s) (hst : S.step s e = some t) :
    S.Terminates t := h.inv ⟨e, hst⟩

theorem Terminates.leads (h : S.Terminates s) (hl : S.Leads s t) : S.Terminates t := by
  induction hl with
  | refl => exact h
  | step e _ _ hst ih => exact ih.step hst

/-- An infinite sequence of states stops being a run somewhere. -/
theorem Terminates.finite (h : S.Terminates s) {run : Nat → σ} (h₀ : run 0 = s) :
    ∃ n, ∀ e, S.step (run n) e ≠ some (run (n + 1)) := by
  induction h generalizing run with
  | intro s _ ih =>
    subst h₀
    by_cases hst : ∃ e, S.step (run 0) e = some (run 1)
    · obtain ⟨n, hn⟩ := @ih (run 1) hst (fun k => run (k + 1)) rfl
      exact ⟨n + 1, hn⟩
    · exact ⟨0, fun e he => hst ⟨e, he⟩⟩

/-- A run gets stuck, if it goes on. -/
theorem Terminates.stuck (h : S.Terminates s) : ∃ es t, S.exec s es = some t ∧ S.Stuck t := by
  induction h with
  | intro s _ ih =>
    by_cases hs : S.Stuck s
    · exact ⟨[], s, rfl, hs⟩
    · simp only [Stuck, not_forall] at hs
      obtain ⟨e, he⟩ := hs
      obtain ⟨u, hu⟩ := Option.ne_none_iff_exists'.mp he
      obtain ⟨es, t, hes, ht⟩ := ih u ⟨e, hu⟩
      exact ⟨e :: es, t, exec_cons hu hes, ht⟩

/-- Nothing follows a state that is stuck. -/
theorem Stuck.leads (h : S.Stuck s) (hl : S.Leads s t) : t = s := by
  induction hl with
  | refl => rfl
  | step e _ _ hst ih =>
    rw [ih, h e] at hst
    cases hst

/-- All runs from a state get stuck in one state. -/
theorem Diamond.end_unique [DecidableEq ε] {I : σ → Prop} (h : S.Diamond I) {es es' : List ε}
    (hs : I s) (ht : S.exec s es = some t) (hst : S.Stuck t) (hu : S.exec s es' = some u)
    (hsu : S.Stuck u) : t = u := by
  induction es' generalizing s es with
  | nil =>
    cases hu
    cases es with
    | nil =>
      cases ht
      rfl
    | cons e es =>
      obtain ⟨v, hv, -⟩ := Option.bind_eq_some_iff.mp ht
      rw [hsu e] at hv
      cases hv
  | cons e es' ih =>
    obtain ⟨v, hv, hu'⟩ := Option.bind_eq_some_iff.mp hu
    obtain ⟨es'', -, ht'⟩ := h.step_first hs ht hst hv
    exact ih (h.keep s e v hs hv) ht' hu'

/-- Between two steps of `S'` there are finitely many steps of `S` alone. -/
theorem terminates_of_stutter {R : σ → σ' → Prop} (μ : σ → Nat)
    (h : ∀ s e t s', R s s' → S.step s e = some t →
      μ t < μ s ∧ R t s' ∨ ∃ e' t', S'.step s' e' = some t' ∧ R t t')
    {s' : σ'} (hr : R s s') (ht : S'.Terminates s') : S.Terminates s := by
  induction ht generalizing s with
  | intro s' _ ih =>
    induction hn : μ s using Nat.strong_induction_on generalizing s with
    | _ n ih' =>
      refine ⟨_, fun t ⟨e, hst⟩ => ?_⟩
      obtain ⟨hlt, hrt⟩ | ⟨e', t', hst', hrt⟩ := h s e t s' hr hst
      · exact ih' (μ t) (hn ▸ hlt) hrt rfl
      · exact ih t' ⟨e', hst'⟩ hrt

end Sys

/-- What a step of the processes `l` does to a sum over all of them. -/
theorem finsum_change {ι M : Type} [AddCommMonoid M] {w : ι → M} (w' : ι → M)
    (hw : (Function.support w).Finite) (l : Finset ι) (h : ∀ i ∉ l, w' i = w i) :
    (Function.support w').Finite ∧
      finsum w' + ∑ i ∈ l, w i = finsum w + ∑ i ∈ l, w' i := by
  classical
  have hsub : Function.support w ⊆ ↑(hw.toFinset ∪ l) := by
    intro i hi
    simp [hi]
  have hsub' : Function.support w' ⊆ ↑(hw.toFinset ∪ l) := by
    intro i hi
    by_cases hl : i ∈ l
    · simp [hl]
    · have : w i ≠ 0 := h i hl ▸ hi
      simp [this]
  refine ⟨(Finset.finite_toSet _).subset hsub', ?_⟩
  rw [finsum_eq_sum_of_support_subset w hsub, finsum_eq_sum_of_support_subset w' hsub']
  have hsplit : ∀ f : ι → M, ∑ i ∈ hw.toFinset ∪ l, f i =
      ∑ i ∈ (hw.toFinset ∪ l) \ l, f i + ∑ i ∈ l, f i := fun f =>
    (Finset.sum_sdiff Finset.subset_union_right).symm
  have hrest : ∑ i ∈ (hw.toFinset ∪ l) \ l, w' i = ∑ i ∈ (hw.toFinset ∪ l) \ l, w i :=
    Finset.sum_congr rfl fun i hi => h i (Finset.mem_sdiff.mp hi).2
  rw [hsplit w, hsplit w', hrest, add_right_comm]

end Conc
