import Corsl.Conc.Sys

/-!
# Steps that commute

Where any two steps that are possible commute (`Diamond`), the schedule does not matter: if one run
from a state comes to an end, so does every other run from there, with the same steps in another
order (`Diamond.step_first`: any step that is possible can be taken first). An end is a state
without a next step.
-/

namespace Conc

namespace Sys

variable {σ ε : Type} {S : Sys σ ε} {I : σ → Prop}

/-- No step is possible. -/
def Stuck (S : Sys σ ε) (s : σ) : Prop := ∀ e, S.step s e = none

/-- Two different steps that are possible can be taken in both orders, and lead to one state. -/
structure Diamond (S : Sys σ ε) (I : σ → Prop) : Prop where
  keep : ∀ s e s', I s → S.step s e = some s' → I s'
  comm : ∀ s e e' t t', I s → e ≠ e' → S.step s e = some t → S.step s e' = some t' →
    ∃ u, S.step t e' = some u ∧ S.step t' e = some u

theorem exec_cons {s s' t : σ} {e : ε} {es : List ε} (hst : S.step s e = some s')
    (h : S.exec s' es = some t) : S.exec s (e :: es) = some t := by
  rw [exec, hst]
  exact h

theorem exec_append {s t u : σ} {es es' : List ε} (h : S.exec s es = some t)
    (h' : S.exec t es' = some u) : S.exec s (es ++ es') = some u := by
  induction es generalizing s with
  | nil =>
    cases h
    exact h'
  | cons e es ih =>
    obtain ⟨v, hv, he⟩ := Option.bind_eq_some_iff.mp h
    exact exec_cons hv (ih he)

/-- What one step keeps, a run on given steps keeps. -/
theorem exec_keep (hI : ∀ s e s', I s → S.step s e = some s' → I s') {s t : σ} {es : List ε}
    (hs : I s) (h : S.exec s es = some t) : I t := by
  induction es generalizing s with
  | nil =>
    cases h
    exact hs
  | cons e es ih =>
    obtain ⟨v, hv, he⟩ := Option.bind_eq_some_iff.mp h
    exact ih (hI s e v hs hv) he

namespace Diamond

/-- A step that is possible is one of the steps of every run that comes to an end. -/
theorem step_first [DecidableEq ε] (h : Diamond S I) {s s' t : σ} {e : ε} {es : List ε}
    (hs : I s) (he : S.exec s es = some t) (ht : S.Stuck t) (hst : S.step s e = some s') :
    ∃ es', es.Perm (e :: es') ∧ S.exec s' es' = some t := by
  induction es generalizing s s' with
  | nil =>
    cases he
    rw [ht e] at hst
    cases hst
  | cons d es ih =>
    obtain ⟨v, hv, he'⟩ := Option.bind_eq_some_iff.mp he
    by_cases hd : d = e
    · subst hd
      cases hv.symm.trans hst
      exact ⟨es, .refl _, he'⟩
    · obtain ⟨u, hu, hu'⟩ := h.comm s d e v s' hs hd hv hst
      obtain ⟨es', hp, hex⟩ := ih (h.keep s d v hs hv) he' hu
      exact ⟨d :: es', (hp.cons d).trans (.swap e d es'), exec_cons hu' hex⟩

end Diamond

end Sys

end Conc
