import Corsl.Conc.History

/-!
# Systems in lockstep

Two systems with the same steps are in lockstep by a relation of their states if it holds of the
initial states, each step is possible in both of two related states or in neither, and the states
after it are related. Then each simulates the other: on every sequence of steps both get stuck or
both come to related states (`Lockstep.exec`), and their histories are the same if related states
note the same of every step (`Lockstep.logged`).
-/

namespace Conc

namespace Sys

variable {σ σ' ε α : Type} {S : Sys σ ε} {S' : Sys σ' ε} {R : σ → σ' → Prop}

/-- The relation `R` keeps the two systems in lockstep (module doc). -/
structure Lockstep (S : Sys σ ε) (S' : Sys σ' ε) (R : σ → σ' → Prop) : Prop where
  init : R S.init S'.init
  step : ∀ s s' e, R s s' → Option.Rel R (S.step s e) (S'.step s' e)

theorem Lockstep.exec_from (h : Lockstep S S' R) {s : σ} {s' : σ'} (hs : R s s') (es : List ε) :
    Option.Rel R (S.exec s es) (S'.exec s' es) := by
  induction es generalizing s s' with
  | nil => exact .some hs
  | cons e es ih =>
    simp only [exec]
    have hst := h.step s s' e hs
    generalize S.step s e = a at hst ⊢
    generalize S'.step s' e = b at hst ⊢
    cases hst with
    | some ht => exact ih ht
    | none => exact .none

/-- On every sequence of steps. -/
theorem Lockstep.exec (h : Lockstep S S' R) (es : List ε) :
    Option.Rel R (S.exec S.init es) (S'.exec S'.init es) := h.exec_from h.init es

/-- Their histories, too. -/
theorem Lockstep.logged {note : σ → ε → List α} {note' : σ' → ε → List α} (h : Lockstep S S' R)
    (hn : ∀ s s' e, R s s' → note s e = note' s' e) :
    Lockstep (S.logged note) (S'.logged note') fun s s' => R s.1 s'.1 ∧ s.2 = s'.2 := by
  refine ⟨⟨h.init, rfl⟩, fun s s' e ⟨hr, hl⟩ => ?_⟩
  simp only [Sys.logged]
  have hst := h.step s.1 s'.1 e hr
  generalize S.step s.1 e = a at hst ⊢
  generalize S'.step s'.1 e = b at hst ⊢
  cases hst with
  | some ht => exact .some ⟨ht, by rw [hl, hn s.1 s'.1 e hr]⟩
  | none => exact .none

end Sys

end Conc
