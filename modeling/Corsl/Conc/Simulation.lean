import Corsl.Conc.Sys

/-!
# Simulations

A relation `R` between the states of a system and those of a more abstract one.

* `Simulates`: the abstract system can do what the system does, in any number of steps. Then every
  state that the system reaches is related to one that the abstract system reaches
  (`Simulates.reach`).
* `Follows`: the system can do what the abstract system does, in any number of steps. Then it can
  follow a whole run of it (`Follows.exec`).
-/

namespace Conc

namespace Sys

variable {σ σ' ε ε' : Type} {S : Sys σ ε} {S' : Sys σ' ε'} {R : σ → σ' → Prop}

/-- Any run. -/
abbrev Leads (S : Sys σ ε) : σ → σ → Prop := S.Later fun _ _ => True

theorem Leads.single {s t : σ} {e : ε} (h : S.step s e = some t) : S.Leads s t :=
  .step e .refl trivial h

/-- What `S` does in runs whose steps meet `ok`, `S'` can do. -/
structure Simulates (S : Sys σ ε) (ok : σ → ε → Prop) (S' : Sys σ' ε') (R : σ → σ' → Prop) :
    Prop where
  init : R S.init S'.init
  step : ∀ s e t s', R s s' → ok s e → S.step s e = some t → ∃ t', S'.Leads s' t' ∧ R t t'

theorem Simulates.reach {ok : σ → ε → Prop} (h : Simulates S ok S' R) {s : σ}
    (hs : S.ReachBy ok s) : ∃ s', S'.Reach s' ∧ R s s' := by
  induction hs with
  | init => exact ⟨S'.init, .init, h.init⟩
  | step e _ hok hst ih =>
    obtain ⟨s', hs', hr⟩ := ih
    obtain ⟨t', hl, ht⟩ := h.step _ e _ s' hr hok hst
    exact ⟨t', hs'.later hl, ht⟩

/-- What `S'` does, `S` can do. -/
def Follows (S : Sys σ ε) (S' : Sys σ' ε') (R : σ → σ' → Prop) : Prop :=
  ∀ s s' e t', R s s' → S'.step s' e = some t' → ∃ t, S.Leads s t ∧ R t t'

theorem Follows.exec (h : Follows S S' R) {s : σ} {s' t' : σ'} {es : List ε'} (hr : R s s')
    (he : S'.exec s' es = some t') : ∃ t, S.Leads s t ∧ R t t' := by
  induction es generalizing s s' with
  | nil =>
    cases he
    exact ⟨s, .refl, hr⟩
  | cons e es ih =>
    obtain ⟨u', hu, he'⟩ := Option.bind_eq_some_iff.mp he
    obtain ⟨u, hl, hru⟩ := h s s' e u' hr hu
    obtain ⟨t, hl', ht⟩ := ih hru he'
    exact ⟨t, hl.trans hl', ht⟩

end Sys

end Conc
