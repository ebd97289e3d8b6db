import Mathlib.Order.WellFoundedSet
import Mathlib.Logic.Relation

/-!
# Who waits for whom

`R a b` says that process `a` waits for process `b`. If a measure shows where the processes of a
cycle can be, the cycles of `R` are cycles of a smaller relation (`cycle_of_measure`). Where
finitely many processes take part and there is no cycle, each of them waits, along a chain, for one
that waits for nobody (`exists_unblocked`).
-/

namespace Conc

open Relation

variable {α : Type} {R R' : α → α → Prop}

/-- Along a chain, the measure becomes smaller, or the chain is one of `R'`. -/
theorem transGen_of_measure (f : α → Nat)
    (h : ∀ a b, R a b → f b < f a ∨ f b = f a ∧ R' a b) {a b : α} (hab : TransGen R a b) :
    f b < f a ∨ f b = f a ∧ TransGen R' a b := by
  induction hab with
  | single hab => exact (h _ _ hab).imp_right fun hr => ⟨hr.1, .single hr.2⟩
  | tail _ hbc ih =>
    rcases ih with hlt | ⟨heq, hr⟩ <;> rcases h _ _ hbc with hlt' | ⟨heq', hr'⟩
    · left; omega
    · left; omega
    · left; omega
    · exact .inr ⟨by omega, hr.tail hr'⟩

/-- A cycle of `R` is one of `R'`, the steps that leave the measure as it is. -/
theorem cycle_of_measure (f : α → Nat)
    (h : ∀ a b, R a b → f b < f a ∨ f b = f a ∧ R' a b) {a : α} (ha : TransGen R a a) :
    TransGen R' a a := by
  rcases transGen_of_measure f h ha with hlt | ⟨-, hr⟩
  · omega
  · exact hr

/-- Without a cycle, a process waits for one that waits for nobody. -/
theorem exists_unblocked {T : Set α} (hT : T.Finite) (hac : ∀ a, ¬TransGen R a a)
    (hR : ∀ a ∈ T, ∀ b, R a b → b ∈ T) {a : α} (ha : a ∈ T) :
    ∃ b ∈ T, ReflTransGen R a b ∧ ∀ c, ¬R b c := by
  have : IsStrictOrder α (fun b a => TransGen R a b) :=
    { irrefl := hac, trans := fun _ _ _ h h' => h'.trans h }
  have hwf : T.WellFoundedOn fun b a => TransGen R a b := hT.wellFoundedOn
  -- by induction on the processes that `a` waits for
  refine hwf.induction (P := fun x => ∃ b ∈ T, ReflTransGen R x b ∧ ∀ c, ¬R b c) ha ?_
  intro x hx ih
  by_cases hxb : ∃ b, R x b
  · obtain ⟨b, hb⟩ := hxb
    obtain ⟨c, hc, hbc, hlast⟩ := ih b (hR x hx b hb) (.single hb)
    exact ⟨c, hc, .head hb hbc, hlast⟩
  · exact ⟨x, hx, .refl, fun c hc => hxb ⟨c, hc⟩⟩

end Conc
