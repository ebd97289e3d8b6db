import Mathlib.Logic.Equiv.Basic
import Mathlib.Logic.Function.Basic

/-!
# Unique owners

Objects that own resources: `own o = some k` says that object `o` owns the resource `k`. `Owned`
says that the resources that are `live` are those that are owned, each by one object. Exchanging the
contents of objects keeps it, whatever the permutation (`Owned.permute`); so does making a resource
(`Owned.acquire`) and giving one up (`Owned.release`).
-/

namespace Conc

open Function

variable {ι κ : Type} {own : ι → Option κ} {live : κ → Prop}

/-- Each live resource has one owner, and nothing else is owned. -/
structure Owned (own : ι → Option κ) (live : κ → Prop) : Prop where
  unique : ∀ o o' k, own o = some k → own o' = some k → o = o'
  live_iff : ∀ k, live k ↔ ∃ o, own o = some k

namespace Owned

theorem none (h : ∀ k, ¬live k) : Owned (fun _ : ι => Option.none) live :=
  ⟨fun _ _ _ h => (by cases h), fun k => ⟨fun hk => absurd hk (h k), fun ⟨_, ho⟩ => (by cases ho)⟩⟩

theorem congr (h : Owned own live) {live' : κ → Prop} (hl : ∀ k, live' k ↔ live k) :
    Owned own live' :=
  ⟨h.unique, fun k => (hl k).trans (h.live_iff k)⟩

theorem existsUnique (h : Owned own live) {k : κ} (hk : live k) : ∃! o, own o = some k := by
  obtain ⟨o, ho⟩ := (h.live_iff k).mp hk
  exact ⟨o, ho, fun o' ho' => h.unique o' o k ho' ho⟩

/-- The objects exchange what they own. -/
theorem permute (h : Owned own live) (e : Equiv.Perm ι) : Owned (own ∘ e) live := by
  refine ⟨fun o o' k ho ho' => e.injective (h.unique _ _ k ho ho'), fun k => ?_⟩
  rw [h.live_iff]
  constructor
  · rintro ⟨o, ho⟩
    exact ⟨e.symm o, by rwa [comp_apply, e.apply_symm_apply]⟩
  · rintro ⟨o, ho⟩
    exact ⟨e o, ho⟩

variable [DecidableEq ι]

/-- An object without a resource gets a new one. -/
theorem acquire (h : Owned own live) {o : ι} {k : κ} (ho : own o = .none) (hk : ¬live k) :
    Owned (update own o (some k)) (fun k' => k' = k ∨ live k') := by
  have hfree : ∀ o', own o' ≠ some k := fun o' ho' => hk ((h.live_iff k).mpr ⟨o', ho'⟩)
  refine ⟨fun a b k' ha hb => ?_, fun k' => ⟨?_, ?_⟩⟩
  · by_cases hao : a = o
    · by_cases hbo : b = o
      · rw [hao, hbo]
      · rw [hao, update_self] at ha
        rw [update_of_ne hbo, ← ha] at hb
        exact absurd hb (hfree b)
    · rw [update_of_ne hao] at ha
      by_cases hbo : b = o
      · rw [hbo, update_self] at hb
        rw [← hb] at ha
        exact absurd ha (hfree a)
      · rw [update_of_ne hbo] at hb
        exact h.unique a b k' ha hb
  · rintro (rfl | hk')
    · exact ⟨o, update_self ..⟩
    · obtain ⟨a, ha⟩ := (h.live_iff k').mp hk'
      have hao : a ≠ o := by rintro rfl; rw [ho] at ha; cases ha
      exact ⟨a, by rwa [update_of_ne hao]⟩
  · rintro ⟨a, ha⟩
    by_cases hao : a = o
    · rw [hao, update_self] at ha
      exact .inl (Option.some.inj ha).symm
    · rw [update_of_ne hao] at ha
      exact .inr ((h.live_iff k').mpr ⟨a, ha⟩)

/-- An owner gives its resource up. -/
theorem release (h : Owned own live) {o : ι} {k : κ} (ho : own o = some k) :
    Owned (update own o .none) (fun k' => k' ≠ k ∧ live k') := by
  have hne : ∀ {a : ι} {k' : κ}, update own o .none a = some k' → a ≠ o ∧ own a = some k' := by
    intro a k' ha
    by_cases hao : a = o
    · rw [hao, update_self] at ha
      cases ha
    · rw [update_of_ne hao] at ha
      exact ⟨hao, ha⟩
  refine ⟨fun a b k' ha hb => h.unique a b k' (hne ha).2 (hne hb).2, fun k' => ⟨?_, ?_⟩⟩
  · rintro ⟨hk, hk'⟩
    obtain ⟨a, ha⟩ := (h.live_iff k').mp hk'
    have hao : a ≠ o := by
      rintro rfl
      exact hk (Option.some.inj (ha.symm.trans ho))
    exact ⟨a, by rwa [update_of_ne hao]⟩
  · rintro ⟨a, ha⟩
    obtain ⟨hao, ha⟩ := hne ha
    exact ⟨fun hk => hao (h.unique a o k (hk ▸ ha) ho), (h.live_iff k').mpr ⟨a, ha⟩⟩

end Owned

end Conc
