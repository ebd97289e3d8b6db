import Mathlib.Data.Finset.Card

/-!
# Countdown latches

A counter that each of some parties counts down once. `Latch parties left arrived` says that
`arrived` have, and that the counter is at `left`. A party that has not arrived finds the counter
above zero (`Latch.pos`), so the counter is at zero only when all have arrived (`Latch.all`), and
the party that counts it down to zero is the last. While it is above zero some party has not
(`Latch.exists_pending`).
-/

namespace Conc

variable {ι : Type} {parties : Finset ι} {left : Nat} {arrived : List ι} {i : ι}

/-- `arrived` of the `parties` have counted down, and `left` have not. -/
structure Latch (parties : Finset ι) (left : Nat) (arrived : List ι) : Prop where
  nodup : arrived.Nodup
  party : ∀ i ∈ arrived, i ∈ parties
  count : left + arrived.length = parties.card

namespace Latch

theorem init (parties : Finset ι) : Latch parties parties.card [] :=
  ⟨List.nodup_nil, fun _ h => (by cases h), rfl⟩

variable [DecidableEq ι]

/-- The parties that have arrived, as a set. -/
theorem card_toFinset (h : Latch parties left arrived) : arrived.toFinset.card = arrived.length :=
  List.toFinset_card_of_nodup h.nodup

/-- A party that has not arrived finds the latch closed. -/
theorem pos (h : Latch parties left arrived) (hi : i ∈ parties) (hn : i ∉ arrived) : 0 < left := by
  have hsub : arrived.toFinset ⊂ parties := by
    refine ⟨fun j hj => h.party j (List.mem_toFinset.mp hj), fun hall => hn ?_⟩
    exact List.mem_toFinset.mp (hall hi)
  have hlt := Finset.card_lt_card hsub
  have hc := h.card_toFinset
  have := h.count
  omega

/-- The next party arrives. -/
theorem arrive (h : Latch parties left arrived) (hi : i ∈ parties) (hn : i ∉ arrived) :
    Latch parties (left - 1) (arrived ++ [i]) := by
  have hpos := h.pos hi hn
  refine ⟨?_, fun j hj => ?_, ?_⟩
  · rw [List.nodup_append]
    refine ⟨h.nodup, List.nodup_singleton i, fun a ha b hb => ?_⟩
    rw [List.mem_singleton.mp hb]
    rintro rfl
    exact hn ha
  · obtain hj | hj := List.mem_append.mp hj
    · exact h.party j hj
    · rwa [List.mem_singleton.mp hj]
  · rw [List.length_append, List.length_singleton]
    have := h.count
    omega

/-- When the latch is open, every party has arrived. -/
theorem all (h : Latch parties 0 arrived) (hi : i ∈ parties) : i ∈ arrived := by
  by_contra hn
  exact absurd (h.pos hi hn) (Nat.lt_irrefl 0)

/-- While the latch is closed, some party has not arrived. -/
theorem exists_pending (h : Latch parties left arrived) (hl : 0 < left) :
    ∃ i ∈ parties, i ∉ arrived := by
  by_contra hn
  have hall : parties ⊆ arrived.toFinset := fun i hi => by
    by_contra hm
    exact hn ⟨i, hi, fun ha => hm (List.mem_toFinset.mpr ha)⟩
  have hle := Finset.card_le_card hall
  rw [h.card_toFinset] at hle
  have := h.count
  omega

end Latch

end Conc
