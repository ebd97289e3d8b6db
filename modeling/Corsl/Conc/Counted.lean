import Mathlib.Logic.Equiv.Basic
import Mathlib.Logic.Function.Basic
import Corsl.Conc.Roster

/-!
# Counted owners

Objects that share resources: `own o = some k` says that object `o` is one of the owners of the
resource `k`. `Counted own count` says that `count k` is the number of them, so a resource is owned
by somebody if and only if its count is positive (`Counted.pos_iff`).

An object that gets another pointer adds one to the count of the new resource and takes one from
that of the old (`Counted.set`); exchanging the contents of objects changes no count
(`Counted.permute`).
-/

namespace Conc

open Function

variable {ι κ : Type} {own : ι → Option κ} {count : κ → Nat}

/-- Each resource is owned by `count` objects. -/
def Counted (own : ι → Option κ) (count : κ → Nat) : Prop :=
  ∀ k, ∃ l, Roster l (fun o => own o = some k) ∧ count k = l.length

namespace Counted

theorem none : Counted (fun _ : ι => (Option.none : Option κ)) fun _ => 0 :=
  fun _ => ⟨[], ⟨by simp, List.nodup_nil⟩, rfl⟩

theorem pos_iff (h : Counted own count) {k : κ} : 0 < count k ↔ ∃ o, own o = some k := by
  obtain ⟨l, hl, hk⟩ := h k
  rw [hk, List.length_pos_iff_exists_mem]
  exact exists_congr hl.mem

theorem pos (h : Counted own count) {o : ι} {k : κ} (ho : own o = some k) : 0 < count k :=
  h.pos_iff.mpr ⟨o, ho⟩

theorem congr (h : Counted own count) {own' : ι → Option κ} {count' : κ → Nat}
    (ho : ∀ o, own' o = own o) (hc : ∀ k, count' k = count k) : Counted own' count' := by
  intro k
  obtain ⟨l, hl, hk⟩ := h k
  exact ⟨l, hl.congr fun o => by rw [ho], (hc k).trans hk⟩

/-- Two different owners. -/
theorem two_le (h : Counted own count) {o o' : ι} {k : κ} (hne : o ≠ o') (ho : own o = some k)
    (ho' : own o' = some k) : 2 ≤ count k := by
  obtain ⟨l, hl, hk⟩ := h k
  have hm := (hl.mem o).mpr ho
  have hm' := (hl.mem o').mpr ho'
  rw [hk]
  rcases l with _ | ⟨a, _ | ⟨b, l⟩⟩
  · cases hm
  · rw [List.mem_singleton] at hm hm'
    exact absurd (hm.trans hm'.symm) hne
  · simp

/-- The objects exchange what they own. -/
theorem permute (h : Counted own count) (e : Equiv.Perm ι) : Counted (own ∘ e) count := by
  intro k
  obtain ⟨l, hl, hk⟩ := h k
  refine ⟨l.map e.symm, ⟨fun o => ?_, hl.nodup.map e.symm.injective⟩, by rw [hk, List.length_map]⟩
  rw [comp_apply, ← hl.mem, List.mem_map]
  constructor
  · rintro ⟨d, hd, rfl⟩
    rwa [e.apply_symm_apply]
  · exact fun ho => ⟨e o, ho, e.symm_apply_apply o⟩

variable [DecidableEq ι]

/-- Object `o` gets the pointer `v`. -/
theorem set [DecidableEq κ] (h : Counted own count) (o : ι) (v : Option κ) :
    Counted (update own o v) fun k =>
      count k + (if v = some k then 1 else 0) - (if own o = some k then 1 else 0) := by
  intro k
  obtain ⟨l, hl, hk⟩ := h k
  have hne : ∀ d, d ≠ o → (update own o v d = some k ↔ own d = some k) := fun d hd => by
    rw [update_of_ne hd]
  by_cases hv : v = some k
  · by_cases ho : own o = some k
    · refine ⟨l, hl.keep (c := o) (iff_of_true (by simp [hv]) ho) hne, ?_⟩
      simp [hv, ho, hk]
    · refine ⟨l ++ [o], hl.append ho (by simp [hv]) hne, ?_⟩
      simp [hv, ho, hk]
  · by_cases ho : own o = some k
    · refine ⟨l.erase o, hl.erase (by simp [hv]) hne, ?_⟩
      simp [hv, ho, hk, List.length_erase_of_mem ((hl.mem o).mpr ho)]
    · refine ⟨l, hl.keep (c := o) (iff_of_false (by simp [hv]) ho) hne, ?_⟩
      simp [hv, ho, hk]

end Counted

end Conc
