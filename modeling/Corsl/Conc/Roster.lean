import Mathlib.Data.List.Nodup

/-!
# Lists of processes

A program that keeps processes in lists (of waiters, of listeners, a pool) has them there by where
they are. `Roster l P` says that the list `l` holds the processes at which `P` holds, each once.

A step of one process `c` changes `P` at `c` only. It leaves a roster alone (`Roster.keep`), puts
`c` on it (`append`, `cons`) or takes it off (`tail`, `erase`).
-/

namespace Conc

variable {ι : Type} {l : List ι} {P Q : ι → Prop} {c : ι}

/-- The list `l` holds the processes with `P`, each once. -/
structure Roster (l : List ι) (P : ι → Prop) : Prop where
  mem : ∀ d, d ∈ l ↔ P d
  nodup : l.Nodup

namespace Roster

theorem congr (h : Roster l P) (hP : ∀ d, Q d ↔ P d) : Roster l Q :=
  ⟨fun d => (h.mem d).trans (hP d).symm, h.nodup⟩

/-- The process `c` is on the list after as before. -/
theorem keep (h : Roster l P) (hc : Q c ↔ P c) (hne : ∀ d, d ≠ c → (Q d ↔ P d)) : Roster l Q := by
  refine h.congr fun d => ?_
  by_cases hd : d = c
  · rw [hd, hc]
  · exact hne d hd

theorem append (h : Roster l P) (hP : ¬P c) (hQ : Q c) (hne : ∀ d, d ≠ c → (Q d ↔ P d)) :
    Roster (l ++ [c]) Q := by
  have hc : c ∉ l := fun hm => hP ((h.mem c).mp hm)
  refine ⟨fun d => ?_, ?_⟩
  · rw [List.mem_append, List.mem_singleton]
    by_cases hd : d = c
    · simp [hd, hQ]
    · rw [hne d hd, h.mem, or_iff_left hd]
  · rw [← List.concat_eq_append]
    exact h.nodup.concat hc

/-- The processes of `l'` come on the list. -/
theorem extend {l' : List ι} (h : Roster l P) (hn : l'.Nodup) (hP : ∀ d ∈ l', ¬P d)
    (hQ : ∀ d, Q d ↔ P d ∨ d ∈ l') : Roster (l ++ l') Q := by
  refine ⟨fun d => ?_, List.nodup_append.mpr ⟨h.nodup, hn, fun a ha b hb hab => ?_⟩⟩
  · rw [List.mem_append, h.mem, hQ]
  · subst hab
    exact hP a hb ((h.mem a).mp ha)

theorem cons (h : Roster l P) (hP : ¬P c) (hQ : Q c) (hne : ∀ d, d ≠ c → (Q d ↔ P d)) :
    Roster (c :: l) Q := by
  have hc : c ∉ l := fun hm => hP ((h.mem c).mp hm)
  refine ⟨fun d => ?_, List.nodup_cons.mpr ⟨hc, h.nodup⟩⟩
  rw [List.mem_cons]
  by_cases hd : d = c
  · simp [hd, hQ]
  · rw [hne d hd, h.mem, or_iff_right hd]

theorem tail (h : Roster (c :: l) P) (hQ : ¬Q c) (hne : ∀ d, d ≠ c → (Q d ↔ P d)) :
    Roster l Q := by
  obtain ⟨hc, hn⟩ := List.nodup_cons.mp h.nodup
  refine ⟨fun d => ?_, hn⟩
  by_cases hd : d = c
  · rw [hd]
    exact iff_of_false hc hQ
  · rw [hne d hd, ← h.mem, List.mem_cons, or_iff_right hd]

variable [DecidableEq ι]

theorem erase (h : Roster l P) (hQ : ¬Q c) (hne : ∀ d, d ≠ c → (Q d ↔ P d)) :
    Roster (l.erase c) Q := by
  refine ⟨fun d => ?_, h.nodup.erase c⟩
  rw [h.nodup.mem_erase_iff, h.mem]
  by_cases hd : d = c
  · simp [hd, hQ]
  · rw [hne d hd, and_iff_right hd]

end Roster

end Conc
