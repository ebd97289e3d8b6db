import Mathlib.Data.List.Basic

/-!
# The ledger of a FIFO store

The history of a store that values enter at the back and leave at the front, or all at once when
the store is emptied. Each value that is offered gets a **ticket**, the number of offers before
it: tickets are ghost values, they tell equal values apart and no program reads them.

* `Ledger`: the values accepted, dropped and taken so far, each list in the order of the steps.
* `Ledger.kept`: the accepted values without the dropped ones, in the order of acceptance.
* `Ledger.Ok L stored`: what was taken, followed by what is stored, is what was kept. So no value
  is lost, doubled or overtaken. `Ok.accept`, `Ok.refuse`, `Ok.take` and `Ok.drop` are the four
  steps of a store; `Ok.accept_take` is a value that goes through an empty store in one step.
-/

namespace Conc

/-- A value with its ticket. -/
abbrev Item (V : Type) := Nat × V

/-- The history of a store (module doc). `next` is the ticket of the next offer. -/
structure Ledger (V : Type) where
  next : Nat := 0
  accepted : List (Item V) := []
  dropped : List (Item V) := []
  taken : List (Item V) := []

namespace Ledger

variable {V : Type}

/-- The ticket of `x` is the ticket of a value of `xs`. -/
def hasTicket (xs : List (Item V)) (x : Item V) : Bool := (xs.map Prod.fst).contains x.1

/-- The accepted values without the dropped ones. -/
def kept (L : Ledger V) : List (Item V) := L.accepted.filter fun x => !hasTicket L.dropped x

/-- The value `v` is offered and not accepted. -/
def refuse (L : Ledger V) : Ledger V := { L with next := L.next + 1 }

/-- The value `v` is offered and accepted. -/
def accept (L : Ledger V) (v : V) : Ledger V :=
  { L with next := L.next + 1, accepted := L.accepted ++ [(L.next, v)] }

/-- The value `x` leaves the front of the store. -/
def take (L : Ledger V) (x : Item V) : Ledger V := { L with taken := L.taken ++ [x] }

/-- The store, holding `xs`, is emptied. -/
def drop (L : Ledger V) (xs : List (Item V)) : Ledger V := { L with dropped := L.dropped ++ xs }

/-- The history `L` fits the store's values `stored` (module doc). -/
structure Ok (L : Ledger V) (stored : List (Item V)) : Prop where
  sorted : (L.accepted.map Prod.fst).Pairwise (· < ·)
  below : ∀ x ∈ L.accepted, x.1 < L.next
  source : ∀ x ∈ L.dropped, x ∈ L.accepted
  kept : L.taken ++ stored = L.kept

theorem hasTicket_iff {xs : List (Item V)} {x : Item V} :
    hasTicket xs x = true ↔ ∃ y ∈ xs, y.1 = x.1 := by
  simp [hasTicket]

theorem hasTicket_append (xs ys : List (Item V)) (x : Item V) :
    hasTicket (xs ++ ys) x = (hasTicket xs x || hasTicket ys x) := by
  rw [Bool.eq_iff_iff]
  simp only [Bool.or_eq_true, hasTicket_iff, List.mem_append, or_and_right, exists_or]

theorem Ok.init : Ok ({} : Ledger V) [] := ⟨by simp, by simp, by simp, by simp [Ledger.kept]⟩

/-- No two kept values have one ticket. -/
theorem Ok.tickets {L : Ledger V} {stored : List (Item V)} (h : L.Ok stored) :
    ((L.taken ++ stored).map Prod.fst).Nodup := by
  have hn : (L.accepted.map Prod.fst).Nodup := h.sorted.imp fun h => Nat.ne_of_lt h
  rw [h.kept]
  exact hn.sublist (List.filter_sublist.map _)

theorem Ok.refuse {L : Ledger V} {stored : List (Item V)} (h : L.Ok stored) :
    L.refuse.Ok stored :=
  ⟨h.sorted, fun x hx => Nat.lt_succ_of_lt (h.below x hx), h.source, h.kept⟩

theorem Ok.accept {L : Ledger V} {stored : List (Item V)} (h : L.Ok stored) (v : V) :
    (L.accept v).Ok (stored ++ [(L.next, v)]) := by
  have hnew : hasTicket L.dropped (L.next, v) = false := by
    rw [Bool.eq_false_iff]
    intro hd
    obtain ⟨y, hy, he⟩ := hasTicket_iff.mp hd
    exact absurd he (Nat.ne_of_lt (h.below y (h.source y hy)))
  refine ⟨?_, fun x hx => ?_, fun x hx => List.mem_append_left _ (h.source x hx), ?_⟩
  · simp only [Ledger.accept, List.map_append, List.map_cons, List.map_nil, List.pairwise_append]
    refine ⟨h.sorted, List.pairwise_singleton _ _, fun a ha b hb => ?_⟩
    obtain ⟨x, hx, rfl⟩ := List.mem_map.mp ha
    rw [List.mem_singleton.mp hb]
    exact h.below x hx
  · rcases List.mem_append.mp hx with hx | hx
    · exact Nat.lt_succ_of_lt (h.below x hx)
    · rw [List.mem_singleton.mp hx]
      exact Nat.lt_succ_self _
  · have hk := h.kept
    simp only [Ledger.kept, Ledger.accept, List.filter_append, List.filter_cons, hnew,
      Bool.not_false, if_true, List.filter_nil] at hk ⊢
    rw [← List.append_assoc, hk]

theorem Ok.take {L : Ledger V} {x : Item V} {stored : List (Item V)} (h : L.Ok (x :: stored)) :
    (L.take x).Ok stored := by
  refine ⟨h.sorted, h.below, h.source, ?_⟩
  have hk := h.kept
  simp only [Ledger.kept, Ledger.take, List.append_assoc, List.singleton_append] at hk ⊢
  exact hk

/-- A value that enters an empty store and leaves it in the same step. -/
theorem Ok.accept_take {L : Ledger V} (h : L.Ok []) (v : V) :
    ((L.accept v).take (L.next, v)).Ok [] := (h.accept v).take

theorem Ok.drop {L : Ledger V} {stored : List (Item V)} (h : L.Ok stored) :
    (L.drop stored).Ok [] := by
  have hn := h.tickets
  rw [List.map_append, List.nodup_append] at hn
  refine ⟨h.sorted, h.below, fun x hx => ?_, ?_⟩
  · rcases List.mem_append.mp hx with hx | hx
    · exact h.source x hx
    · have : x ∈ L.kept := by
        rw [← h.kept]
        exact List.mem_append_right _ hx
      exact (List.mem_filter.mp this).1
  · -- The kept values before, without those of the store.
    have hfilter : (L.drop stored).kept = L.kept.filter fun x => !hasTicket stored x := by
      simp only [Ledger.kept, Ledger.drop, List.filter_filter]
      refine List.filter_congr fun x _ => ?_
      rw [hasTicket_append, Bool.not_or, Bool.and_comm]
    have htaken : L.taken.filter (fun x => !hasTicket stored x) = L.taken := by
      refine List.filter_eq_self.mpr fun x hx => ?_
      rw [Bool.not_eq_true', Bool.eq_false_iff]
      intro hs
      obtain ⟨y, hy, he⟩ := hasTicket_iff.mp hs
      exact hn.2.2 x.1 (List.mem_map.mpr ⟨x, hx, rfl⟩) x.1 (List.mem_map.mpr ⟨y, hy, he⟩) rfl
    have hstored : stored.filter (fun x => !hasTicket stored x) = [] := by
      refine List.filter_eq_nil_iff.mpr fun x hx => ?_
      have : hasTicket stored x = true := hasTicket_iff.mpr ⟨x, hx, rfl⟩
      simp [this]
    rw [hfilter, ← h.kept, List.filter_append, htaken, hstored]
    rfl

end Ledger

end Conc
