import Corsl.Cancel.Connected

/-!
# The forest of sources

A body is a related body of its parent only, and is made after it:

* `Forest`: the related bodies of a body are its children, and so are those that a call of `cancel`
  still goes through.
* `Ranked`: the bodies have ranks, with parents below their children and a bound on all of them. So
  no chain of nested calls comes back to a body, and none is endless.
-/

namespace Corsl

open Conc Function

namespace Cancel

variable {s s' : St}

/-- The related bodies are children (module doc). -/
structure Forest (s : St) : Prop where
  related : ∀ b, ∀ c ∈ (s.bodies b).related, (s.bodies c).parent = some b
  todo : ∀ k, ∀ c ∈ (s.calls k).pc.relatedTodo, (s.bodies c).parent = some (s.calls k).body

theorem Forest.init : Forest ({} : St) := by
  constructor <;> simp [CancelPc.relatedTodo]

theorem Forest.source {e : Ev} (h : Forest s) (hi : Inv s) (hm : SourceMove s e s') :
    Forest s' := by
  have hb := hi.born.body
  have hr := hi.born.related
  have ht := hi.born.todo
  obtain ⟨h1, h2⟩ := h
  cases hm with
  | link b c _ _ _ => simp only [Body.addRelated]; constructor <;> grind -linarith
  | _ => constructor <;> grind -linarith

theorem Forest.call {k : Nat} (h : Forest s) (hm : CallMove s k (s.calls k).body s') :
    Forest s' := by
  have hf := hm.frame
  have hrelated : ∀ b, ∀ c ∈ (s'.bodies b).related, c ∈ (s.bodies b).related := by
    have key := fun (b c : Nat) (v : Body) => update_rel (m := s.bodies) (i := c) (v := v) (j := b)
      (r := fun b b' => ∀ c ∈ b'.related, c ∈ b.related) (fun _ _ h => h)
    intro b
    cases hm with
    | again => exact key b _ _ fun _ h => h
    | enter => exact key b _ _ fun _ h => h
    | relatedDone => exact key b _ _ nofun
    | nestedDone => exact key b _ _ fun _ h => h
    | _ => exact fun _ h => h
  have htodo : ∀ c ∈ (s'.calls k).pc.relatedTodo,
      c ∈ (s.calls k).pc.relatedTodo ∨ c ∈ (s.bodies (s.calls k).body).related := by
    cases hm <;> simp_all [St.goto, St.leave, CancelPc.relatedTodo]
  refine ⟨fun b c hc => ?_, fun k' c hc => ?_⟩
  · rw [hf.parent]
    exact h.related b c (hrelated b c hc)
  · rw [hf.parent]
    by_cases hk : k' = k
    · subst hk
      rw [hf.callBody]
      exact (htodo c hc).elim (h.todo k' c) (h.related _ c)
    · rw [hf.other k' hk] at hc ⊢
      exact h.todo k' c hc

theorem Forest.move {e : Ev} (h : Forest s) (hi : Inv s) (hm : Move s e s') : Forest s' := by
  cases hm with
  | source hm => exact h.source hi hm
  | token hm =>
    have hf := hm.frame
    refine ⟨fun b c hc => ?_, fun k c hc => ?_⟩
    · rw [hf.related] at hc
      rw [hf.parent]
      exact h.related b c hc
    · rw [hf.calls] at hc ⊢
      rw [hf.parent]
      exact h.todo k c hc
  | sub hm =>
    have hf := hm.frame
    exact ⟨hf.bodies ▸ h.related, hf.bodies ▸ hf.calls ▸ h.todo⟩
  | call k _ hm => exact h.call hm

theorem reach_forest (h : sys.Reach s) : Forest s :=
  h.rec_on (fun _ h => reach_inv h) .init fun _ _ _ hi h _ hst => h.move hi (step_move hst)

/-! ## Ranks -/

/-- Ranks `r` of the bodies, all below `n` (module doc). -/
structure RankedBy (s : St) (r : Nat → Nat) (n : Nat) : Prop where
  below : ∀ b, (s.bodies b).phase ≠ .unborn → r b < n
  parent : ∀ b c, (s.bodies c).parent = some b → r b < r c

/-- The bodies have ranks. -/
def Ranked (s : St) : Prop := ∃ r n, RankedBy s r n

theorem RankedBy.keep {r : Nat → Nat} {n : Nat} (h : RankedBy s r n)
    (hphase : ∀ b, (s'.bodies b).phase ≠ .unborn → (s.bodies b).phase ≠ .unborn)
    (hparent : ∀ b, (s'.bodies b).parent = (s.bodies b).parent) : RankedBy s' r n :=
  ⟨fun b hb => h.below b (hphase b hb), fun b c hc => h.parent b c (hparent c ▸ hc)⟩

/-- A new body gets the highest rank. -/
theorem RankedBy.new {r : Nat → Nat} {n c : Nat} (h : RankedBy s r n) (hi : Inv s)
    (hc : (s.bodies c).phase = .unborn)
    (hphase : ∀ b, b ≠ c → (s'.bodies b).phase = (s.bodies b).phase)
    (hparent : ∀ b, b ≠ c → (s'.bodies b).parent = (s.bodies b).parent)
    (hnew : ∀ b, (s'.bodies c).parent = some b → (s.bodies b).phase ≠ .unborn) :
    RankedBy s' (update r c n) (n + 1) := by
  -- the new body is nobody's parent
  have hne : ∀ b d, (s.bodies d).parent = some b → b ≠ c := by
    rintro b d hd rfl
    rw [hi.born.parent b d hd] at hc
    cases hc
  refine ⟨fun b hb => ?_, fun b d hd => ?_⟩
  · by_cases hbc : b = c
    · rw [hbc, update_self]; omega
    · rw [update_of_ne hbc]
      have := h.below b (hphase b hbc ▸ hb)
      omega
  · by_cases hdc : d = c
    · subst hdc
      have hb := hnew b hd
      have hbd : b ≠ d := fun hbd => hb (hbd ▸ hc)
      rw [update_self, update_of_ne hbd]
      exact h.below b hb
    · rw [hparent d hdc] at hd
      rw [update_of_ne hdc, update_of_ne (hne b d hd)]
      exact h.parent b d hd

theorem Ranked.source {e : Ev} (h : Ranked s) (hi : Inv s) (hm : SourceMove s e s') :
    Ranked s' := by
  obtain ⟨r, n, h⟩ := h
  cases hm with
  | newSource b hp =>
    refine ⟨_, _, h.new hi hp (fun x hx => ?_) (fun x hx => ?_) fun x hx => ?_⟩
    · simp [hx]
    · simp [hx]
    · simp at hx
  | connect b c hp hr hc hne =>
    refine ⟨_, _, h.new hi hc (fun x hx => ?_) (fun x hx => ?_) fun x hx => ?_⟩
    · grind -linarith
    · grind -linarith
    · simp only [update_self, Option.some.injEq] at hx
      rw [← hx, hp]
      nofun
  | link b c hp hb hl =>
    simp only [Body.addRelated]
    exact ⟨r, n, h.keep (by grind -linarith) (by grind -linarith)⟩
  | _ => exact ⟨r, n, h.keep (by grind -linarith) (by grind -linarith)⟩

theorem Ranked.move {e : Ev} (h : Ranked s) (hi : Inv s) (hm : Move s e s') : Ranked s' := by
  cases hm with
  | source hm => exact h.source hi hm
  | token hm =>
    obtain ⟨r, n, h⟩ := h
    exact ⟨r, n, h.keep (fun b hb => hm.frame.phase b ▸ hb) hm.frame.parent⟩
  | sub hm =>
    obtain ⟨r, n, h⟩ := h
    have hf := hm.frame.bodies
    exact ⟨r, n, h.keep (fun b hb => hf ▸ hb) fun b => by rw [hf]⟩
  | call k _ hm =>
    obtain ⟨r, n, h⟩ := h
    exact ⟨r, n, h.keep (fun b hb => hm.frame.phase b ▸ hb) hm.frame.parent⟩

theorem reach_ranked (h : sys.Reach s) : Ranked s :=
  h.rec_on (fun _ h => reach_inv h) ⟨fun _ => 0, 0, fun _ hb => absurd rfl hb, nofun⟩
    fun _ _ _ hi h _ hst => h.move hi (step_move hst)

end Cancel

end Corsl
