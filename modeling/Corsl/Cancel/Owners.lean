import Corsl.Cancel.Connected

/-!
# Who shares a body

`Lent`: the `shared_ptr`s to a body that tokens and calls of `cancel` have. A token shares its body
until it is released; a call shares its own body, once, until it returns (an outer call) or until
its caller goes on (a nested one). When no call is in progress, none shares a body (`Lent.quiet`).
-/

namespace Corsl

open Conc Function

namespace Cancel

/-- The token has its `shared_ptr`. -/
@[grind =] def TokenPhase.shares : TokenPhase → Bool
  | .begun | .read | .checked | .live | .removed => true
  | .unborn | .gone | .threw => false

/-- The `shared_ptr` is not one of a call. -/
def Ref.isHeld : Ref → Bool
  | .call _ => false
  | .source | .token _ | .connect _ => true

/-- The owners of the bodies (module doc). -/
structure Lent (s : St) : Prop where
  token : ∀ t, (s.tokens t).phase.shares → .token t ∈ (s.bodies (s.tokens t).body).refs
  born : ∀ b k, .call k ∈ (s.bodies b).refs → (s.calls k).pc ≠ .unborn
  body : ∀ b k, .call k ∈ (s.bodies b).refs → (s.calls k).body = b
  outer : ∀ b k, .call k ∈ (s.bodies b).refs → (s.calls k).outer = true → (s.calls k).pc ≠ .done
  nested : ∀ b k, .call k ∈ (s.bodies b).refs → (s.calls k).outer = false →
    ∃ k' todo, (s.calls k').pc = .nested b k todo
  once : ∀ b k, (s.bodies b).refs.count (.call k) ≤ 1

variable {s s' : St}

theorem Lent.init : Lent ({} : St) := by
  constructor <;> simp [TokenPhase.shares]

theorem not_mem_erase_of_count {l : List Ref} {a : Ref} (h : l.count a ≤ 1) : a ∉ l.erase a := by
  rw [← List.count_eq_zero, List.count_erase_self]
  omega

theorem held_erase (l : List Ref) (k : Nat) :
    (l.erase (.call k)).filter Ref.isHeld = l.filter Ref.isHeld := by
  induction l with
  | nil => rfl
  | cons r l ih =>
    rw [List.erase_cons]
    split
    · rename_i hr
      rw [List.filter_cons_of_neg]
      simp [eq_of_beq hr, Ref.isHeld]
    · rw [List.filter_cons, List.filter_cons, ih]

/-- The owners of each body are a part of those before, and a new one that is no call. -/
theorem once_keep (h : ∀ b k, (s.bodies b).refs.count (.call k) ≤ 1)
    (hr : ∀ b, (s'.bodies b).refs.Sublist (s.bodies b).refs ∨
      ∃ r, r.isHeld ∧ (s'.bodies b).refs = r :: (s.bodies b).refs) (b k : Nat) :
    (s'.bodies b).refs.count (.call k) ≤ 1 := by
  rcases hr b with hr | ⟨r, hr, heq⟩
  · exact Nat.le_trans (hr.count_le _) (h b k)
  · rw [heq, List.count_cons_of_ne]
    · exact h b k
    · rintro rfl
      cases hr

theorem Lent.source {e : Ev} (h : Lent s) (hi : Inv s) (hch : Children s)
    (hm : SourceMove s e s') : Lent s' := by
  have hb := hi.born.body
  have htok := hi.born.tokenBody
  have hn := hch.nested
  obtain ⟨h1, h2, h3, h4, h5, h6⟩ := h
  cases hm with
  | newSource b hp => constructor <;> grind -linarith
  | copySource b hp hr => constructor <;> grind -linarith
  | dropSource b hp => constructor <;> grind -linarith
  | connect b c hp hr hc hne => constructor <;> grind -linarith
  | link b c hc hpar hl => simp only [Body.addRelated]; constructor <;> grind -linarith
  | cancel b k hp hr hk =>
    have hnew : ∀ b, (s.bodies b).refs.count (.call k) = 0 := fun b =>
      List.count_eq_zero.mpr fun hmem => h2 b k hmem hk
    refine ⟨?_, ?_, ?_, ?_, fun b' x hx ho => ?_, ?_⟩
    case refine_5 =>
      have hxk : x ≠ k := by
        rintro rfl
        simp at ho
      obtain ⟨w, todo, hw⟩ := h5 b' x (by grind -linarith) (by simpa [hxk] using ho)
      have hwk : w ≠ k := fun he => by rw [he, hk] at hw; cases hw
      exact ⟨w, todo, by simpa [hwk] using hw⟩
    all_goals grind -linarith
  | nest k k' c todo hpc hr hk' hne =>
    have hnew : ∀ b, (s.bodies b).refs.count (.call k') = 0 := fun b =>
      List.count_eq_zero.mpr fun hmem => h2 b k' hmem hk'
    refine ⟨?_, ?_, ?_, ?_, fun b' x hx ho => ?_, ?_⟩
    case refine_5 =>
      by_cases hxk' : x = k'
      · -- the new call, which `k` waits for
        subst hxk'
        have hb' : b' = c := by
          by_contra hne'
          exact List.count_eq_zero.mp (hnew b') (by simpa [hne'] using hx)
        exact ⟨k, todo, by simp [hne, hb']⟩
      · obtain ⟨w, rest, hw⟩ := h5 b' x (by grind -linarith) (by grind -linarith)
        have hwk : w ≠ k := fun he => by rw [he, hpc] at hw; cases hw
        have hwk' : w ≠ k' := fun he => by rw [he, hk'] at hw; cases hw
        exact ⟨w, rest, by simpa [hwk, hwk'] using hw⟩
    all_goals grind -linarith

theorem Lent.token_move {e : Ev} (h : Lent s) (hi : Inv s) (hm : TokenMove s e s') : Lent s' := by
  have hb := hi.born.body
  obtain ⟨h1, h2, h3, h4, h5, h6⟩ := h
  cases hm <;> simp only [Body.addToken, Body.removeToken] <;> constructor <;> grind -linarith

/-- What a step of call `k` does to the owners: they are a part of those before. A call that returns
shares its body no more, nor does a nested one after its caller has gone on. -/
theorem CallMove.refs {k : Nat} (hm : CallMove s k (s.calls k).body s') :
    (∀ b, (s'.bodies b).refs.Sublist (s.bodies b).refs) ∧
    ((s'.calls k).pc = .done → (s.calls k).outer = true →
      (s'.bodies (s.calls k).body).refs = (s.bodies (s.calls k).body).refs.erase (.call k)) ∧
    ∀ b k' todo, (s.calls k).pc = .nested b k' todo →
      (s'.bodies b).refs = (s.bodies b).refs.erase (.call k') := by
  have key := fun (b c : Nat) (v : Body) => update_rel (m := s.bodies) (i := c) (v := v) (j := b)
    (r := fun b b' => b'.refs.Sublist b.refs) (fun _ => .refl _)
  have hleave : ∀ l : List Ref,
      (if (s.calls k).outer = true then l.erase (.call k) else l).Sublist l := by
    intro l
    split
    · exact List.erase_sublist
    · exact .refl l
  refine ⟨fun b => ?_, fun hd ho => ?_, fun b k' todo hpc => ?_⟩
  · cases hm with
    | again => exact key b _ _ (hleave _)
    | relatedDone => exact key b _ _ (hleave _)
    | enter => exact key b _ _ (.refl _)
    | nestedDone => exact key b _ _ List.erase_sublist
    | _ => exact .refl _
  · cases hm <;> simp_all [St.goto, St.leave]
  · cases hm <;> simp_all

/-- The owners that are no calls stay. -/
theorem CallMove.held {k : Nat} (hm : CallMove s k (s.calls k).body s') (b : Nat) :
    (s'.bodies b).refs.filter Ref.isHeld = (s.bodies b).refs.filter Ref.isHeld := by
  have key := fun (c : Nat) (v : Body) => update_rel (m := s.bodies) (i := c) (v := v) (j := b)
    (r := fun b b' => b'.refs.filter Ref.isHeld = b.refs.filter Ref.isHeld) (fun _ => rfl)
  have hleave : ∀ l : List Ref,
      (if (s.calls k).outer = true then l.erase (.call k) else l).filter Ref.isHeld =
        l.filter Ref.isHeld := by
    intro l
    split
    · exact held_erase l k
    · rfl
  cases hm with
  | again => exact key _ _ (hleave _)
  | relatedDone => exact key _ _ (hleave _)
  | enter => exact key _ _ rfl
  | nestedDone c k' => exact key _ _ (held_erase _ k')
  | _ => rfl

theorem mem_held {l l' : List Ref} (h : l'.filter Ref.isHeld = l.filter Ref.isHeld) {r : Ref}
    (hr : r.isHeld) : r ∈ l' ↔ r ∈ l := by
  have := congrArg (r ∈ ·) h
  simpa [hr] using this

theorem Lent.call_move {k : Nat} (h : Lent s) (hm : CallMove s k (s.calls k).body s') :
    Lent s' := by
  have hf := hm.frame
  obtain ⟨hsub, hdone, hnested⟩ := hm.refs
  have hmem : ∀ b k', .call k' ∈ (s'.bodies b).refs → .call k' ∈ (s.bodies b).refs :=
    fun b k' hk => (hsub b).subset hk
  have hgone : ∀ b k', (s'.bodies b).refs = (s.bodies b).refs.erase (.call k') →
      .call k' ∉ (s'.bodies b).refs := fun b k' he => he ▸ not_mem_erase_of_count (h.once b k')
  have hbody : ∀ k', (s'.calls k').body = (s.calls k').body ∧
      (s'.calls k').outer = (s.calls k').outer := fun k' => by
    by_cases hk : k' = k
    · rw [hk]
      exact ⟨hf.callBody, hm.outer⟩
    · rw [hf.other k' hk]
      exact ⟨rfl, rfl⟩
  refine ⟨fun t ht => ?_, fun b k' hk => ?_, fun b k' hk => ?_, fun b k' hk ho hd => ?_,
    fun b k' hk ho => ?_, once_keep h.once fun b => .inl (hsub b)⟩
  · rw [hf.tokenPhase] at ht
    rw [hf.tokenBody, mem_held (hm.held _) rfl]
    exact h.token t ht
  · by_cases hkk : k' = k
    · rw [hkk]
      exact hm.entered.1
    · rw [hf.other k' hkk]
      exact h.born b k' (hmem b k' hk)
  · rw [(hbody k').1]
    exact h.body b k' (hmem b k' hk)
  · rw [(hbody k').2] at ho
    by_cases hkk : k' = k
    · subst hkk
      have hb := h.body b k' (hmem b k' hk)
      exact hgone b k' (hb ▸ hdone hd ho) hk
    · rw [hf.other k' hkk] at hd
      exact h.outer b k' (hmem b k' hk) ho hd
  · rw [(hbody k').2] at ho
    obtain ⟨k₁, todo, hpc⟩ := h.nested b k' (hmem b k' hk) ho
    by_cases hkk : k₁ = k
    · subst hkk
      exact absurd hk (hgone b k' (hnested b k' todo hpc))
    · exact ⟨k₁, todo, by rw [hf.other k₁ hkk]; exact hpc⟩

theorem Lent.move {e : Ev} (h : Lent s) (hi : Inv s) (hch : Children s) (hm : Move s e s') :
    Lent s' := by
  cases hm with
  | source hm => exact h.source hi hch hm
  | token hm => exact h.token_move hi hm
  | sub hm =>
    have hf := hm.frame
    refine ⟨fun t ht => ?_, ?_, ?_, ?_, ?_, ?_⟩
    · rw [hf.phase] at ht
      rw [hf.bodies, hf.body]
      exact h.token t ht
    all_goals simp only [hf.bodies, hf.calls]
    · exact h.born
    · exact h.body
    · exact h.outer
    · exact h.nested
    · exact h.once
  | call k _ hm => exact h.call_move hm

theorem reach_lent (h : sys.Reach s) : Lent s := by
  refine h.rec_on (I := fun s => Inv s ∧ Children s)
    (fun _ h => ⟨reach_inv h, reach_children h⟩) .init ?_
  exact fun _ _ _ hi h _ hst => h.move hi.1 hi.2 (step_move hst)

/-- When no call is in progress, none shares a body. -/
theorem Lent.quiet (h : Lent s) (hq : Quiet s) (b : Nat) :
    (s.bodies b).refs.filter Ref.isHeld = (s.bodies b).refs := by
  refine List.filter_eq_self.mpr fun r hr => ?_
  cases r with
  | call k =>
    have hd := (hq k).resolve_left (h.born b k hr)
    cases ho : (s.calls k).outer with
    | true => exact absurd hd (h.outer b k hr ho)
    | false =>
      obtain ⟨k', todo, hpc⟩ := h.nested b k hr ho
      rcases hq k' with hk | hk <;> rw [hk] at hpc <;> cases hpc
  | _ => rfl

end Cancel

end Corsl
