import Corsl.Conc.Ends
import Corsl.Conc.Waiting
import Corsl.Coroutine.Ideal
import Mathlib.Logic.Hydra

/-!
# Where a program over ideal futures ends

Every program comes to exactly one end, in every schedule (`final_unique`, `final_exists`). With a
step a body becomes a smaller one, or two (`Next`), so the bodies of all coroutines are a hydra that
loses a head with each step.

At the end a coroutine has ended, or it waits. Who waits there waits along a chain of futures that
runs into a circle, or leads to a future that nobody completes (`Asks.circle`).
-/

namespace Corsl

open Conc Function Relation

namespace Coroutine

namespace Ideal

variable {V : Type} {main b b' : Body V} {s s' t t' : St V} {c f : Id}

/-! ## Every run comes to an end -/

/-- A coroutine goes from `b` to `b'`, or calls `b'`. -/
inductive Next : Body V → Body V → Prop
  | ask {b : Body V} {f : Id} (o : Outcome V) : b.future = some f → Next (b.resume o) b
  | callee (body : Body V) (rest : Id → Body V) : Next body (.call body rest)
  | rest (body : Body V) (rest : Id → Body V) (f : Id) : Next (rest f) (.call body rest)

theorem acc_ask (hf : b.future = some f) (h : ∀ o, Acc Next (b.resume o)) : Acc Next b := by
  refine ⟨_, fun b' hb => ?_⟩
  cases hb with
  | ask o => exact h o
  | callee body rest => cases hf
  | rest body rest g => cases hf

theorem next_wf : WellFounded (Next (V := V)) := by
  refine ⟨fun b => ?_⟩
  induction b with
  | ret o =>
    refine ⟨_, fun b' hb => ?_⟩
    cases hb with
    | ask o hf => cases hf
  | coAwait f rest ih => exact acc_ask rfl ih
  | get f rest ih => exact acc_ask rfl ih
  | wait f rest ih => exact acc_ask rfl fun _ => ih
  | call body rest ih ih' =>
    refine ⟨_, fun b' hb => ?_⟩
    cases hb with
    | ask o hf => cases hf
    | callee => exact ih
    | rest _ _ g => exact ih' g

theorem Next.ne (h : Next b' b) : b' ≠ b := by
  rintro rfl
  exact next_wf.asymmetric _ _ h h

/-- The heads of the hydra. -/
def work (s : St V) (c : Id) : Multiset (Body V) :=
  match s.body c with
  | none => 0
  | some b => {b}

theorem work_some (h : s.body c = some b) : work s c = {b} := by simp [work, h]

theorem work_none (h : s.body c = none) : work s c = 0 := by simp [work, h]

theorem work_eq (h : s'.body c = s.body c) : work s' c = work s c := by simp only [work, h]

/-- A step cuts a head off, and leaves smaller ones. -/
theorem Move.cut (hm : Move s c s') (h : Fresh s) (hs : (support (work s)).Finite) :
    (support (work s')).Finite ∧ CutExpand Next (finsum (work s')) (finsum (work s)) := by
  cases hm with
  | ret o hb =>
    obtain ⟨hf, hsum⟩ := finsum_change (work { s with
      body := update s.body c none, store := s.store.finish c o }) hs {c} fun d hd =>
        work_eq (update_of_ne (by simpa using hd) _ _)
    rw [Finset.sum_singleton, Finset.sum_singleton, work_some hb, work_none (update_self ..)]
      at hsum
    exact ⟨hf, 0, .ret o, by simp, hsum⟩
  | ask b f o hb hf ho =>
    obtain ⟨hfin, hsum⟩ := finsum_change (work { s with
      body := update s.body c (some (b.resume o)), store := s.store.ask f }) hs {c} fun d hd =>
        work_eq (update_of_ne (by simpa using hd) _ _)
    rw [Finset.sum_singleton, Finset.sum_singleton, work_some hb, work_some (update_self ..)]
      at hsum
    exact ⟨hfin, {b.resume o}, b, by simpa using .ask o hf, hsum⟩
  | call body rest hb =>
    have hchild := (h.child c _ le_rfl).1
    generalize s.calls c :: c = d at *
    have hcd : c ≠ d := fun he => by simp [← he, hb] at hchild
    obtain ⟨hfin, hsum⟩ := finsum_change (work { s with
      body := update (update s.body c (some (rest d))) d (some body)
      calls := update s.calls c (s.calls c + 1) }) hs {c, d} fun e he => by
        simp only [Finset.mem_insert, Finset.mem_singleton, not_or] at he
        exact work_eq ((update_of_ne he.2 _ _).trans (update_of_ne he.1 _ _))
    rw [Finset.sum_pair hcd, Finset.sum_pair hcd, work_some hb, work_none hchild,
      work_some (b := rest d) ((update_of_ne hcd _ _).trans (update_self ..)),
      work_some (b := body) (update_self ..), add_zero] at hsum
    refine ⟨hfin, {rest d} + {body}, .call body rest, fun b' hb' => ?_, hsum⟩
    obtain hb' | hb' := Multiset.mem_add.mp hb'
    · rw [Multiset.mem_singleton.mp hb']
      exact .rest body rest d
    · rw [Multiset.mem_singleton.mp hb']
      exact .callee body rest

theorem terminates (h : Fresh s) (hs : (support (work s)).Finite) : (sys main).Terminates s := by
  induction hm : finsum (work s) using next_wf.cutExpand.induction generalizing s with
  | _ m ih =>
    refine ⟨_, fun s' ⟨c, hst⟩ => ?_⟩
    have hmove := step_move hst
    obtain ⟨hs', hcut⟩ := hmove.cut h hs
    exact ih _ (hm ▸ hcut) (h.move hmove) hs' rfl

theorem init_finite (main : Body V) : (support (work (sys main).init)).Finite := by
  refine (Set.finite_singleton []).subset fun c hc => ?_
  by_contra hne
  exact hc (work_none (by simp [sys, update_of_ne hne]))

theorem reach_terminates (h : (sys main).Reach s) : (sys main).Terminates s := by
  induction h with
  | init => exact terminates (.init main) (init_finite main)
  | step c _ _ hst ih => exact ih.step hst

theorem Move.body_ne (hm : Move s c s') : s'.body c ≠ s.body c := by
  cases hm with
  | ret o hb => simp [hb]
  | ask b f o hb hf ho => simpa [hb] using (Next.ask o hf).ne
  | call body rest hb =>
    have hne : c ≠ s.calls c :: c := (List.cons_ne_self _ _).symm
    simpa [hb, update_of_ne hne] using (Next.rest body rest (s.calls c :: c)).ne

/-! ## The end -/

/-- The program can come to `t`, and nothing goes on there. -/
structure Final (main : Body V) (t : St V) : Prop where
  run : ∃ es, (sys main).exec (sys main).init es = some t
  stuck : (sys main).Stuck t

theorem final_exists (main : Body V) : ∃ t, Final main t := by
  obtain ⟨es, t, he, ht⟩ := (terminates (.init main) (init_finite main)).stuck
  exact ⟨t, ⟨es, he⟩, ht⟩

theorem final_unique (h : Final main t) (h' : Final main t') : t = t' := by
  obtain ⟨es, he⟩ := h.run
  obtain ⟨es', he'⟩ := h'.run
  exact (diamond main).end_unique (.init main) he h.stuck he' h'.stuck

theorem Final.towards (h : Final main t) (ho : Once t) : Towards main t (sys main).init :=
  ⟨.init main, h.run, h.stuck, ho⟩

theorem Final.finite (h : Final main t) : (support (work t)).Finite := by
  obtain ⟨es, he⟩ := h.run
  exact (Sys.exec_keep (S := sys main) (I := fun s => Fresh s ∧ (support (work s)).Finite)
    (fun _ _ _ ⟨hf, hs⟩ hst => ⟨hf.move (step_move hst), ((step_move hst).cut hf hs).1⟩)
    ⟨.init main, init_finite main⟩ he).2

/-- Who has not ended waits. -/
theorem Stuck.asks (h : (sys main).Stuck t) (hb : t.body c = some b) : ∃ f, t.Asks c f := by
  have hst : step t c = none := h c
  cases b with
  | ret o => simp [step, hb] at hst
  | call body rest => simp [step, hb] at hst
  | coAwait f rest => exact ⟨f, _, hb, rfl⟩
  | get f rest => exact ⟨f, _, hb, rfl⟩
  | wait f rest => exact ⟨f, _, hb, rfl⟩

theorem asks_iff_future : t.Asks c f ↔ (t.body c).bind Body.future = some f := by
  simp [St.Asks, Option.bind_eq_some_iff]

/-- Who waits at the end waits for a circle, or for a future that nobody completes. -/
theorem Asks.circle (h : Final main t) (ha : t.Asks c f) :
    (∃ d, ReflTransGen t.Asks c d ∧ TransGen t.Asks d d) ∨
      ∃ d, TransGen t.Asks c d ∧ t.body d = none ∧ t.store.out d = none := by
  by_contra hn
  simp only [not_or, not_exists, not_and] at hn
  obtain ⟨hcircle, hnobody⟩ := hn
  -- what `c` waits for, along chains of futures
  let R : Id → Id → Prop := fun a b => ReflTransGen t.Asks c a ∧ t.Asks a b
  let T : Set Id := support (work t) ∪ {f | ∃ a ∈ support (work t), t.Asks a f}
  have hlive : ∀ a b, t.Asks a b → a ∈ support (work t) := by
    rintro a b ⟨d, hd, -⟩
    simp [work_some hd]
  have hT : T.Finite := by
    refine h.finite.union ((h.finite.biUnion (t := fun a => {f | t.Asks a f}) fun a _ => ?_).subset
      fun f ⟨a, ha, hf⟩ => Set.mem_biUnion ha hf)
    refine (Set.finite_singleton (((t.body a).bind Body.future).getD [])).subset fun f hf => ?_
    simp [asks_iff_future.mp hf]
  have hac : ∀ a, ¬TransGen R a a := by
    intro a haa
    obtain ⟨b, hab, -⟩ := TransGen.head'_iff.mp haa
    exact hcircle a hab.1 (TransGen.mono (fun _ _ hr => hr.2) _ _ haa)
  obtain ⟨d, hdT, hcd, hlast⟩ := exists_unblocked hT hac
    (fun a _ b hab => .inr ⟨a, hlive a b hab.2, hab.2⟩) (a := c) (.inl (hlive c f ha))
  have hreach : ReflTransGen t.Asks c d := ReflTransGen.mono (fun _ _ hr => hr.2) _ _ hcd
  have hnone : t.body d = none := by
    by_contra hd
    obtain ⟨b, hb⟩ := Option.ne_none_iff_exists'.mp hd
    obtain ⟨g, hg⟩ := Stuck.asks h.stuck hb
    exact hlast g ⟨hreach, hg⟩
  obtain rfl | ⟨a, hca, had⟩ := ReflTransGen.cases_tail hreach
  · exact hlast f ⟨.refl, ha⟩
  · exact hnobody d (.tail' hca had) hnone (Asks.unset h.stuck had)

end Ideal

end Coroutine

end Corsl
