import Corsl.Cancel.Threading
import Corsl.Conc.History

/-!
# What a call of `cancel` visits

A call goes through the tokens of its body, and calls `cancel` on the related bodies, the calls that
it nests:

* `Nesting`: a body is a related body of one list, once, and a call takes it off its list when it
  nests the call on it. So no two nested calls are on one body.
* `visits`: what the steps of a thread visit, with the outer call that they are part of.
* `Visited`: the visits of a run. None of them is repeated.
-/

namespace Corsl

open Conc Function

namespace Cancel

/-- The related bodies that the call may still nest, of all those of its body. -/
@[grind =] def CancelPc.toNest : CancelPc → List Nat → List Nat
  | .tokens _, all | .promise _ _, all | .callbacks _ _ _, all | .submit _ _ _ _, all => all
  | .related todo, _ | .nested _ _ todo, _ => todo
  | .unborn, _ | .enter, _ | .done, _ => []

/-- The related bodies of `b` on which a call may still be nested. -/
def toNest (s : St) (b : Nat) : List Nat :=
  match (s.bodies b).lock with
  | some k => (s.calls k).pc.toNest (s.bodies b).related
  | none => if (s.bodies b).cancelled then [] else (s.bodies b).related

/-- Call `k` is a nested call on body `b`. -/
def IsNested (s : St) (k b : Nat) : Prop :=
  (s.calls k).pc ≠ .unborn ∧ (s.calls k).outer = false ∧ (s.calls k).body = b

/-- The nested calls (module doc). -/
structure Nesting (s : St) : Prop where
  fresh : ∀ b, ∀ c ∈ toNest s b, ∀ k, ¬IsNested s k c
  nodup : ∀ b, (toNest s b).Nodup
  once : ∀ k k' b, IsNested s k b → IsNested s k' b → k = k'
  inner : ∀ k c k' todo, (s.calls k).pc = .nested c k' todo → (s.calls k').outer = false

section Nesting

variable {s s' : St}

theorem toNest_eq {b : Nat} (hl : (s'.bodies b).lock = (s.bodies b).lock)
    (hr : (s'.bodies b).related = (s.bodies b).related)
    (hc : (s'.bodies b).cancelled = (s.bodies b).cancelled)
    (hk : ∀ k, (s.bodies b).lock = some k → (s'.calls k).pc = (s.calls k).pc) :
    toNest s' b = toNest s b := by
  unfold toNest
  rw [hl, hr, hc]
  split
  · rename_i k hlk
    rw [hk k hlk]
  · rfl

/-- What may still be nested on body `b` is a child of `b`. -/
theorem Forest.toNest (h : Forest s) (hi : Inv s) {b c : Nat} (hc : c ∈ toNest s b) :
    (s.bodies c).parent = some b := by
  unfold Cancel.toNest at hc
  split at hc
  · rename_i k hl
    have hb := ((hi.locks.holder b k).mp hl).1
    have hmem : c ∈ (s.bodies b).related ∨ c ∈ (s.calls k).pc.relatedTodo := by
      cases hpc : (s.calls k).pc <;>
        simp_all [CancelPc.toNest, CancelPc.relatedTodo]
    rcases hmem with hmem | hmem
    · exact h.related b c hmem
    · rw [← hb]
      exact h.todo k c hmem
  · split at hc
    · cases hc
    · exact h.related b c hc

/-- No list grows, and no call is nested. -/
theorem Nesting.keep (h : Nesting s) (hn : ∀ b, (toNest s' b).Sublist (toNest s b))
    (hi : ∀ k b, IsNested s' k b → IsNested s k b)
    (hinner : ∀ k c k' todo, (s'.calls k).pc = .nested c k' todo → (s'.calls k').outer = false) :
    Nesting s' where
  fresh b c hc k hk := h.fresh b c ((hn b).subset hc) k (hi k c hk)
  nodup b := (h.nodup b).sublist (hn b)
  once k k' b hk hk' := h.once k k' b (hi k b hk) (hi k' b hk')
  inner := hinner

theorem Nesting.init : Nesting ({} : St) := by
  constructor <;> simp [toNest, IsNested]

theorem Nesting.call {k : Nat} (h : Nesting s) (hi : Inv s)
    (hm : CallMove s k (s.calls k).body s') : Nesting s' := by
  have hf := hm.frame
  have houter : ∀ k', (s'.calls k').outer = (s.calls k').outer := fun k' => by
    by_cases hk : k' = k
    · rw [hk, hm.outer]
    · rw [hf.other k' hk]
  refine h.keep (fun b => ?_) (fun k' b ⟨hu, ho, hb⟩ => ?_) fun k₁ c k' todo hpc => ?_
  · by_cases hb : b = (s.calls k).body
    · have hl : (s.calls k).pc.holds → (s.bodies b).lock = some k := fun hh =>
        (hi.locks.holder b k).mpr ⟨hb.symm, hh⟩
      have hc : (s.calls k).pc.holds → (s.bodies b).cancelled = true := fun hh =>
        hb ▸ hi.locks.entered k (.inl hh)
      subst hb
      cases hm with
      | nestedDone c k' todo hpc hd =>
        have hl' : ∀ v : Body, v.lock = (s.bodies c).lock →
            (update s.bodies c v (s.calls k).body).lock = some k := fun v hv =>
          (update_proj Body.lock hv _).trans (hl (by rw [hpc]; rfl))
        simp [toNest, hl', hl, hpc, CancelPc.toNest, CancelPc.holds, St.goto]
      | _ => simp_all [toNest, CancelPc.toNest, CancelPc.holds, St.goto, St.leave]
    · -- the call is on another body
      have hk : ∀ k', (s.bodies b).lock = some k' → (s'.calls k').pc = (s.calls k').pc := by
        intro k' hl
        have hne : k' ≠ k := fun he => hb (he ▸ ((hi.locks.holder b k').mp hl).1.symm)
        rw [hf.other k' hne]
      have key := fun (c : Nat) (v : Body) => update_rel (m := s.bodies) (i := c) (v := v) (j := b)
        (r := fun b b' => b'.lock = b.lock ∧ b'.related = b.related ∧ b'.cancelled = b.cancelled)
        (fun _ => ⟨rfl, rfl, rfl⟩)
      have hsame : (s'.bodies b).lock = (s.bodies b).lock ∧
          (s'.bodies b).related = (s.bodies b).related ∧
          (s'.bodies b).cancelled = (s.bodies b).cancelled := by
        cases hm with
        | nestedDone c k' todo hpc hd => exact key _ _ ⟨rfl, rfl, rfl⟩
        | again | enter | relatedDone => simp [St.leave, hb]
        | _ => exact ⟨rfl, rfl, rfl⟩
      rw [toNest_eq hsame.1 hsame.2.1 hsame.2.2 hk]
  · by_cases hk : k' = k
    · subst hk
      exact ⟨hm.born, by rw [← houter, ho], by rw [← hf.callBody, hb]⟩
    · rw [hf.other k' hk] at hu ho hb
      exact ⟨hu, ho, hb⟩
  · rw [houter]
    by_cases hk : k₁ = k
    · subst hk
      rcases hm.pc with hd | ⟨-, -, hn⟩
      · rw [hd] at hpc
        cases hpc
      · exact absurd hpc (hn c k' todo)
    · rw [hf.other k₁ hk] at hpc
      exact h.inner k₁ c k' todo hpc

/-- A step of a source that nests no call and adds no related body. -/
theorem Nesting.source_keep {e : Ev} (h : Nesting s) (hi : Inv s) (hch : Children s)
    (hm : SourceMove s e s') (hn : ∀ k k', e ≠ .nest k k')
    (hrel : ∀ b, (s'.bodies b).related = (s.bodies b).related) : Nesting s' := by
  have hf := hm.frame hi.born.body
  -- a call that starts is an outer one
  have hcalls : ∀ k, s'.calls k = s.calls k ∨
      (s.calls k).pc = .unborn ∧ (s'.calls k).pc = .enter ∧ (s'.calls k).outer = true := by
    intro x
    cases hm with
    | cancel b k _ _ hk =>
      by_cases hx : x = k
      · rw [hx]
        exact .inr ⟨hk, by simp⟩
      · exact .inl (update_of_ne hx ..)
    | nest k k' => exact absurd rfl (hn k k')
    | _ => exact .inl rfl
  refine h.keep (fun b => ?_) (fun k b ⟨hu, ho, hb⟩ => ?_) fun k c k' todo hpc => ?_
  · rw [toNest_eq (hf.lock b) (hrel b) (hf.cancelled b) fun k hl => ?_]
    rcases hcalls k with hk | ⟨hk, -⟩
    · rw [hk]
    · have := ((hi.locks.holder b k).mp hl).2
      rw [hk] at this
      cases this
  · rcases hcalls k with hk | ⟨-, -, hk⟩
    · rw [hk] at hu ho hb
      exact ⟨hu, ho, hb⟩
    · rw [hk] at ho
      cases ho
  · rcases hcalls k with hk | ⟨-, hk, -⟩
    · rw [hk] at hpc
      rcases hcalls k' with hk' | ⟨hk', -⟩
      · rw [hk']
        exact h.inner k c k' todo hpc
      · exact absurd hk' (hch.nested k c k' todo hpc).1
    · rw [hk] at hpc
      cases hpc

/-- A new body comes on the list of its parent. -/
theorem Nesting.link (h : Nesting s) (hi : Inv s) {b c : Nat}
    (hc : (s.bodies c).phase = .connecting) (hl : (s.bodies b).lock = none)
    (hcalls : s'.calls = s.calls)
    (hb : (s'.bodies b).lock = none ∧ (s'.bodies b).cancelled = (s.bodies b).cancelled ∧
      (s'.bodies b).related = (s.bodies b).related ++ [c])
    (hne : ∀ x, x ≠ b → (s'.bodies x).lock = (s.bodies x).lock ∧
      (s'.bodies x).cancelled = (s.bodies x).cancelled ∧
      (s'.bodies x).related = (s.bodies x).related) : Nesting s' := by
  have hother : ∀ x, x ≠ b → toNest s' x = toNest s x := fun x hx => by
    obtain ⟨h1, h2, h3⟩ := hne x hx
    exact toNest_eq h1 h3 h2 fun k _ => by rw [hcalls]
  have hnested : ∀ k x, IsNested s' k x ↔ IsNested s k x := fun k x => by
    unfold IsNested
    rw [hcalls]
  -- no call is on the new body
  have hfresh : ∀ k, ¬IsNested s k c := fun k ⟨hu, _, hk⟩ => by
    have := hi.born.call k hu
    rw [hk, hc] at this
    cases this
  have hnew : c ∉ (s.bodies b).related := fun hmem => by
    have := hi.born.related b c hmem
    rw [hc] at this
    cases this
  have htoNest : toNest s' b = toNest s b ∨
      toNest s b = (s.bodies b).related ∧ toNest s' b = (s.bodies b).related ++ [c] := by
    obtain ⟨h1, h2, h3⟩ := hb
    unfold toNest
    rw [h1, h2, h3, hl]
    by_cases hcan : (s.bodies b).cancelled = true <;> simp [hcan]
  refine ⟨fun x y hy k hk => ?_, fun x => ?_, fun k k' x hk hk' => ?_, fun k => ?_⟩
  · rw [hnested] at hk
    by_cases hx : x = b
    · subst hx
      rcases htoNest with heq | ⟨heq, heq'⟩
      · exact h.fresh x y (heq ▸ hy) k hk
      · rw [heq'] at hy
        rcases List.mem_append.mp hy with hy | hy
        · exact h.fresh x y (heq ▸ hy) k hk
        · rw [List.mem_singleton.mp hy] at hk
          exact hfresh k hk
    · exact h.fresh x y (hother x hx ▸ hy) k hk
  · by_cases hx : x = b
    · subst hx
      rcases htoNest with heq | ⟨heq, heq'⟩
      · rw [heq]
        exact h.nodup x
      · have hn := h.nodup x
        rw [heq] at hn
        rw [heq']
        exact List.nodup_append.mpr ⟨hn, List.nodup_singleton c, fun y hy z hz he =>
          hnew (List.mem_singleton.mp hz ▸ he ▸ hy)⟩
    · rw [hother x hx]
      exact h.nodup x
  · exact h.once k k' x ((hnested k x).mp hk) ((hnested k' x).mp hk')
  · rw [hcalls]
    exact h.inner k

/-- A call takes the next related body off its list, and nests a call on it. -/
theorem Nesting.nest (h : Nesting s) (hi : Inv s) (hfo : Forest s) (hch : Children s)
    {k k' c : Nat} {todo : List Nat} (hm : SourceMove s (.nest k k') s')
    (hpc : (s.calls k).pc = .related (c :: todo)) (hk' : (s.calls k').pc = .unborn)
    (hpc' : (s'.calls k).pc = .nested c k' todo ∧ (s'.calls k).outer = (s.calls k).outer ∧
      (s'.calls k).body = (s.calls k).body)
    (hnew : (s'.calls k').pc = .enter ∧ (s'.calls k').outer = false ∧ (s'.calls k').body = c)
    (hother : ∀ x, x ≠ k → x ≠ k' → s'.calls x = s.calls x)
    (hrel : ∀ b, (s'.bodies b).related = (s.bodies b).related) : Nesting s' := by
  have hf := hm.frame hi.born.body
  have hl : (s.bodies (s.calls k).body).lock = some k :=
    (hi.locks.holder _ k).mpr ⟨rfl, by rw [hpc]; rfl⟩
  have hlist : toNest s (s.calls k).body = c :: todo := by simp [toNest, hl, hpc, CancelPc.toNest]
  have hlist' : toNest s' (s.calls k).body = todo := by
    simp [toNest, hf.lock, hl, hpc'.1, CancelPc.toNest]
  have hne : ∀ b, b ≠ (s.calls k).body → toNest s' b = toNest s b := by
    intro b hb
    refine toNest_eq (hf.lock b) (hrel b) (hf.cancelled b) fun x hx => ?_
    obtain ⟨hxb, hholds⟩ := (hi.locks.holder b x).mp hx
    rw [hother x (fun he => hb (he ▸ hxb.symm)) fun he => ?_]
    rw [he, hk'] at hholds
    cases hholds
  -- the new call is the only one on its body
  have hc : ∀ x, ¬IsNested s x c := h.fresh _ c (hlist ▸ List.mem_cons_self)
  have hnested : ∀ x b, IsNested s' x b → IsNested s x b ∨ x = k' ∧ b = c := by
    rintro x b ⟨hu, ho, hb⟩
    by_cases hx' : x = k'
    · subst hx'
      exact .inr ⟨rfl, hb.symm.trans hnew.2.2⟩
    · by_cases hx : x = k
      · subst hx
        exact .inl ⟨by simp [hpc], hpc'.2.1 ▸ ho, hpc'.2.2 ▸ hb⟩
      · rw [hother x hx hx'] at hu ho hb
        exact .inl ⟨hu, ho, hb⟩
  have hnodup := h.nodup (s.calls k).body
  rw [hlist] at hnodup
  refine ⟨fun b y hy x hx => ?_, fun b => ?_, fun x x' b hx hx' => ?_, fun x d y rest hx => ?_⟩
  · have hold : y ∈ toNest s b ∧ (b = (s.calls k).body → y ∈ todo) := by
      by_cases hb : b = (s.calls k).body
      · rw [hb] at hy ⊢
        rw [hlist'] at hy
        exact ⟨by simp [hlist, hy], fun _ => hy⟩
      · exact ⟨hne b hb ▸ hy, fun he => absurd he hb⟩
    rcases hnested x y hx with hx | ⟨-, rfl⟩
    · exact h.fresh b y hold.1 x hx
    · have hpar := hfo.toNest hi hold.1
      rw [hfo.todo k y (by simp [hpc, CancelPc.relatedTodo])] at hpar
      exact (List.nodup_cons.mp hnodup).1 (hold.2 (Option.some.inj hpar).symm)
  · by_cases hb : b = (s.calls k).body
    · rw [hb, hlist']
      exact (List.nodup_cons.mp hnodup).2
    · rw [hne b hb]
      exact h.nodup b
  · rcases hnested x b hx with hx | ⟨rfl, rfl⟩ <;> rcases hnested x' b hx' with hx' | ⟨rfl, hb⟩
    · exact h.once x x' b hx hx'
    · exact absurd (hb ▸ hx) (hc x)
    · exact absurd hx' (hc x')
    · rfl
  · by_cases hxk : x = k
    · subst hxk
      rw [hpc'.1] at hx
      cases hx
      exact hnew.2.1
    · by_cases hxk' : x = k'
      · rw [hxk', hnew.1] at hx
        cases hx
      · rw [hother x hxk hxk'] at hx
        have hy := h.inner x d y rest hx
        by_cases hyk : y = k
        · rw [hyk] at hy ⊢
          rw [hpc'.2.1, hy]
        · by_cases hyk' : y = k'
          · exact absurd (hyk' ▸ hk') (hch.nested x d y rest hx).1
          · rw [hother y hyk hyk', hy]

theorem Nesting.source {e : Ev} (h : Nesting s) (hi : Inv s) (hfo : Forest s) (hch : Children s)
    (hm : SourceMove s e s') : Nesting s' := by
  have key := fun (b c : Nat) (v : Body) => update_proj (m := s.bodies) (i := c) (v := v)
    Body.related (j := b)
  have hm' := hm
  cases hm with
  | newSource b hp =>
    exact h.source_keep hi hch hm' nofun fun b' => key b' b _ (by rw [hi.born.body b hp])
  | copySource b => exact h.source_keep hi hch hm' nofun fun b' => key b' b _ rfl
  | dropSource b => exact h.source_keep hi hch hm' nofun fun b' => key b' b _ rfl
  | connect b c hp hr hc hne =>
    refine h.source_keep hi hch hm' nofun fun b' => ?_
    refine (update_proj Body.related ?_ b').trans (key b' b _ rfl)
    rw [update_of_ne (Ne.symm hne), hi.born.body c hc]
  | cancel b k => exact h.source_keep hi hch hm' nofun fun b' => key b' b _ rfl
  | link b c hc hpar hl =>
    have hbc : b ≠ c := by
      rintro rfl
      rw [hi.born.parent b b hpar] at hc
      cases hc
    refine h.link hi hc hl rfl (by simp [hbc, Body.addRelated, hl]) fun x hx => ?_
    by_cases hxc : x = c
    · simp [hxc]
    · simp [hxc, hx]
  | nest k k' c todo hpc hr hk' hne =>
    refine h.nest hi hfo hch hm' hpc hk' (by simp [hne]) (by simp) (fun x hx hx' => ?_)
      fun b => key b c _ rfl
    simp [hx, hx']

theorem Nesting.move {e : Ev} (h : Nesting s) (hi : Inv s) (hfo : Forest s) (hch : Children s)
    (hm : Move s e s') : Nesting s' := by
  cases hm with
  | source hm => exact h.source hi hfo hch hm
  | token hm =>
    have hf := hm.frame
    refine h.keep (fun b => ?_) (fun k b => ?_) ?_
    · rw [toNest_eq (hf.lock b) (hf.related b) (hf.cancelled b) fun k _ => by rw [hf.calls]]
    · unfold IsNested
      rw [hf.calls]
      exact id
    · rw [hf.calls]
      exact h.inner
  | sub hm =>
    have hf := hm.frame
    refine h.keep (fun b => ?_) (fun k b => ?_) ?_
    · unfold toNest
      rw [hf.bodies, hf.calls]
    · unfold IsNested
      rw [hf.calls]
      exact id
    · rw [hf.calls]
      exact h.inner
  | call k _ hm => exact h.call hi hm

theorem reach_nesting (h : sys.Reach s) : Nesting s := by
  refine h.rec_on (I := fun s => Inv s ∧ Forest s ∧ Children s)
    (fun _ h => ⟨reach_inv h, reach_forest h, reach_children h⟩) .init ?_
  exact fun _ _ _ hi h _ hst => h.move hi.1 hi.2.1 hi.2.2 (step_move hst)

/-! ## Calls and tokens in later states -/

/-- Call `c'` is call `c` at a later time. -/
structure Call.Goes (c c' : Call) : Prop where
  body : c'.body = c.body
  outer : c'.outer = c.outer
  born : c'.pc ≠ .unborn
  entered : c.pc ≠ .enter → c'.pc ≠ .enter

theorem CallKept.goes {c c' : Call} (h : CallKept c c') (hc : c.pc ≠ .unborn) : c.Goes c' := by
  cases h with
  | same => exact ⟨rfl, rfl, hc, id⟩
  | start _ h _ => exact absurd h hc
  | nest => exact ⟨rfl, rfl, nofun, fun _ => nofun⟩

theorem CallMove.flag_of_come {k b t : Nat} {todo : List Nat} (hm : CallMove s k b s')
    (hpc : (s.calls k).pc = .tokens (t :: todo)) : (s'.tokens t).cancelled = true := by
  cases hm <;> simp_all

theorem call_of_step {e : Ev} (hi : Inv s) (hst : step s e = some s') {k : Nat}
    (hk : (s.calls k).pc ≠ .unborn) : (s.calls k).Goes (s'.calls k) := by
  rcases hi.call_step hst k with hkept | hm
  · exact hkept.goes hk
  · exact ⟨hm.frame.callBody, hm.outer, hm.entered.1, fun _ => hm.entered.2⟩

/-- The token is cancelled, after its constructor. -/
def Flagged (s : St) (t : Nat) : Prop :=
  (s.tokens t).cancelled = true ∧ (s.tokens t).phase.constructed = true

theorem Flagged.step {e : Ev} {t : Nat} (h : Flagged s t) (hst : step s e = some s') :
    Flagged s' t := by
  obtain ⟨hc, hp⟩ := h
  cases step_move hst with
  | source hm =>
    unfold Flagged
    cases hm <;> exact ⟨hc, hp⟩
  | token hm =>
    have key : ∀ {x : Nat} {v : Token}, (x = t → v.cancelled = true ∧ v.phase.constructed = true) →
        (update s.tokens x v t).cancelled = true ∧
          (update s.tokens x v t).phase.constructed = true := by
      intro x v hv
      by_cases hx : t = x
      · rw [hx, update_self]
        exact hv hx.symm
      · rw [update_of_ne hx]
        exact ⟨hc, hp⟩
    cases hm with
    | begin x b coro _ _ hx =>
      exact key fun he => (by simp [← he, hx, TokenPhase.constructed] at hp)
    | read x hx => exact key fun he => (by simp [← he, hx, TokenPhase.constructed] at hp)
    | throws x hx => exact key fun he => (by simp [← he, hx, TokenPhase.constructed] at hp)
    | checked x hx => exact key fun he => (by simp [← he, hx, TokenPhase.constructed] at hp)
    | add x hx => exact key fun he => (by simp [← he, hx, TokenPhase.constructed] at hp)
    | remove x hx => exact key fun he => ⟨he ▸ hc, rfl⟩
    | release x hx => exact key fun he => ⟨he ▸ hc, rfl⟩
  | sub hm =>
    have hf := hm.frame
    exact ⟨(hf.cancelled t).trans hc, by rw [hf.phase, hp]⟩
  | call k _ hm =>
    have hf := hm.frame
    exact ⟨hf.flag t hc, (hf.tokenPhase t).symm ▸ hp⟩

/-! ## The calls of a thread -/

/-- The bodies of nested calls are below those of the calls that wait for them. -/
theorem Stack.rank {r : Nat → Nat} {n : Nat} (hr : RankedBy s r n) (hfo : Forest s) {k : Nat}
    {rest : List Nat} (h : Stack s (k :: rest)) :
    ∀ k' ∈ rest, r (s.calls k').body < r (s.calls k).body := by
  have : Trans (fun a b => r (s.calls b).body < r (s.calls a).body)
      (fun a b => r (s.calls b).body < r (s.calls a).body)
      (fun a b => r (s.calls b).body < r (s.calls a).body) := ⟨fun h h' => h'.trans h⟩
  have hchain : (k :: rest).IsChain fun a b => r (s.calls b).body < r (s.calls a).body := by
    refine h.chain.imp fun a b ⟨todo, hpc⟩ => hr.parent _ _ (hfo.todo b _ ?_)
    simp [hpc, CancelPc.relatedTodo]
  exact (List.pairwise_cons.mp hchain.pairwise).1

/-- A call under the first waits for another one. -/
theorem Stack.waits {k : Nat} {rest : List Nat} (h : Stack s (k :: rest)) :
    ∀ k' ∈ rest, ∃ c k₁ todo, (s.calls k').pc = .nested c k₁ todo := by
  have key : ∀ (ks : List Nat) (k : Nat), (k :: ks).IsChain (Calls s) →
      ∀ k' ∈ ks, ∃ k₁, Calls s k₁ k' := by
    intro ks
    induction ks with
    | nil => nofun
    | cons k₁ ks ih =>
      intro k hc k' hk'
      obtain ⟨hcalls, hc'⟩ := List.isChain_cons_cons.mp hc
      rcases List.mem_cons.mp hk' with rfl | hk'
      · exact ⟨k, hcalls⟩
      · exact ih k₁ hc' k' hk'
  intro k' hk'
  obtain ⟨k₁, todo, hpc⟩ := key rest k h.chain k' hk'
  exact ⟨_, k₁, todo, hpc⟩

/-- The first of several calls is a nested one. -/
theorem Stack.nested {k : Nat} {rest : List Nat} (hn : Nesting s) (h : Stack s (k :: rest))
    (hne : rest ≠ []) : IsNested s k (s.calls k).body := by
  cases rest with
  | nil => exact absurd rfl hne
  | cons k' rest =>
    obtain ⟨todo, hpc⟩ := (List.isChain_cons_cons.mp h.chain).1
    exact ⟨(h.active k List.mem_cons_self).1, hn.inner k' _ k todo hpc, rfl⟩

end Nesting

namespace Threads

/-- The sources and tokens that the step visits, with the outer call that it is part of. -/
def visits (s : St) : Ev → List (Nat × Obj)
  | .act i _ =>
    match (s.threads i).task with
    | .cancel (k :: rest) =>
      match (s.base.calls k).pc with
      | .enter => [(rest.getLastD k, .body (s.base.calls k).body)]
      | .tokens (t :: _) => [(rest.getLastD k, .token t)]
      | _ => []
    | _ => []
  | _ => []

variable {s s' : St} {e : Ev} {l : List (Nat × Obj)}

/-- The step visits `x`. -/
inductive Visit (s : St) (x : Nat × Obj) : Ev → Prop
  | body (i k' k : Nat) (rest : List Nat) : (s.threads i).task = .cancel (k :: rest) →
    (s.base.calls k).pc = .enter → x = (rest.getLastD k, .body (s.base.calls k).body) →
    Visit s x (.act i k')
  | token (i k' k t : Nat) (rest todo : List Nat) : (s.threads i).task = .cancel (k :: rest) →
    (s.base.calls k).pc = .tokens (t :: todo) → x = (rest.getLastD k, .token t) →
    Visit s x (.act i k')

theorem visit_of_mem {x : Nat × Obj} (h : x ∈ visits s e) : Visit s x e := by
  unfold visits at h
  split at h
  · rename_i i k'
    split at h
    · rename_i k rest htask
      split at h
      · rename_i hpc
        exact .body i k' k rest htask hpc (List.mem_singleton.mp h)
      · rename_i t todo hpc
        exact .token i k' k t rest todo htask hpc (List.mem_singleton.mp h)
      · cases h
    · cases h
  · cases h

/-- The visits of a run (module doc). -/
structure Visited (s : St) (l : List (Nat × Obj)) : Prop where
  nodup : l.Nodup
  entered : ∀ op b, (op, .body b) ∈ l →
    (s.base.calls op).pc ≠ .unborn ∧ (s.base.calls op).pc ≠ .enter
  body : ∀ op b, (op, .body b) ∈ l → (s.base.calls op).body = b ∨
    ∃ k, IsNested s.base k b ∧ (s.base.calls k).pc ≠ .enter
  token : ∀ op t, (op, .token t) ∈ l → Flagged s.base t

theorem Visited.keep (h : Visited s l) (hi : Cancel.Inv s.base)
    (hb : s'.base = s.base ∨ ∃ e', Cancel.step s.base e' = some s'.base) : Visited s' l := by
  rcases hb with hb | ⟨e', hst⟩
  · exact ⟨h.nodup, hb ▸ h.entered, hb ▸ h.body, hb ▸ h.token⟩
  · have hgoes := fun k hk => call_of_step hi hst (k := k) hk
    refine ⟨h.nodup, fun op b hmem => ?_, fun op b hmem => ?_, fun op t hmem => ?_⟩
    · obtain ⟨hu, he⟩ := h.entered op b hmem
      exact ⟨(hgoes op hu).born, (hgoes op hu).entered he⟩
    · refine (h.body op b hmem).imp (fun hop => ?_) fun ⟨k, ⟨hu, ho, hk⟩, he⟩ => ?_
      · rw [(hgoes op (h.entered op b hmem).1).body, hop]
      · have hg := hgoes k hu
        exact ⟨k, ⟨hg.born, hg.outer.trans ho, hg.body.trans hk⟩, hg.entered he⟩
    · exact (h.token op t hmem).step hst

/-- A thread whose next step is in no section takes it outside. -/
theorem Inv.act_of_lock (hi : Inv s) {i k' : Nat} {ks : List Nat} (h : Turn s (.act i k') s')
    (htask : (s.threads i).task = .cancel ks) (hlock : (Task.cancel ks).lock s.base = none) :
    Stack s.base ks ∧ Advances s.base ((Task.cancel ks).event s.base k') s'.base := by
  cases h with
  | act _ _ base hp hne hl htakes ha =>
    have hlive := (hi.fits i).out hp
    rw [htask] at hlive ha
    exact ⟨hlive.2, ha⟩
  | sleep _ _ u hp ht hc => rw [htask] at ht; cases ht
  | inside _ _ l base hp hw hne ha =>
    have hl := ((hi.fits i).locked l hp).2
    rw [htask, hlock] at hl
    cases hl
  | finish _ _ u l base hp ht hst => rw [htask] at ht; cases ht

/-- The outer call is the only one, or waits for one that it nests. -/
theorem outer_call (k : Nat) (rest : List Nat) : rest = [] ∧ rest.getLastD k = k ∨
    rest ≠ [] ∧ rest.getLastD k ∈ rest := by
  cases rest with
  | nil => exact .inl ⟨rfl, rfl⟩
  | cons k' rest => exact .inr ⟨nofun, List.getLast_mem (by simp)⟩

/-- A call that visits its body enters it. -/
theorem Visited.enter (h : Visited s l) (hi : Inv s) (hb : Cancel.sys.Reach s.base)
    {i k' k : Nat} {rest : List Nat} (ht : Turn s (.act i k') s')
    (htask : (s.threads i).task = .cancel (k :: rest)) (hpc : (s.base.calls k).pc = .enter) :
    Visited s' (l ++ [(rest.getLastD k, .body (s.base.calls k).body)]) := by
  have hbase := Cancel.reach_inv hb
  have hn := reach_nesting hb
  have hkeep := h.keep hbase ht.base
  obtain ⟨hstack, ha⟩ := hi.act_of_lock ht htask (by simp only [Task.lock, hpc])
  simp only [Task.event, hpc] at ha
  cases ha with
  | step _ _ hst =>
    have hgo := call_of_step hbase hst (k := k) (by simp [hpc])
    have hk : (s'.base.calls k).pc ≠ .unborn ∧ (s'.base.calls k).pc ≠ .enter := by
      cases step_move hst with
      | source hm => cases hm
      | token hm => cases hm
      | sub hm => cases hm
      | call _ he hm => cases he; exact hm.entered
    have hentered : (s'.base.calls (rest.getLastD k)).pc ≠ .unborn ∧
        (s'.base.calls (rest.getLastD k)).pc ≠ .enter := by
      rcases outer_call k rest with ⟨-, hop⟩ | ⟨-, hop⟩
      · rw [hop]
        exact hk
      · obtain ⟨c, k₁, todo, hw⟩ := hstack.waits _ hop
        have hg := call_of_step hbase hst (k := rest.getLastD k) (by rw [hw]; simp)
        exact ⟨hg.born, hg.entered (by rw [hw]; simp)⟩
    have hbody : (s'.base.calls (rest.getLastD k)).body = (s.base.calls k).body ∨
        ∃ k₁, IsNested s'.base k₁ (s.base.calls k).body ∧ (s'.base.calls k₁).pc ≠ .enter := by
      rcases outer_call k rest with ⟨-, hop⟩ | ⟨hne, -⟩
      · rw [hop]
        exact .inl hgo.body
      · obtain ⟨-, ho, -⟩ := hstack.nested hn hne
        exact .inr ⟨k, ⟨hk.1, hgo.outer.trans ho, hgo.body⟩, hk.2⟩
    have hnew : (rest.getLastD k, Obj.body (s.base.calls k).body) ∉ l := by
      intro hmem
      rcases outer_call k rest with ⟨-, hop⟩ | ⟨hne, hop⟩
      · rw [hop] at hmem
        exact (h.entered k _ hmem).2 hpc
      · rcases h.body _ _ hmem with hbody | ⟨k₁, hk₁, hentered⟩
        · -- the body of the outer call is above
          obtain ⟨r, n, hr⟩ := reach_ranked hb
          have := hstack.rank hr (reach_forest hb) _ hop
          rw [hbody] at this
          omega
        · rw [hn.once k₁ k _ hk₁ (hstack.nested hn hne)] at hentered
          exact hentered hpc
    refine ⟨?_, fun op b hmem => ?_, fun op b hmem => ?_, fun op t hmem => ?_⟩
    · refine List.nodup_append.mpr ⟨h.nodup, List.nodup_singleton _, ?_⟩
      rintro x hx y hy rfl
      exact hnew (List.mem_singleton.mp hy ▸ hx)
    · rcases List.mem_append.mp hmem with hmem | hmem
      · exact hkeep.entered op b hmem
      · cases List.mem_singleton.mp hmem
        exact hentered
    · rcases List.mem_append.mp hmem with hmem | hmem
      · exact hkeep.body op b hmem
      · cases List.mem_singleton.mp hmem
        exact hbody
    · rcases List.mem_append.mp hmem with hmem | hmem
      · exact hkeep.token op t hmem
      · cases List.mem_singleton.mp hmem

/-- A call comes to a token. -/
theorem Visited.come (h : Visited s l) (hi : Inv s) (hb : Cancel.sys.Reach s.base)
    {i k' k t : Nat} {rest todo : List Nat} (ht : Turn s (.act i k') s')
    (htask : (s.threads i).task = .cancel (k :: rest))
    (hpc : (s.base.calls k).pc = .tokens (t :: todo)) :
    Visited s' (l ++ [(rest.getLastD k, .token t)]) := by
  have hbase := Cancel.reach_inv hb
  have hkeep := h.keep hbase ht.base
  obtain ⟨-, ha⟩ := hi.act_of_lock ht htask (by simp only [Task.lock, hpc])
  simp only [Task.event, hpc] at ha
  cases ha with
  | step _ _ hst =>
    have hflag : Flagged s'.base t := by
      have hlive : (s.base.tokens t).phase = .live :=
        ((hbase.registered.token _ t).mp (hbase.current.tokens k t
          (by simp [hpc, CancelPc.tokensTodo]))).1
      cases step_move hst with
      | source hm => cases hm
      | token hm => cases hm
      | sub hm => cases hm
      | call _ he hm =>
        cases he
        have hphase := hm.frame.tokenPhase t
        exact ⟨hm.flag_of_come hpc, by rw [hphase, hlive]; rfl⟩
    have hnew : ∀ op, (op, Obj.token t) ∉ l := by
      intro op hmem
      have hfresh := (reach_untouched hb).todo k t (by simp [hpc, CancelPc.untouched])
      rw [(h.token op t hmem).1] at hfresh
      cases hfresh
    refine ⟨?_, fun op b hmem => ?_, fun op b hmem => ?_, fun op t' hmem => ?_⟩
    · refine List.nodup_append.mpr ⟨h.nodup, List.nodup_singleton _, ?_⟩
      rintro x hx y hy rfl
      exact hnew _ (List.mem_singleton.mp hy ▸ hx)
    · rcases List.mem_append.mp hmem with hmem | hmem
      · exact hkeep.entered op b hmem
      · cases List.mem_singleton.mp hmem
    · rcases List.mem_append.mp hmem with hmem | hmem
      · exact hkeep.body op b hmem
      · cases List.mem_singleton.mp hmem
    · rcases List.mem_append.mp hmem with hmem | hmem
      · exact hkeep.token op t' hmem
      · cases List.mem_singleton.mp hmem
        exact hflag

theorem Visited.step (h : Visited s l) (hi : Inv s) (hb : Cancel.sys.Reach s.base)
    (ht : Turn s e s') : Visited s' (l ++ visits s e) := by
  cases hv : visits s e with
  | nil =>
    rw [List.append_nil]
    exact h.keep (Cancel.reach_inv hb) ht.base
  | cons x xs =>
    have hx : Visit s x e := visit_of_mem (hv ▸ List.mem_cons_self)
    cases hx with
    | body i k' k rest htask hpc hx =>
      simp only [visits, htask, hpc] at hv
      rw [← hv]
      exact h.enter hi hb ht htask hpc
    | token i k' k t rest todo htask hpc hx =>
      simp only [visits, htask, hpc] at hv
      rw [← hv]
      exact h.come hi hb ht htask hpc

/-- No outer call of `cancel` visits a source or token twice. -/
theorem reach_visited {s : St × List (Nat × Obj)} (h : (sys.logged visits).Reach s) :
    Visited s.1 s.2 := by
  have h0 : Visited sys.init [] := ⟨.nil, nofun, nofun, nofun⟩
  exact h.logged_induction (J := fun s => Visited s.1 s.2)
    (I := fun s => Inv s ∧ Cancel.sys.Reach s.base) (fun _ h => ⟨reach_inv h, reach_base h⟩) h0
    fun s e s' l hi h _ hst => h.step hi.1 hi.2 (step_turn hst)

end Threads

end Cancel

end Corsl
