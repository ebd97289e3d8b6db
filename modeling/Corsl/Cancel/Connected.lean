import Corsl.Cancel.Invariants

/-!
# Cancelling a source cancels the sources connected to it

* `Edge`, `Descends`: the sources that `create_connected_source` made from a source, directly or
  through a chain of calls. A source lives as long as something shares its body.
* `connectedInTime`: no source is connected to a body that is cancelled already, and a call of
  `cancel` that passes a related body which no longer exists leaves no living source behind it
  uncancelled. `add_related` does not look at the flag of the parent, and the children of a body
  are known to that body only.
* `Family`: a child of a cancelled body is cancelled, or the call that cancels its parent still has
  to come to it (`toCancel`), or it is gone and leaves nobody (`Lost`).

`connected_cancelled` is the result for the runs whose steps meet `connectedInTime`. The sources
that `cancel` does not reach otherwise: `late_source`, and `orphaned_source`.
-/

namespace Corsl

open Conc Function Relation

namespace Cancel

/-- Source `c` was made by `create_connected_source` on `b`. -/
def Edge (s : St) (b c : Nat) : Prop :=
  (s.bodies c).parent = some b ∧ (s.bodies c).phase = .ready

/-- Source `c` was made from `b` by a chain of calls. -/
def Descends (s : St) : Nat → Nat → Prop := TransGen (Edge s)

/-- Body `b` is gone, and every source that lives and descends from it is cancelled. -/
def Lost (s : St) (b : Nat) : Prop :=
  (s.bodies b).refs = [] ∧
    ∀ d, Descends s b d → (s.bodies d).refs ≠ [] → (s.bodies d).cancelled = true

/-- The step is not one that leaves a connected source out (module doc). -/
def ConnectedInTime (s : St) : Ev → Prop
  | .link c => ∀ b, (s.bodies c).parent = some b → (s.bodies b).cancelled = false
  | .call k => ∀ c todo, (s.calls k).pc = .related (c :: todo) → (s.bodies c).refs = [] → Lost s c
  | _ => True

/-- The bodies that the call still has to cancel, of all those (`related_sources`) of its body. -/
@[grind =] def CancelPc.toCancel : CancelPc → List Nat → List Nat
  | .tokens _, all | .promise _ _, all | .callbacks _ _ _, all | .submit _ _ _ _, all => all
  | .related todo, _ => todo
  | .nested c _ todo, _ => c :: todo
  | .unborn, _ | .enter, _ | .done, _ => []

/-- The bodies that the call in the middle of cancelling `b` still has to cancel. -/
def pendingRelated (s : St) (b : Nat) : List Nat :=
  match (s.bodies b).lock with
  | none => []
  | some k => (s.calls k).pc.toCancel (s.bodies b).related

theorem mem_pendingRelated {s : St} {b c : Nat} : c ∈ pendingRelated s b ↔
    ∃ k, (s.bodies b).lock = some k ∧ c ∈ (s.calls k).pc.toCancel (s.bodies b).related := by
  unfold pendingRelated
  cases (s.bodies b).lock <;> simp

/-! ## Where the children are -/

/-- The children of a body that is not cancelled, and those that are being made. -/
structure Children (s : St) : Prop where
  related : ∀ b c, (s.bodies c).parent = some b → (s.bodies c).phase = .ready →
    (s.bodies b).cancelled = false → c ∈ (s.bodies b).related
  nested : ∀ k c k' todo, (s.calls k).pc = .nested c k' todo →
    (s.calls k').pc ≠ .unborn ∧ (s.calls k').body = c
  connecting : ∀ b c, (s.bodies c).phase = .connecting → (s.bodies c).parent = some b →
    .connect c ∈ (s.bodies b).refs

theorem Children.init : Children ({} : St) := by
  constructor <;> simp

theorem Children.source {s s' : St} {e : Ev} (h : Children s) (hi : Inv s)
    (hm : SourceMove s e s') : Children s' := by
  have hb := hi.born.body
  have hp := hi.born.parent
  obtain ⟨h1, h2, h3⟩ := h
  cases hm with
  | link b c _ _ _ => simp only [Body.addRelated]; constructor <;> grind -linarith
  | _ => constructor <;> grind -linarith

theorem Children.call {s s' : St} {k : Nat} (h : Children s) (hi : Inv s)
    (hm : CallMove s k (s.calls k).body s') : Children s' := by
  have he := hi.locks.entered k
  obtain ⟨h1, h2, h3⟩ := h
  cases hm with
  | again hpc hl hc => simp only [St.leave, St.goto]; constructor <;> grind -linarith
  | relatedDone hpc => simp only [St.leave, St.goto]; constructor <;> grind -linarith
  | _ => simp only [St.goto]; constructor <;> grind -linarith

theorem Children.move {s s' : St} {e : Ev} (h : Children s) (hi : Inv s) (hm : Move s e s') :
    Children s' := by
  cases hm with
  | source hm => exact h.source hi hm
  | token hm =>
    obtain ⟨h1, h2, h3⟩ := h
    cases hm <;> simp only [Body.addToken, Body.removeToken] <;> constructor <;> grind -linarith
  | sub hm => cases hm <;> exact ⟨h.related, h.nested, h.connecting⟩
  | call k _ hm => exact h.call hi hm

theorem reach_children {s : St} (h : sys.Reach s) : Children s :=
  h.rec_on (fun _ h => reach_inv h) .init fun _ _ _ hi h _ hst => h.move hi (step_move hst)

/-! ## The children of a cancelled body -/

/-- A child of a cancelled body is cancelled or lost, once no call has it on its list. -/
def Reaching (s : St) : Prop :=
  ∀ b c, Edge s b c → (s.bodies b).cancelled = true → c ∉ pendingRelated s b →
    (s.bodies c).cancelled = true ∨ Lost s c

theorem Reaching.init : Reaching ({} : St) := by
  simp [Reaching]

theorem Descends.ready {s : St} {b d : Nat} (h : Descends s b d) :
    (s.bodies d).phase = .ready := by
  obtain ⟨_, -, he⟩ := TransGen.tail'_iff.mp h
  exact he.2

/-- What is gone is gone for good. -/
theorem Lost.keep {s s' : St} {b : Nat} (h : Lost s b) (hb : (s.bodies b).phase = .ready)
    (hedge : ∀ b c, Edge s' b c → Edge s b c)
    (hrefs : ∀ d, (s.bodies d).phase = .ready → (s.bodies d).refs = [] → (s'.bodies d).refs = [])
    (hc : ∀ d, (s.bodies d).phase = .ready → (s.bodies d).cancelled = true →
      (s'.bodies d).cancelled = true) : Lost s' b := by
  refine ⟨hrefs b hb h.1, fun d hd hr => ?_⟩
  have hd : Descends s b d := TransGen.mono hedge _ _ hd
  exact hc d hd.ready (h.2 d hd fun hn => hr (hrefs d hd.ready hn))

/-- A step that makes no source, cancels what it takes off a list or finds it lost, and puts the
children of a body that it cancels on one. -/
theorem Reaching.step {s s' : St} (h : Reaching s) (hedge : ∀ b c, Edge s' b c → Edge s b c)
    (hrefs : ∀ d, (s.bodies d).phase = .ready → (s.bodies d).refs = [] → (s'.bodies d).refs = [])
    (hmono : ∀ d, (s.bodies d).phase = .ready → (s.bodies d).cancelled = true →
      (s'.bodies d).cancelled = true)
    (hcancelled : ∀ b c, Edge s b c → (s'.bodies b).cancelled = true →
      (s.bodies b).cancelled = true ∨ c ∈ pendingRelated s' b)
    (htodo : ∀ b c k, Edge s b c → (s.bodies b).lock = some k →
      c ∈ (s.calls k).pc.toCancel (s.bodies b).related →
      ((s'.bodies b).lock = some k ∧ c ∈ (s'.calls k).pc.toCancel (s'.bodies b).related) ∨
      (s.bodies c).cancelled = true ∨ Lost s c) : Reaching s' := by
  intro b c he hc hn
  have he := hedge b c he
  have hdone : (s.bodies c).cancelled = true ∨ Lost s c := by
    rcases hcancelled b c he hc with hc | hc
    · by_cases hp : c ∈ pendingRelated s b
      · obtain ⟨k, hk, hp⟩ := mem_pendingRelated.mp hp
        exact (htodo b c k he hk hp).resolve_left fun hp => hn (mem_pendingRelated.mpr ⟨k, hp⟩)
      · exact h b c he hc hp
    · exact absurd hc hn
  rcases hdone with hc | hc
  · exact .inl (hmono c he.2 hc)
  · exact .inr (hc.keep he.2 hedge hrefs hmono)

/-- A step that leaves the lists alone, makes no source and cancels no body. -/
theorem Reaching.keep {s s' : St} (h : Reaching s) (hedge : ∀ b c, Edge s' b c → Edge s b c)
    (hrefs : ∀ d, (s.bodies d).phase = .ready → (s.bodies d).refs = [] → (s'.bodies d).refs = [])
    (hmono : ∀ d, (s.bodies d).phase = .ready →
      (s'.bodies d).cancelled = (s.bodies d).cancelled ∧ (s'.bodies d).lock = (s.bodies d).lock ∧
      (s'.bodies d).related = (s.bodies d).related)
    (hparent : ∀ b c, Edge s b c → (s.bodies b).phase = .ready)
    (hk : ∀ k all, (s'.calls k).pc.toCancel all = (s.calls k).pc.toCancel all) : Reaching s' := by
  refine h.step hedge hrefs (fun d hd hc => ?_) (fun b c he hc => .inl ?_)
    (fun b c k he hl hc => .inl ?_)
  · rw [(hmono d hd).1]
    exact hc
  · rw [← (hmono b (hparent b c he)).1]
    exact hc
  · obtain ⟨-, h2, h3⟩ := hmono b (hparent b c he)
    rw [h2, h3, hk]
    exact ⟨hl, hc⟩

theorem Inv.edge_parent {s : St} (hi : Inv s) (b c : Nat) (he : Edge s b c) :
    (s.bodies b).phase = .ready := hi.born.parent b c he.1

/-- The state after `add_related`, which makes source `c` a child of `b`. -/
def St.linked (s : St) (b c : Nat) : St :=
  { s with
    bodies := update (update s.bodies b
      { (s.bodies b).addRelated c with refs := (s.bodies b).refs.erase (.connect c) }) c
      { s.bodies c with phase := .ready } }

theorem edge_linked {s : St} {b c : Nat} (hpar : (s.bodies c).parent = some b) (x y : Nat)
    (he : Edge (s.linked b c) x y) : Edge s x y ∨ x = b ∧ y = c := by
  simp only [St.linked, Body.addRelated] at he
  grind -linarith [Edge]

/-- The new source descends from whatever its parent descends from, and nothing else changes. -/
theorem descends_linked {s : St} (hi : Inv s) {b c : Nat} (hp : (s.bodies c).phase = .connecting)
    (hpar : (s.bodies c).parent = some b) {x d : Nat} (hd : Descends (s.linked b c) x d) :
    Descends s x d ∨ d = c ∧ (x = b ∨ Descends s x b) := by
  induction hd with
  | single he =>
    rcases edge_linked hpar _ _ he with he | ⟨rfl, rfl⟩
    · exact .inl (.single he)
    · exact .inr ⟨rfl, .inl rfl⟩
  | tail _ hlast ih =>
    rcases edge_linked hpar _ _ hlast with he | ⟨rfl, rfl⟩
    · rcases ih with ih | ⟨hm, -⟩
      · exact .inl (ih.tail he)
      · -- a source that is still being made has no children
        have := hi.edge_parent _ _ he
        simp [hm, hp] at this
    · rcases ih with ih | ⟨-, ih⟩
      · exact .inr ⟨rfl, .inr ih⟩
      · exact .inr ⟨rfl, ih⟩

/-- A source that is connected to an uncancelled parent descends from nothing that is lost. -/
theorem Lost.linked {s : St} (hi : Inv s) (hch : Children s) {b c x : Nat} (h : Lost s x)
    (hx : (s.bodies x).phase = .ready) (hp : (s.bodies c).phase = .connecting)
    (hpar : (s.bodies c).parent = some b) (hc : (s.bodies b).cancelled = false) :
    Lost (s.linked b c) x := by
  have hrefs : .connect c ∈ (s.bodies b).refs := hch.connecting b c hp hpar
  have hlive : (s.bodies b).refs ≠ [] := List.ne_nil_of_mem hrefs
  have hxb : x ≠ b := fun he => hlive (he ▸ h.1)
  have hxc : x ≠ c := fun he => by simp [he, hp] at hx
  refine ⟨by simpa [St.linked, hxb, hxc] using h.1, fun d hd hr => ?_⟩
  rcases descends_linked hi hp hpar hd with hd | ⟨-, hd⟩
  · have hdc : d ≠ c := fun he => by
      have := hd.ready
      simp [he, hp] at this
    have hcd : (s.bodies d).refs ≠ [] → (s.bodies d).cancelled = true := h.2 d hd
    simp only [St.linked, Body.addRelated] at hr ⊢
    grind -linarith
  · rcases hd with hd | hd
    · exact absurd hd hxb
    · have := h.2 b hd hlive
      simp [hc] at this

theorem Reaching.link {s : St} (h : Reaching s) (hi : Inv s) (hch : Children s) {b c : Nat}
    (hp : (s.bodies c).phase = .connecting) (hpar : (s.bodies c).parent = some b)
    (hc : (s.bodies b).cancelled = false) : Reaching (s.linked b c) := by
  intro x y he hx hn
  have hcx : x ≠ b := by
    rintro rfl
    simp only [St.linked, Body.addRelated] at hx
    grind -linarith
  rcases edge_linked hpar x y he with he | ⟨hxb, -⟩
  · have hxc : x ≠ c := fun hxc => by
      have := hi.edge_parent x y he
      simp [hxc, hp] at this
    have hsame : (s.linked b c).bodies x = s.bodies x := by simp [St.linked, hcx, hxc]
    rw [pendingRelated, hsame] at hn
    rw [hsame] at hx
    rcases h x y he hx hn with hy | hy
    · refine .inl ?_
      simp only [St.linked, Body.addRelated]
      grind -linarith
    · exact .inr (hy.linked hi hch he.2 hp hpar hc)
  · exact absurd hxb hcx

/-- No other step of a source makes a child, or touches a list of the children. -/
theorem Reaching.unlinked {s s' : St} {e : Ev} (h : Reaching s) (hi : Inv s)
    (hm : SourceMove s e s') (hl : ∀ c, e ≠ .link c) : Reaching s' := by
  have hborn : ∀ d, (s.bodies d).phase = .ready → (s.bodies d).phase ≠ .unborn := by
    intro d hd
    simp [hd]
  have hf := hm.frame hi.born.body
  refine h.keep (fun b c he => (hm.body c).parent hl he.1 he.2)
    (fun d hd => (hm.body d).refs_nil (hborn d hd)) (fun d hd => ?_) hi.edge_parent
    fun k all => ?_
  · exact ⟨hf.cancelled d, hf.lock d, (hm.body d).related_eq (hborn d hd) hl⟩
  · exact (hf.calls k).pc_eq (fun pc => pc.toCancel all) rfl fun _ _ _ => rfl

theorem Reaching.source {s s' : St} {e : Ev} (h : Reaching s) (hi : Inv s) (hch : Children s)
    (hok : ConnectedInTime s e) (hm : SourceMove s e s') : Reaching s' := by
  cases e with
  | link =>
    cases hm with
    | link b c hp hpar hl => exact h.link hi hch hp hpar (hok b hpar)
  | _ => exact h.unlinked hi hm (by simp)

theorem Reaching.token {s s' : St} {e : Ev} (h : Reaching s) (hi : Inv s)
    (hm : TokenMove s e s') : Reaching s' := by
  cases hm with
  | add t _ _ =>
    simp only [Body.addToken]
    refine h.keep ?_ ?_ ?_ hi.edge_parent ?_ <;> grind -linarith [Edge]
  | remove t _ _ _ =>
    simp only [Body.removeToken]
    refine h.keep ?_ ?_ ?_ hi.edge_parent ?_ <;> grind -linarith [Edge]
  | _ => refine h.keep ?_ ?_ ?_ hi.edge_parent ?_ <;> grind -linarith [Edge]

theorem Reaching.call {s s' : St} {k : Nat} (h : Reaching s) (hi : Inv s) (hch : Children s)
    (hok : ConnectedInTime s (.call k)) (hm : CallMove s k (s.calls k).body s') :
    Reaching s' := by
  have hself := hi.locks.holder (s.calls k).body k
  cases hm with
  | again hpc hl hc =>
    simp only [St.leave, St.goto]
    refine h.keep ?_ ?_ ?_ hi.edge_parent ?_ <;> grind -linarith [Edge]
  | enter hpc hl hc =>
    have hrel := hch.related
    simp only [St.goto]
    refine h.step ?_ ?_ ?_ ?_ ?_ <;> grind -linarith [Edge, pendingRelated]
  | tokensDone hpc =>
    have hlock := hi.locks.holder
    simp only [St.goto]
    refine h.step ?_ ?_ ?_ ?_ ?_ <;> grind -linarith [Edge]
  | relatedDone hpc =>
    simp only [St.leave, St.goto]
    refine h.step ?_ ?_ ?_ ?_ ?_ <;> grind -linarith [Edge]
  | skip c todo hpc hr =>
    have hlost := hok c todo hpc hr
    simp only [St.goto]
    refine h.step ?_ ?_ ?_ ?_ ?_ <;> grind -linarith [Edge]
  | nestedDone c k' todo hpc hd =>
    have hc : (s.bodies c).cancelled = true := by
      rw [← (hch.nested k c k' todo hpc).2]
      exact hi.locks.entered k' (.inr hd)
    simp only [St.goto]
    refine h.step ?_ ?_ ?_ ?_ ?_ <;> grind -linarith [Edge]
  | _ =>
    simp only [St.goto]
    refine h.keep ?_ ?_ ?_ hi.edge_parent ?_ <;> grind -linarith [Edge]

theorem reach_reaching {s : St} (h : sys.ReachBy ConnectedInTime s) : Reaching s := by
  refine h.rec_on (I := fun s => Inv s ∧ Children s)
    (fun _ h => ⟨reach_inv h.reach, reach_children h.reach⟩) .init ?_
  intro s e s' ⟨hi, hch⟩ h hok hst
  cases step_move hst with
  | source hm => exact h.source hi hch hok hm
  | token hm => exact h.token hi hm
  | sub hm => cases hm <;> exact h
  | call k he hm => exact h.call hi hch (he ▸ hok) hm

/-! ## Results -/

/-- No `cancel()` is in progress. -/
def Quiet (s : St) : Prop := ∀ k, (s.calls k).pc = .unborn ∨ (s.calls k).pc = .done

/-- **Cancelling a source cancels every source connected to it**, directly or through a chain,
when no step leaves one out. -/
theorem connected_cancelled {s : St} (h : sys.ReachBy ConnectedInTime s) (hq : Quiet s) {b d : Nat}
    (hd : Descends s b d) (hc : (s.bodies b).cancelled = true) (hlive : (s.bodies d).refs ≠ []) :
    (s.bodies d).cancelled = true := by
  have hi := reach_inv h.reach
  have hn : ∀ b c, c ∉ pendingRelated s b := by
    intro b c hp
    obtain ⟨k, hk, -⟩ := mem_pendingRelated.mp hp
    have hh := ((hi.locks.holder b k).mp hk).2
    rcases hq k with hk | hk <;> simp [hk, CancelPc.holds] at hh
  -- down the chain: each child is cancelled, or lost and then so is the end of the chain
  induction hd using TransGen.head_induction_on with
  | single he =>
    rcases reach_reaching h _ _ he hc (hn _ _) with hc | hc
    · exact hc
    · exact absurd hc.1 hlive
  | head he hd ih =>
    rcases reach_reaching h _ _ he hc (hn _ _) with hc | hc
    · exact ih hc
    · exact hc.2 d hd hlive

/-- A check of a step that implies `ConnectedInTime`: it connects to an uncancelled source, or
passes a related body that still exists. -/
def connectedCheck (s : St) : Ev → Bool
  | .link c => (s.bodies c).parent.all fun b => !(s.bodies b).isCancelled
  | .call k => match (s.calls k).pc with
    | .related (c :: _) => !(s.bodies c).expired
    | _ => true
  | _ => true

theorem connectedInTime_of_check (s : St) (e : Ev) (h : connectedCheck s e = true) :
    ConnectedInTime s e := by
  cases e with
  | link c =>
    intro b hb
    simpa [connectedCheck, hb, Body.isCancelled] using h
  | call k =>
    intro c todo hpc hr
    simp [connectedCheck, hpc, Body.expired, hr] at h
  | _ => trivial

/-- Three sources in a chain; the first is cancelled. -/
def chainRun : List Ev :=
  [.newSource 0, .connect 0 1, .link 1, .connect 1 2, .link 2, .cancel 0 0, .call 0, .call 0,
    .nest 0 1, .call 1, .call 1, .nest 1 2, .call 2, .call 2, .call 2, .call 1, .call 1, .call 0,
    .call 0]

theorem connected_cancelled_chain : ((sys.after chainRun).bodies 2).cancelled = true := by
  refine connected_cancelled (s := sys.after chainRun) (b := 0) ?_ ?_ ?_ (by decide) (by decide)
  · exact (Sys.reachBy_meets (by decide)).mono connectedInTime_of_check
  · intro k
    match k with
    | 0 => decide
    | 1 => decide
    | 2 => decide
    | k + 3 => exact .inl rfl
  · exact .tail (b := 1) (.single ⟨by decide, by decide⟩) ⟨by decide, by decide⟩

/-- A source is cancelled, and then another one is connected to it. -/
def lateSourceRun : List Ev :=
  [.newSource 0, .cancel 0 0, .call 0, .call 0, .call 0, .connect 0 1, .link 1]

/-- A source that is connected to a cancelled one is not cancelled. -/
theorem late_source : ¬ ∀ s, sys.Reach s → Quiet s → ∀ b d, Descends s b d →
    (s.bodies b).cancelled = true → (s.bodies d).refs ≠ [] → (s.bodies d).cancelled = true := by
  intro h
  have hq : Quiet (sys.after lateSourceRun) := by
    intro k
    match k with
    | 0 => decide
    | k + 1 => exact .inl rfl
  have := h (sys.after lateSourceRun) (Sys.reach_after (by decide)) hq 0 1
    (.single ⟨by decide, by decide⟩) (by decide) (by decide)
  revert this
  decide

/-- Three sources in a chain; the second is destroyed, and then the first is cancelled. -/
def orphanRun : List Ev :=
  [.newSource 0, .connect 0 1, .link 1, .connect 1 2, .link 2, .dropSource 1, .cancel 0 0, .call 0,
    .call 0, .call 0, .call 0]

/-- Nor is a source whose parent was destroyed before the source above it was cancelled. -/
theorem orphaned_source : ¬ ∀ s, sys.Reach s → Quiet s → ∀ b d, Descends s b d →
    (s.bodies b).cancelled = true → (s.bodies d).refs ≠ [] → (s.bodies d).cancelled = true := by
  intro h
  have hq : Quiet (sys.after orphanRun) := by
    intro k
    match k with
    | 0 => decide
    | k + 1 => exact .inl rfl
  have := h (sys.after orphanRun) (Sys.reach_after (by decide)) hq 0 2
    (.tail (b := 1) (.single ⟨by decide, by decide⟩) ⟨by decide, by decide⟩) (by decide)
    (by decide)
  revert this
  decide

end Cancel

end Corsl
