import Corsl.Future.Promise

/-!
# When the state of a `promise<T>` outlives its users

The `shared_ptr`s of the `promise<T>` objects alone keep the state alive. A future and the second
half of a `set` use it through raw pointers, and nothing stops the last `promise<T>` from going
before them (`early`).

* `Uses`: who holds a raw pointer on a state: a future, a destructor of a future that is not over,
  or a `set` whose second half is to run.
* `Outlives`: no step has used a dead state, and a dead state has no future and no pending `set`.
* `Spares`: the condition on a step that it does not take the last `promise<T>` from a state that
  is in use.
* `Inv`: the counts are right (`Counted`), a state is alive while it has an owner, and every state
  in use is alive.
-/

namespace Corsl

open Conc Function Future

namespace Promise

variable {T : Type}

/-- Somebody has a raw pointer on state `p`. -/
def Uses (s : St T) (p : Nat) : Prop :=
  (∃ f, s.handle f = some p ∨ s.destroying f = some p) ∨ ∃ k, s.sets k = .pending p

/-- The state outlives its users. -/
def Outlives (s : St T) : Prop :=
  s.stale = false ∧ ∀ p, (s.states p).phase = .dead →
    (s.states p).p.useCount = 0 ∧ ∀ k, s.sets k ≠ .pending p

/-- The state that loses its last owner when a pointer on it goes. -/
def St.last (s : St T) (v : Option Nat) : Option Nat := v.filter fun p => s.owners p = 1

/-- The state that loses its last owner in a step. -/
def orphan (s : St T) : Ev T → Option Nat
  | .destruct o => s.last (s.promises o).promise
  | .copyAssign o o' | .moveAssign o o' =>
    if (s.promises o).promise = (s.promises o').promise then none
    else s.last (s.promises o).promise
  | _ => none

/-- The step takes the last `promise<T>` from no state that is in use. -/
def Spares (s : St T) (e : Ev T) : Prop := ∀ p, orphan s e = some p → ¬Uses s p

/-- The invariant (module doc). -/
structure Inv (s : St T) : Prop where
  stale : s.stale = false
  owners : Counted s.owned s.owners
  handles : Counted s.handle fun p => (s.states p).p.useCount
  live : ∀ p, (s.states p).phase = .live ↔ 0 < s.owners p
  users : ∀ p, Uses s p → (s.states p).phase = .live

theorem Inv.init : Inv ({} : St T) := by
  refine ⟨rfl, Counted.none.congr (fun _ => rfl) fun _ => rfl,
    Counted.none.congr (fun _ => rfl) fun _ => rfl, by simp, ?_⟩
  rintro p (⟨f, hf | hf⟩ | ⟨k, hk⟩)
  · cases hf
  · cases hf
  · cases hk

theorem Inv.sound {s : St T} (h : Inv s) : Outlives s := by
  refine ⟨h.stale, fun p hp => ?_⟩
  have hn : ¬Uses s p := fun hu => by
    rw [h.users p hu] at hp
    cases hp
  refine ⟨?_, fun k hk => hn (.inr ⟨k, hk⟩)⟩
  by_contra hc
  obtain ⟨f, hf⟩ := h.handles.pos_iff.mp (Nat.pos_of_ne_zero hc)
  exact hn (.inl ⟨f, .inl hf⟩)

section Steps

variable {s s' : St T} {p : Nat}

theorem touch_stale (h : Inv s) (hp : (s.states p).phase = .live) : (s.touch p).stale = false := by
  simp [St.touch, h.stale, hp]

/-- A step that leaves the counts alone. -/
theorem Inv.keep (h : Inv s) (hst : s'.stale = false) (ho : s'.promises = s.promises)
    (hc : s'.owners = s.owners) (hf : ∀ f, s'.handle f = s.handle f)
    (hp : ∀ p, (s'.states p).phase = (s.states p).phase ∧
      (s'.states p).p.useCount = (s.states p).p.useCount)
    (hu : ∀ p, Uses s' p → Uses s p ∨ (s.states p).phase = .live) : Inv s' := by
  refine ⟨hst, h.owners.congr (fun o => ?_) fun p => by rw [hc],
    h.handles.congr hf fun p => (hp p).2, fun p => ?_, fun p hup => ?_⟩
  · unfold St.owned
    rw [ho]
  · rw [(hp p).1, hc, h.live]
  · rw [(hp p).1]
    exact (hu p hup).elim (h.users p) id

/-- A step of the `promise<T>` objects. -/
theorem Inv.promises (h : Inv s) (hst : s'.stale = s.stale) (hc : Counted s'.owned s'.owners)
    (hp : ∀ p, (s'.states p).p = (s.states p).p)
    (hl : ∀ p, (s'.states p).phase = .live ↔ 0 < s'.owners p) (hf : s'.futures = s.futures)
    (hd : s'.destroying = s.destroying) (hk : s'.sets = s.sets)
    (hspare : ∀ p, Uses s p → 0 < s'.owners p) : Inv s' := by
  have hh : ∀ f, s'.handle f = s.handle f := fun f => by unfold St.handle; rw [hf]
  refine ⟨hst.trans h.stale, hc, h.handles.congr hh fun p => by rw [hp p], hl, fun p hu => ?_⟩
  refine (hl p).mpr (hspare p ?_)
  simpa only [Uses, hh, hd, hk] using hu

/-! ## The `shared_ptr`s -/

theorem retain_owners (v : Option Nat) (p : Nat) :
    (s.retain v).owners p = s.owners p + (if v = some p then 1 else 0) := by
  rcases v with _ | q
  · rfl
  · by_cases hq : p = q
    · simp [St.retain, hq]
    · simp [St.retain, hq, Ne.symm hq]

theorem drop_owners (v : Option Nat) (p : Nat) :
    (s.drop v).owners p = s.owners p - (if v = some p then 1 else 0) := by
  rcases v with _ | q
  · rfl
  · by_cases hq : p = q
    · simp [St.drop, hq]
    · simp [St.drop, hq, Ne.symm hq]

theorem drop_p (v : Option Nat) (p : Nat) : ((s.drop v).states p).p = (s.states p).p := by
  rcases v with _ | q
  · rfl
  · simp only [St.drop]
    split
    · exact update_proj (m := s.states) (i := q) (v := { s.states q with phase := .dead })
        State.p rfl p
    · rfl

/-- A state that loses an owner dies with the last one. -/
theorem drop_live {v : Option Nat} (hl : ∀ p, (s.states p).phase = .live ↔ 0 < s.owners p)
    (p : Nat) : ((s.drop v).states p).phase = .live ↔ 0 < (s.drop v).owners p := by
  rcases v with _ | q
  · exact hl p
  · by_cases hq : p = q
    · subst hq
      by_cases h1 : s.owners p = 1
      · simp [St.drop, h1]
      · simp only [St.drop, h1, if_false, update_self, hl]
        omega
    · simp only [St.drop, update_of_ne hq]
      split
      · rw [update_of_ne hq, hl]
      · exact hl p

theorem retain_live {v : Option Nat} (hl : ∀ p, (s.states p).phase = .live ↔ 0 < s.owners p)
    (hv : ∀ p, v = some p → 0 < s.owners p) (p : Nat) :
    ((s.retain v).states p).phase = .live ↔ 0 < (s.retain v).owners p := by
  have hs : (s.retain v).states = s.states := by cases v <;> rfl
  rw [hs, hl, retain_owners]
  by_cases hp : v = some p
  · have := hv p hp
    simp [hp, this]
  · simp [hp]

theorem owned_of_live {o : Nat} (ho : (s.promises o).phase = .live) :
    s.owned o = (s.promises o).promise := by
  unfold St.owned
  rw [ho]
  rfl

theorem owned_of_unborn {o : Nat} (ho : (s.promises o).phase = .unborn) : s.owned o = none := by
  unfold St.owned
  rw [ho]
  rfl

/-- What promise `o` owns after it has changed. -/
theorem owned_update {o : Nat} {x : Object} (hp : s'.promises = update s.promises o x) :
    s'.owned = update s.owned o (if x.phase = .live then x.promise else none) := by
  funext d
  by_cases hd : d = o
  · subst hd
    simp [St.owned, hp]
  · simp [St.owned, hp, hd]

theorem Inv.construct (h : Inv s) {o : Nat} (ho : (s.promises o).phase = .unborn)
    (hp : (s.states p).phase = .unborn) : Inv { s with
      states := update s.states p { phase := .live }
      owners := update s.owners p 1
      promises := update s.promises o { phase := .live, promise := some p } } := by
  have hfree : ¬Uses s p := fun hu => by
    rw [h.users p hu] at hp
    cases hp
  have hzero : s.owners p = 0 := by
    by_contra hc
    rw [(h.live p).mpr (Nat.pos_of_ne_zero hc)] at hp
    cases hp
  refine ⟨h.stale, ?_, ?_, fun q => ?_, fun q hq => ?_⟩
  · rw [owned_update rfl]
    refine (h.owners.set o (some p)).congr (fun _ => rfl) fun q => ?_
    by_cases hq : q = p
    · simp [hq, hzero, owned_of_unborn ho]
    · simp [hq, Ne.symm hq, owned_of_unborn ho]
  · refine h.handles.congr (fun _ => rfl) fun q => ?_
    by_cases hq : q = p
    · -- no future has a handle on a new state
      have : (s.states p).p.useCount = 0 := by
        by_contra hc
        obtain ⟨f, hf⟩ := h.handles.pos_iff.mp (Nat.pos_of_ne_zero hc)
        exact hfree (.inl ⟨f, .inl hf⟩)
      simp [hq, this]
    · simp [hq]
  · by_cases hq : q = p
    · simp [hq]
    · simpa [hq] using h.live q
  · by_cases hqp : q = p
    · exact absurd hq (hqp ▸ hfree)
    · simpa [hqp] using h.users q hq

theorem Inv.copyConstruct (h : Inv s) {o o' : Nat} (ho : (s.promises o).phase = .unborn)
    (ho' : (s.promises o').phase = .live) : Inv { s.retain (s.promises o').promise with
      promises := update s.promises o { phase := .live, promise := (s.promises o').promise } } := by
  have hv := owned_of_live ho'
  have hpos : ∀ p, (s.promises o').promise = some p → 0 < s.owners p := fun p hp =>
    h.owners.pos (hv.trans hp)
  have hstates : ∀ v, (s.retain v).states = s.states := fun v => by cases v <;> rfl
  have hrest : ∀ v, (s.retain v).futures = s.futures ∧ (s.retain v).destroying = s.destroying ∧
      (s.retain v).sets = s.sets ∧ (s.retain v).stale = s.stale := fun v => by
    cases v <;> exact ⟨rfl, rfl, rfl, rfl⟩
  obtain ⟨hf, hd, hk, hst⟩ := hrest (s.promises o').promise
  refine h.promises hst ?_ (fun p => by rw [hstates]) (retain_live h.live hpos) hf hd hk
    fun p hu => ?_
  · rw [owned_update rfl]
    refine (h.owners.set o (s.promises o').promise).congr (fun _ => rfl) fun q => ?_
    rw [retain_owners, owned_of_unborn ho]
    simp
  · have := (h.live p).mp (h.users p hu)
    show 0 < (s.retain _).owners p
    rw [retain_owners]
    omega

theorem Inv.moveConstruct (h : Inv s) {o o' : Nat} (ho : (s.promises o).phase = .unborn)
    (ho' : (s.promises o').phase = .live) :
    Inv { s.setPtr o' none with
      promises := update (s.setPtr o' none).promises o
        { phase := .live, promise := (s.promises o').promise } } := by
  have hne : o ≠ o' := by
    rintro rfl
    rw [ho] at ho'
    cases ho'
  refine h.promises rfl ?_ (fun _ => rfl) h.live rfl rfl rfl
    fun p hu => (h.live p).mp (h.users p hu)
  refine (h.owners.permute (Equiv.swap o o')).congr (fun d => ?_) fun _ => rfl
  rw [comp_apply]
  by_cases hd : d = o
  · subst hd
    simp [St.owned, Equiv.swap_apply_left, ho']
  · by_cases hd' : d = o'
    · subst hd'
      simp [St.owned, St.setPtr, Equiv.swap_apply_right, ho, ho', hd]
    · simp [St.owned, St.setPtr, Equiv.swap_apply_of_ne_of_ne hd hd', hd, hd']

/-- A pointer on an old state goes. The states that are in use have another owner. -/
theorem Inv.drop (h : Inv s) {s₁ : St T} {v : Option Nat} (hst : s₁.stale = s.stale)
    (hp : ∀ p, (s₁.states p).p = (s.states p).p)
    (hl : ∀ p, (s₁.states p).phase = .live ↔ 0 < s₁.owners p) (hf : s₁.futures = s.futures)
    (hd : s₁.destroying = s.destroying) (hk : s₁.sets = s.sets)
    (hc : Counted s₁.owned fun p => s₁.owners p - (if v = some p then 1 else 0))
    (hspare : ∀ p, Uses s p → (if v = some p then 1 else 0) < s₁.owners p) : Inv (s₁.drop v) := by
  have hrest : (s₁.drop v).futures = s₁.futures ∧ (s₁.drop v).destroying = s₁.destroying ∧
      (s₁.drop v).sets = s₁.sets ∧ (s₁.drop v).stale = s₁.stale ∧
      (s₁.drop v).promises = s₁.promises := by
    cases v <;> exact ⟨rfl, rfl, rfl, rfl, rfl⟩
  obtain ⟨hf', hd', hk', hst', hpr⟩ := hrest
  refine h.promises (hst'.trans hst) ?_ (fun p => by rw [drop_p, hp]) (drop_live hl)
    (hf'.trans hf) (hd'.trans hd) (hk'.trans hk) fun p hu => ?_
  · refine hc.congr (fun o => ?_) (drop_owners v)
    unfold St.owned
    rw [hpr]
  · have := hspare p hu
    rw [drop_owners]
    omega

/-- What `Spares` says of a pointer that goes. -/
theorem spares_lt (h : Inv s) {v : Option Nat} (hs : ∀ p, s.last v = some p → ¬Uses s p)
    (hu : Uses s p) : (if v = some p then 1 else 0) < s.owners p := by
  have hpos := (h.live p).mp (h.users p hu)
  by_cases hv : v = some p
  · have : s.owners p ≠ 1 := fun h1 => hs p (by simp [St.last, hv, h1]) hu
    simp only [hv, if_true]
    omega
  · simpa only [hv, if_false] using hpos

theorem Inv.destruct (h : Inv s) {o : Nat} (ho : (s.promises o).phase = .live)
    (hs : ∀ p, s.last (s.promises o).promise = some p → ¬Uses s p) :
    Inv ({ s with promises := update s.promises o { phase := .dead } }.drop
      (s.promises o).promise) := by
  refine h.drop rfl (fun _ => rfl) h.live rfl rfl rfl ?_ fun p hu => spares_lt h hs hu
  rw [owned_update rfl]
  refine (h.owners.set o none).congr (fun _ => rfl) fun q => ?_
  rw [owned_of_live ho]
  simp

theorem Inv.copyAssign (h : Inv s) {o o' : Nat} (ho : (s.promises o).phase = .live)
    (ho' : (s.promises o').phase = .live) (hs : Spares s (.copyAssign o o')) :
    Inv (((s.retain (s.promises o').promise).setPtr o (s.promises o').promise).drop
      (s.promises o).promise) := by
  have hv := owned_of_live ho'
  have hpos : ∀ p, (s.promises o').promise = some p → 0 < s.owners p := fun p hp =>
    h.owners.pos (hv.trans hp)
  have hrest : ∀ v, (s.retain v).futures = s.futures ∧ (s.retain v).destroying = s.destroying ∧
      (s.retain v).sets = s.sets ∧ (s.retain v).stale = s.stale ∧
      (s.retain v).states = s.states ∧ (s.retain v).promises = s.promises := fun v => by
    cases v <;> exact ⟨rfl, rfl, rfl, rfl, rfl, rfl⟩
  obtain ⟨hf, hd, hk, hst, hstates, hprom⟩ := hrest (s.promises o').promise
  refine h.drop hst (fun p => by rw [St.setPtr, hstates]) (retain_live h.live hpos) hf hd hk ?_
    fun p hu => ?_
  · rw [owned_update (s := s) (o := o)
      (x := { s.promises o with promise := (s.promises o').promise })
      (by rw [St.setPtr, hprom])]
    refine (h.owners.set o (s.promises o').promise).congr (fun _ => by simp [ho]) fun q => ?_
    rw [owned_of_live ho]
    show (s.retain _).owners q - _ = _
    rw [retain_owners]
  · show _ < (s.retain _).owners p
    rw [retain_owners]
    simp only [Spares, orphan] at hs
    by_cases heq : (s.promises o).promise = (s.promises o').promise
    · have := (h.live p).mp (h.users p hu)
      rw [heq]
      omega
    · rw [if_neg heq] at hs
      have := spares_lt h hs hu
      omega

theorem Inv.moveAssign (h : Inv s) {o o' : Nat} (ho : (s.promises o).phase = .live)
    (ho' : (s.promises o').phase = .live) (hs : Spares s (.moveAssign o o')) :
    Inv (((s.setPtr o' none).setPtr o (s.promises o').promise).drop
      ((s.setPtr o' none).promises o).promise) := by
  by_cases hoo : o = o'
  · -- the object gets its own pointer back
    subst hoo
    have hold : ((s.setPtr o none).promises o).promise = none := by simp [St.setPtr]
    rw [hold]
    have hsame : ((s.setPtr o none).setPtr o (s.promises o).promise).promises = s.promises := by
      funext d
      simp [St.setPtr]
    exact h.keep h.stale hsame rfl (fun _ => rfl) (fun _ => ⟨rfl, rfl⟩) fun p hu => .inl hu
  · have hold : ((s.setPtr o' none).promises o).promise = (s.promises o).promise := by
      simp [St.setPtr, hoo]
    rw [hold]
    refine h.drop rfl (fun _ => rfl) h.live rfl rfl rfl ?_ fun p hu => ?_
    · refine ((h.owners.set o none).permute (Equiv.swap o o')).congr (fun d => ?_) fun q => ?_
      · rw [comp_apply]
        by_cases hd : d = o
        · subst hd
          simp [St.owned, St.setPtr, Equiv.swap_apply_left, ho, ho', hoo, Ne.symm hoo]
        · by_cases hd' : d = o'
          · subst hd'
            simp [St.owned, St.setPtr, Equiv.swap_apply_right, hd]
          · simp [St.owned, St.setPtr, Equiv.swap_apply_of_ne_of_ne hd hd', hd, hd']
      · rw [owned_of_live ho]
        simp [St.setPtr]
    · show _ < s.owners p
      simp only [Spares, orphan] at hs
      by_cases heq : (s.promises o).promise = (s.promises o').promise
      · by_cases hp : (s.promises o).promise = some p
        · have := h.owners.two_le hoo ((owned_of_live ho).trans hp)
            ((owned_of_live ho').trans (heq ▸ hp))
          simp only [hp, if_true]
          omega
        · simpa only [hp, if_false] using (h.live p).mp (h.users p hu)
      · rw [if_neg heq] at hs
        exact spares_lt h hs hu

/-! ## The futures and the calls of `set` -/

/-- The state of a step that uses it is alive. -/
theorem Inv.handle_live (h : Inv s) {f : Nat} (hf : s.handle f = some p) :
    (s.states p).phase = .live := h.users p (.inl ⟨f, .inl hf⟩)

theorem Inv.owned_live (h : Inv s) {o : Nat} (ho : s.owned o = some p) :
    (s.states p).phase = .live := (h.live p).mpr (h.owners.pos ho)

theorem Inv.pending_live (h : Inv s) {k : Nat} (hk : s.sets k = .pending p) :
    (s.states p).phase = .live := h.users p (.inr ⟨k, hk⟩)

/-- A step that uses the live state `p`, and changes neither the handles nor the count of them. -/
theorem Inv.use (h : Inv s) (hp : (s.states p).phase = .live) {t : PromiseType T}
    (ht : t.useCount = (s.states p).p.useCount) (hst : s'.stale = (s.touch p).stale)
    (hs : s'.states = ((s.touch p).setState p t).states) (ho : s'.promises = s.promises)
    (hc : s'.owners = s.owners) (hf : s'.futures = s.futures)
    (hd : ∀ f q, s'.destroying f = some q → s.destroying f = some q)
    (hk : ∀ k q, s'.sets k = .pending q → s.sets k = .pending q ∨ q = p) : Inv s' := by
  have hh : ∀ f, s'.handle f = s.handle f := fun f => by unfold St.handle; rw [hf]
  refine h.keep (hst.trans (touch_stale h hp)) ho hc hh (fun q => ?_) fun q hu => ?_
  · rw [hs]
    constructor
    · exact update_proj (m := s.states) (i := p) (v := { s.states p with p := t })
        State.phase rfl q
    · exact update_proj (m := s.states) (i := p) (v := { s.states p with p := t })
        (fun x => x.p.useCount) ht q
  · obtain ⟨f, hf | hf⟩ | ⟨k, hk'⟩ := hu
    · exact .inl (.inl ⟨f, .inl (by rw [← hh]; exact hf)⟩)
    · exact .inl (.inl ⟨f, .inr (hd f q hf)⟩)
    · obtain hk' | rfl := hk k q hk'
      · exact .inl (.inr ⟨k, hk'⟩)
      · exact .inr hp

/-- A step of the future objects. `t` is what it makes of the state `p` that it uses. -/
theorem Inv.futures (h : Inv s) (hp : (s.states p).phase = .live) {t : PromiseType T}
    (hst : s'.stale = (s.touch p).stale) (hs : s'.states = ((s.touch p).setState p t).states)
    (ho : s'.promises = s.promises) (hc : s'.owners = s.owners)
    (hh : Counted s'.handle fun q => (s'.states q).p.useCount)
    (hn : ∀ f q, s'.handle f = some q → (∃ d, s.handle d = some q) ∨ q = p)
    (hd : ∀ f q, s'.destroying f = some q → s.destroying f = some q ∨ q = p)
    (hk : s'.sets = s.sets) : Inv s' := by
  have hphase : ∀ q, (s'.states q).phase = (s.states q).phase := fun q => by
    rw [hs]
    exact update_proj (m := s.states) (i := p) (v := { s.states p with p := t }) State.phase rfl q
  refine ⟨hst.trans (touch_stale h hp), h.owners.congr (fun o => ?_) fun q => by rw [hc], hh,
    fun q => by rw [hphase, hc, h.live], fun q hu => ?_⟩
  · unfold St.owned
    rw [ho]
  · rw [hphase]
    obtain ⟨f, hf | hf⟩ | ⟨k, hk'⟩ := hu
    · obtain ⟨d, hd'⟩ | rfl := hn f q hf
      · exact h.handle_live hd'
      · exact hp
    · obtain hf | rfl := hd f q hf
      · exact h.users q (.inl ⟨f, .inr hf⟩)
      · exact hp
    · exact h.users q (.inr ⟨k, by rw [← hk]; exact hk'⟩)

/-- What future `f` holds after it has changed. -/
theorem handle_update {f : Nat} {x : Future.Object} (hf : s'.futures = update s.futures f x) :
    s'.handle = update s.handle f (if x.phase = .live then x.coro else none) := by
  funext d
  by_cases hd : d = f
  · subst hd
    simp [St.handle, hf]
  · simp [St.handle, hf, hd]

theorem Inv.getFuture (h : Inv s) {o f : Nat} (ho : s.owned o = some p)
    (hf : (s.futures f).phase = .unborn) :
    Inv { (s.touch p).setState p (s.states p).p.addRef with
      futures := update s.futures f { phase := .live, coro := some p } } := by
  have hnone : s.handle f = none := by
    unfold St.handle
    rw [hf]
    rfl
  refine h.futures (h.owned_live ho) rfl rfl rfl rfl ?_ (fun d q hd => ?_) (fun _ _ => .inl) rfl
  · rw [handle_update (s := s) rfl]
    refine (h.handles.set f (some p)).congr (fun _ => rfl) fun q => ?_
    by_cases hq : q = p
    · subst hq
      simp [St.setState, PromiseType.addRef, hnone]
    · simp [St.setState, St.touch, hq, Ne.symm hq, hnone]
  · rw [handle_update (s := s) (f := f) rfl] at hd
    by_cases hdf : d = f
    · subst hdf
      simp at hd
      exact .inr hd.symm
    · rw [update_of_ne hdf] at hd
      exact .inl ⟨d, hd⟩

/-- The futures exchange their handles. -/
theorem Inv.exchange (h : Inv s) {x : Nat → Future.Object} (e : Equiv.Perm Nat)
    (hx : ∀ f, ({ s with futures := x } : St T).handle f = s.handle (e f)) :
    Inv { s with futures := x } := by
  refine ⟨h.stale, h.owners, (h.handles.permute e).congr hx fun _ => rfl, h.live, fun q hu => ?_⟩
  obtain ⟨f, hf | hf⟩ | hk := hu
  · exact h.handle_live ((hx f).symm.trans hf)
  · exact h.users q (.inl ⟨f, .inr hf⟩)
  · exact h.users q (.inr hk)

theorem Inv.futureConstruct (h : Inv s) {f f' : Nat} (hf : (s.futures f).phase = .unborn)
    (hf' : (s.futures f').phase = .live) :
    Inv { s with
      futures := update (update s.futures f { phase := .live, coro := (s.futures f').coro }) f'
        { s.futures f' with coro := none } } := by
  refine h.exchange (Equiv.swap f f') fun d => ?_
  have hne : f ≠ f' := by
    rintro rfl
    rw [hf] at hf'
    cases hf'
  by_cases hd : d = f
  · subst hd
    simp [St.handle, Equiv.swap_apply_left, hf', hne]
  · by_cases hd' : d = f'
    · subst hd'
      simp [St.handle, Equiv.swap_apply_right, hf, hf']
    · simp [St.handle, Equiv.swap_apply_of_ne_of_ne hd hd', hd, hd']

theorem Inv.futureAssign (h : Inv s) {f f' : Nat} (hf : (s.futures f).phase = .live)
    (hf' : (s.futures f').phase = .live) :
    Inv { s with
      futures := update (update s.futures f { s.futures f with coro := (s.futures f').coro }) f'
        { s.futures f' with coro := (s.futures f).coro } } := by
  refine h.exchange (Equiv.swap f f') fun d => ?_
  by_cases hd' : d = f'
  · subst hd'
    simp [St.handle, Equiv.swap_apply_right, hf, hf']
  · by_cases hd : d = f
    · subst hd
      simp [St.handle, Equiv.swap_apply_left, hf, hf', hd']
    · simp [St.handle, Equiv.swap_apply_of_ne_of_ne hd hd', hd, hd']

/-- The destructor of a future gives its handle up. -/
theorem Inv.release (h : Inv s) {f : Nat} (hf : s.handle f = some p) (d : Option Nat)
    (hd : d = some p ∨ d = none) :
    Inv { (s.touch p).setState p (s.states p).p.release.2 with
      futures := update s.futures f { phase := .dead }
      destroying := update s.destroying f d } := by
  refine h.futures (h.handle_live hf) rfl rfl rfl rfl ?_ (fun a q ha => ?_) (fun a q ha => ?_) rfl
  · rw [handle_update (s := s) rfl]
    refine (h.handles.set f none).congr (fun _ => rfl) fun q => ?_
    by_cases hq : q = p
    · subst hq
      simp [St.setState, PromiseType.release, hf]
    · simp [St.setState, St.touch, hq, Ne.symm hq, hf]
  · rw [handle_update (s := s) (f := f) rfl] at ha
    by_cases haf : a = f
    · subst haf
      simp at ha
    · rw [update_of_ne haf] at ha
      exact .inl ⟨a, ha⟩
  · by_cases haf : a = f
    · subst haf
      simp only [update_self] at ha
      obtain rfl | rfl := hd
      · exact .inr (Option.some.inj ha).symm
      · cases ha
    · simp only [update_of_ne haf] at ha
      exact .inl ha

/-- A step that uses the live state `p` and changes none of its fields. -/
theorem Inv.look (h : Inv s) (hp : (s.states p).phase = .live)
    (hst : s'.stale = (s.touch p).stale) (hs : s'.states = s.states)
    (ho : s'.promises = s.promises) (hc : s'.owners = s.owners) (hf : s'.futures = s.futures)
    (hd : s'.destroying = s.destroying) (hk : s'.sets = s.sets) : Inv s' := by
  refine h.use hp (t := (s.states p).p) rfl hst ?_ ho hc hf (fun f q hq => by rw [← hd]; exact hq)
    fun k q hq => .inl (by rw [← hk]; exact hq)
  rw [hs]
  exact (update_eq_self p s.states).symm

theorem startAsync_useCount {t t' : PromiseType T} {c : Cont} {b : Bool}
    (h : t.startAsync c = some (b, t')) : t'.useCount = t.useCount := by
  simp only [PromiseType.startAsync] at h
  split at h
  · cases h
    rfl
  · split at h
    · cases h
    · cases h
      rfl

theorem get_useCount {t t' : PromiseType T} {r : Except ExceptionPtr T}
    (h : t.get = some (r, t')) : t'.useCount = t.useCount := by
  simp only [PromiseType.get] at h
  split at h <;> cases h <;> rfl

theorem Inv.consume (h : Inv s) {f : Nat} (hf : s.handle f = some p)
    (hst : consume s f p = some s') : Inv s' := by
  have hp := h.handle_live hf
  simp only [Promise.consume] at hst
  split at hst
  · split at hst
    · cases hst
      exact h.look hp rfl rfl rfl rfl rfl rfl rfl
    · rename_i suspends t ht
      have hu : t.useCount = (s.states p).p.useCount := startAsync_useCount ht
      cases hst
      exact h.use hp (t := { t with lock := none }) hu rfl rfl rfl rfl rfl
        (fun _ _ => id) (fun _ _ => .inl)
  · split at hst
    · cases hst
    · split at hst
      · cases hst
        exact h.look hp rfl rfl rfl rfl rfl rfl rfl
      · cases hst
        exact h.use hp (t := { (s.states p).p with lock := some .consumer }) rfl rfl rfl rfl rfl
          rfl (fun _ _ => id) (fun _ _ => .inl)
  · split at hst
    · cases hst
      exact h.look hp rfl rfl rfl rfl rfl rfl rfl
    · rename_i suspends t ht
      have hu : t.useCount = (s.states p).p.useCount := startAsync_useCount ht
      cases hst
      exact h.use hp (t := { t with lock := none }) hu rfl rfl rfl rfl rfl
        (fun _ _ => id) (fun _ _ => .inl)
  · split at hst
    · cases hst
      exact h.keep h.stale rfl rfl (fun _ => rfl) (fun _ => ⟨rfl, rfl⟩) fun _ => .inl
    · cases hst
  · split at hst
    · cases hst
      exact h.look hp rfl rfl rfl rfl rfl rfl rfl
    · rename_i ht
      cases hst
      exact h.use hp (get_useCount ht) rfl rfl rfl rfl rfl (fun _ _ => id) (fun _ _ => .inl)
  · cases hst
  · cases hst

theorem Inv.background (h : Inv s) {k : Nat} (hk : s.sets k = .pending p) :
    Inv (background s k p) := by
  refine h.use (h.pending_live hk) (t := { (s.states p).p.checkResume.2 with lock := none }) rfl
    rfl rfl rfl rfl rfl (fun _ _ => id) fun a q ha => .inl ?_
  by_cases hak : a = k
  · subst hak
    simp only [Promise.background, update_self] at ha
    split at ha <;> cases ha
  · simpa [Promise.background, hak] using ha

theorem Inv.resume (h : Inv s) {k : Nat} {c : Cont} :
    Inv { resume s c with sets := update s.sets k .done } := by
  have hsets : ∀ a q, update s.sets k .done a = .pending q → s.sets a = .pending q := by
    intro a q ha
    by_cases hak : a = k
    · subst hak
      simp at ha
    · simpa [hak] using ha
  have hrest : (Promise.resume s c).stale = s.stale ∧ (Promise.resume s c).promises = s.promises ∧
      (Promise.resume s c).owners = s.owners ∧ (Promise.resume s c).futures = s.futures ∧
      (Promise.resume s c).states = s.states ∧
      (Promise.resume s c).destroying = s.destroying := by
    cases c <;> simp only [Promise.resume] <;> split <;> exact ⟨rfl, rfl, rfl, rfl, rfl, rfl⟩
  obtain ⟨h1, h2, h3, h4, h5, h6⟩ := hrest
  refine h.keep (h1.trans h.stale) h2 h3 (fun f => ?_) (fun q => by simp only [h5, and_self])
    fun q hu => .inl ?_
  · simp only [St.handle, h4]
  · obtain ⟨f, hf⟩ | ⟨a, ha⟩ := hu
    · exact .inl ⟨f, by simpa only [St.handle, h4, h6] using hf⟩
    · exact .inr ⟨a, hsets a q ha⟩

theorem Inv.set (h : Inv s) {o k p : Nat} {value : Slot T} (ho : s.owned o = some p) :
    Inv { (s.touch p).setState p { (s.states p).p with lock := some .completer, value } with
      sets := update s.sets k (.pending p) } := by
  refine h.use (h.owned_live ho) (t := { (s.states p).p with lock := some .completer, value }) rfl
    rfl rfl rfl rfl rfl (fun _ _ => id) fun a q ha => ?_
  by_cases hak : a = k
  · subst hak
    simp at ha
    exact .inr ha.symm
  · exact .inl (by simpa [hak] using ha)

theorem Inv.releaseNull (h : Inv s) {f : Nat} (hc : (s.futures f).coro = none) :
    Inv { s with futures := update s.futures f { phase := .dead } } := by
  refine h.exchange (Equiv.refl _) fun d => ?_
  by_cases hd : d = f
  · subst hd
    simp [St.handle, hc]
  · simp only [St.handle, update_of_ne hd, Equiv.refl_apply]
    rfl

theorem Inv.destroy (h : Inv s) {f : Nat} (hd : s.destroying f = some p) :
    Inv { (s.touch p).setState p (s.states p).p.destroy.2 with
      destroying := update s.destroying f none } := by
  refine h.use (h.users p (.inl ⟨f, .inr hd⟩)) (t := (s.states p).p.destroy.2) rfl rfl rfl rfl rfl
    rfl (fun a q ha => ?_) (fun _ _ => .inl)
  by_cases haf : a = f
  · subst haf
    simp at ha
  · simpa [haf] using ha

theorem step_inv (h : Inv s) {e : Ev T} (hs : Spares s e) (hst : step s e = some s') : Inv s' := by
  cases step_move hst with
  | construct o p ho hp => exact h.construct ho hp
  | copyConstruct o o' ho ho' => exact h.copyConstruct ho ho'
  | moveConstruct o o' ho ho' => exact h.moveConstruct ho ho'
  | copyAssign o o' ho ho' => exact h.copyAssign ho ho' hs
  | moveAssign o o' ho ho' => exact h.moveAssign ho ho' hs
  | destruct o ho => exact h.destruct ho hs
  | getFuture o f p ho hf => exact h.getFuture ho hf
  | set o k p value ho => exact h.set ho
  | background k p hk => exact h.background hk
  | resume k c => exact h.resume
  | futureConstruct f f' hf hf' => exact h.futureConstruct hf hf'
  | futureAssign f f' hf hf' => exact h.futureAssign hf hf'
  | releaseNull f hf _ hc => exact h.releaseNull hc
  | release f p hf =>
    refine h.release hf _ ?_
    split
    · exact .inl rfl
    · exact .inr rfl
  | destroy f p hd => exact h.destroy hd
  | isReady f p hf => exact h.look (h.handle_live hf) rfl rfl rfl rfl rfl rfl rfl
  | await f p hf => exact h.look (h.handle_live hf) rfl rfl rfl rfl rfl rfl rfl
  | unready f p hf =>
    exact h.use (h.handle_live hf) (t := { (s.states p).p with lock := some .consumer }) rfl rfl
      rfl rfl rfl rfl (fun _ _ => id) (fun _ _ => .inl)
  | wait f p isGet hf => exact h.look (h.handle_live hf) rfl rfl rfl rfl rfl rfl rfl
  | spawn f p isGet hf => exact h.look (h.handle_live hf) rfl rfl rfl rfl rfl rfl rfl
  | consume f p s' hf hst => exact h.consume hf hst
  | misuse f => exact h.keep h.stale rfl rfl (fun _ => rfl) (fun _ => ⟨rfl, rfl⟩) fun _ => .inl

end Steps

theorem inductive_inv : (sys T).Inductive Spares Inv :=
  ⟨Inv.init, fun _ _ _ h hok hst => step_inv h hok hst⟩

/-! ## Result -/

/-- **The state outlives its users** in every run that never takes the last `promise<T>` from a
state that is in use. -/
theorem outlives {s : St T} (hs : (sys T).ReachBy Spares s) : Outlives s :=
  (inductive_inv.reach hs).sound

/-- A promise is copied, moved and set, and its future is awaited and destroyed. Then the last
promise may go. -/
def orderly : List (Ev Nat) :=
  [.construct 0 0, .getFuture 0 0, .copyConstruct 1 0, .destruct 0, .moveConstruct 2 1, .await 0,
    .consume 0, .set 2 0 (.value 42), .background 0, .resume 0, .consume 0, .release 0, .destroy 0]

theorem reach_orderly : (sys Nat).ReachBy Spares ((sys Nat).after orderly) := by
  have h : (sys Nat).ReachBy (fun s e => decide (orphan s e = none) = true)
      ((sys Nat).after orderly) := Sys.reachBy_meets (by decide)
  refine h.mono fun s e hok p hp => ?_
  rw [decide_eq_true_iff] at hok
  rw [hok] at hp
  cases hp

theorem spares_orderly : Spares ((sys Nat).after orderly) (.destruct 2) := by
  intro p hp
  cases hp
  rintro (⟨f, hf | hf⟩ | ⟨k, hk⟩)
  · cases f with
    | zero => cases hf
    | succ f => cases hf
  · cases f with
    | zero => cases hf
    | succ f => cases hf
  · cases k with
    | zero => cases hk
    | succ k => cases hk

theorem outlives_orderly : Outlives ((sys Nat).after (orderly ++ [.destruct 2])) :=
  outlives (.step (.destruct 2) reach_orderly spares_orderly rfl)

/-- A function sets its local promise and returns the future: the promise is gone before the
background half runs. -/
def early : List (Ev Nat) :=
  [.construct 0 0, .getFuture 0 0, .set 0 0 (.value 42), .destruct 0, .background 0]

theorem outlives_early :
    (sys Nat).Reach ((sys Nat).after early) ∧ ¬Outlives ((sys Nat).after early) :=
  ⟨Sys.reach_after rfl, fun h => absurd h.1 (by decide)⟩

end Promise

end Corsl
