import Corsl.Conc.Diamond
import Corsl.Coroutine.Body

/-!
# Coroutines over ideal futures

What futures are for: each coroutine goes on by itself, an outcome is written once and can be read
from then on. `Ideal.sys main` interleaves the steps of all coroutines; a step of a coroutine is the
next thing that its body does, as a whole.

Two steps of different coroutines commute (`diamond`), so a program that comes to its end in one
schedule comes to the same end in all of them. `sync_exec`: the schedule that runs each callee to
its end at once is the plain program `Body.sync`.
-/

namespace Corsl

open Conc Function

namespace Coroutine

namespace Ideal

variable {V : Type}

/-- The coroutines and their futures. A coroutine without a body has not been called, or has
ended. -/
structure St (V : Type) where
  body : Id → Option (Body V)
  calls : Id → Nat := fun _ => 0
  store : Store V := {}

/-- Coroutine `c` waits for `f`, and goes on with `rest`. -/
def St.ask (s : St V) (c f : Id) (rest : Outcome V → Body V) : Option (St V) :=
  match s.store.out f with
  | some o => some { s with body := update s.body c (some (rest o)), store := s.store.ask f }
  | none => none

/-- The next step of coroutine `c`. -/
def step (s : St V) (c : Id) : Option (St V) :=
  match s.body c with
  | none => none
  | some (.ret o) => some { s with body := update s.body c none, store := s.store.finish c o }
  | some (.coAwait f rest) | some (.get f rest) => s.ask c f rest
  | some (.wait f rest) => s.ask c f fun _ => rest
  | some (.call body rest) =>
    let child := s.calls c :: c
    some { s with
      body := update (update s.body c (some (rest child))) child (some body)
      calls := update s.calls c (s.calls c + 1) }

/-- The coroutine `main`, and those that it calls. -/
def sys (main : Body V) : Sys (St V) Id :=
  ⟨{ body := update (fun _ => none) [] (some main) }, step⟩

/-- Every coroutine that was called has ended. -/
def St.Ended (s : St V) : Prop := ∀ c, s.body c = none

/-- What has not been called is fresh, who has not ended has no outcome, and who was asked has
one. -/
structure Fresh (s : St V) : Prop where
  child : ∀ c n, s.calls c ≤ n →
    s.body (n :: c) = none ∧ s.store.out (n :: c) = none ∧ s.calls (n :: c) = 0
  out : ∀ c, s.body c ≠ none → s.store.out c = none
  asked : ∀ f ∈ s.store.asked, s.store.out f ≠ none

/-- The steps of a coroutine, with what they find and leave. -/
inductive Move (s : St V) (c : Id) : St V → Prop
  | ret (o : Outcome V) : s.body c = some (.ret o) →
    Move s c { s with body := update s.body c none, store := s.store.finish c o }
  | ask (b : Body V) (f : Id) (o : Outcome V) : s.body c = some b → b.future = some f →
    s.store.out f = some o →
    Move s c { s with body := update s.body c (some (b.resume o)), store := s.store.ask f }
  | call (body : Body V) (rest : Id → Body V) : s.body c = some (.call body rest) →
    Move s c { s with
      body := update (update s.body c (some (rest (s.calls c :: c)))) (s.calls c :: c) (some body)
      calls := update s.calls c (s.calls c + 1) }

theorem step_ask {s : St V} {c f : Id} {b : Body V} {o : Outcome V} (hb : s.body c = some b)
    (hf : b.future = some f) (ho : s.store.out f = some o) :
    step s c =
      some { s with body := update s.body c (some (b.resume o)), store := s.store.ask f } := by
  cases b <;> cases hf <;> simp [step, hb, St.ask, ho, Body.resume]

theorem step_move {s s' : St V} {c : Id} (h : step s c = some s') : Move s c s' := by
  have ask : ∀ b f, s.body c = some b → b.future = some f →
      s.ask c f (fun o => b.resume o) = some s' → Move s c s' := by
    intro b f hb hf ha
    unfold St.ask at ha
    split at ha <;> cases ha
    rename_i o ho
    exact .ask b f o hb hf ho
  unfold step at h
  split at h
  · cases h
  · rename_i o hb
    cases h
    exact .ret o hb
  · rename_i f rest hb
    exact ask _ f hb rfl h
  · rename_i f rest hb
    exact ask _ f hb rfl h
  · rename_i f rest hb
    exact ask _ f hb rfl h
  · rename_i body rest hb
    cases h
    exact .call body rest hb

theorem move_step {s s' : St V} {c : Id} (h : Move s c s') : step s c = some s' := by
  cases h with
  | ret o hb => simp [step, hb]
  | ask b f o hb hf ho => exact step_ask hb hf ho
  | call body rest hb => simp [step, hb]

theorem Move.body {s s' : St V} {c : Id} (h : Move s c s') : s.body c ≠ none := by
  cases h with
  | ret o hb => simp [hb]
  | ask b f o hb => simp [hb]
  | call body rest hb => simp [hb]

theorem Fresh.init (main : Body V) : Fresh (sys main).init := by
  constructor <;> simp [sys]

theorem Fresh.move {s s' : St V} {c : Id} (h : Fresh s) (hm : Move s c s') : Fresh s' := by
  have hcons : ∀ n (d : Id), n :: d ≠ d := fun n d => List.cons_ne_self n d
  obtain ⟨hchild, hout, hasked⟩ := h
  cases hm with
  | ret o hb =>
    simp only [Store.finish]
    constructor <;> grind
  | ask b f o hb hf ho =>
    simp only [Store.ask]
    constructor <;> grind
  | call body rest hb => constructor <;> grind

/-- A step of another coroutine leaves the body of `d` alone. -/
theorem Move.body_other {s s' : St V} {c d : Id} (h : Fresh s) (hm : Move s c s') (hd : d ≠ c)
    (hb : s.body d ≠ none) : s'.body d = s.body d := by
  cases hm with
  | ret o hc => exact update_of_ne hd _ _
  | ask b f o hc => exact update_of_ne hd _ _
  | call body rest hc =>
    have hn : d ≠ s.calls c :: c := fun he => hb (he ▸ (h.child c _ le_rfl).1)
    exact (update_of_ne hn _ _).trans (update_of_ne hd _ _)

/-- An outcome stays. -/
theorem Move.out_mono {s s' : St V} {c f : Id} {o : Outcome V} (h : Fresh s) (hm : Move s c s')
    (ho : s.store.out f = some o) : s'.store.out f = some o := by
  cases hm with
  | ret o' hc =>
    have hf : f ≠ c := fun he => by
      have := h.out c (by simp [hc])
      rw [← he, ho] at this
      cases this
    exact (update_of_ne hf _ _).trans ho
  | ask b f' o' hc => exact ho
  | call body rest hc => exact ho

/-- Steps of different coroutines commute. -/
theorem Move.comm {s t t' : St V} {c d : Id} (h : Fresh s) (hne : c ≠ d) (hc : Move s c t)
    (hd : Move s d t') : ∃ u, step t d = some u ∧ step t' c = some u := by
  have hbd := hc.body_other h hne.symm hd.body
  have hbc := hd.body_other h hne hc.body
  have hot : ∀ f o, s.store.out f = some o → t.store.out f = some o := fun f o => hc.out_mono h
  have hot' : ∀ f o, s.store.out f = some o → t'.store.out f = some o := fun f o => hd.out_mono h
  have hchild : ∀ e, s.body e ≠ none → ∀ x, s.calls x :: x ≠ e := fun e he x hx =>
    he (hx ▸ (h.child x _ le_rfl).1)
  have hnone : ∀ e b, s.body e = some b → s.body e ≠ none := fun e b he => by simp [he]
  cases hc with
  | ret o hb =>
    cases hd with
    | ret o' hb' =>
      refine ⟨_, move_step (.ret o' (hbd.trans hb')), ?_⟩
      rw [move_step (.ret o (hbc.trans hb))]
      simp only [Store.finish, update_comm hne]
    | ask b f o' hb' hf ho =>
      refine ⟨_, step_ask (hbd.trans hb') hf (hot f o' ho), ?_⟩
      rw [move_step (.ret o (hbc.trans hb))]
      simp only [Store.finish, Store.ask, update_comm hne]
    | call body rest hb' =>
      refine ⟨_, move_step (.call body rest (hbd.trans hb')), ?_⟩
      rw [move_step (.ret o (hbc.trans hb))]
      simp only [Store.finish, update_comm hne, update_comm (hchild c (hnone c _ hb) d)]
  | ask b f o hb hf ho =>
    cases hd with
    | ret o' hb' =>
      refine ⟨_, move_step (.ret o' (hbd.trans hb')), ?_⟩
      rw [step_ask (hbc.trans hb) hf (hot' f o ho)]
      simp only [Store.finish, Store.ask, update_comm hne]
    | ask b' f' o' hb' hf' ho' =>
      refine ⟨_, step_ask (hbd.trans hb') hf' (hot f' o' ho'), ?_⟩
      rw [step_ask (hbc.trans hb) hf (hot' f o ho)]
      simp only [Store.ask, update_comm hne, Multiset.cons_swap f]
    | call body rest hb' =>
      refine ⟨_, move_step (.call body rest (hbd.trans hb')), ?_⟩
      rw [step_ask (hbc.trans hb) hf (hot' f o ho)]
      simp only [Store.ask, update_comm hne, update_comm (hchild c (hnone c _ hb) d)]
  | call body rest hb =>
    cases hd with
    | ret o' hb' =>
      refine ⟨_, move_step (.ret o' (hbd.trans hb')), ?_⟩
      rw [move_step (.call body rest (hbc.trans hb))]
      simp only [Store.finish, update_comm hne, update_comm (hchild d (hnone d _ hb') c)]
    | ask b' f' o' hb' hf' ho' =>
      refine ⟨_, step_ask (hbd.trans hb') hf' (hot f' o' ho'), ?_⟩
      rw [move_step (.call body rest (hbc.trans hb))]
      simp only [Store.ask, update_comm hne, update_comm (hchild d (hnone d _ hb') c)]
    | call body' rest' hb' =>
      refine ⟨_, move_step (.call body' rest' (hbd.trans hb')), ?_⟩
      rw [move_step (.call body rest (hbc.trans hb))]
      have hcc : s.calls c :: c ≠ s.calls d :: d := fun he => hne (List.cons.inj he).2
      simp only [update_comm hne, update_comm (hchild d (hnone d _ hb') c), update_comm hcc,
        update_comm (hchild c (hnone c _ hb) d).symm, update_of_ne hne, update_of_ne hne.symm]

theorem diamond (main : Body V) : (sys main).Diamond Fresh :=
  ⟨fun _ _ _ h hst => h.move (step_move hst),
    fun _ _ _ _ _ h hne hc hd => (step_move hc).comm h hne (step_move hd)⟩

/-! ## The plain program is one of the schedules -/

/-- Coroutine `c` is at its end, and nothing else goes on that did not before. -/
structure Synced (s : St V) (c : Id) (o : Outcome V) (st : Store V) (t : St V) : Prop where
  fresh : Fresh t
  ret : t.body c = some (.ret o)
  store : t.store = st
  body : ∀ d, d ≠ c → t.body d = s.body d
  calls : ∀ d, d ≠ c → s.body d ≠ none → t.calls d = s.calls d

/-- The body `b` is run as the plain program says. -/
def Syncs (main b : Body V) : Prop :=
  ∀ c n s o st, Fresh s → s.body c = some b → s.calls c = n →
    b.sync c n s.store = some (o, st) →
    ∃ es t, (sys main).exec s es = some t ∧ Synced s c o st t

theorem Syncs.ask {main b : Body V} {f : Id} (hf : b.future = some f)
    (h : ∀ r, Syncs main (b.resume r)) : Syncs main b := by
  intro c n s o st hs hb hn hsync
  rw [Body.sync_ask hf] at hsync
  obtain ⟨r, hr, hsync⟩ := Option.bind_eq_some_iff.mp hsync
  have hm : Move s c _ := .ask b f r hb hf hr
  obtain ⟨es, t, he, ht⟩ := h r c n _ o st (hs.move hm) (update_self ..) hn hsync
  refine ⟨c :: es, t, Sys.exec_cons (move_step hm) he, ht.fresh, ht.ret, ht.store, ?_, ?_⟩
  · exact fun d hd => (ht.body d hd).trans (update_of_ne hd _ _)
  · exact fun d hd hbd => ht.calls d hd (by simpa [update_of_ne hd] using hbd)

theorem Syncs.call {main body : Body V} {rest : Id → Body V} (h : Syncs main body)
    (h' : ∀ f, Syncs main (rest f)) : Syncs main (.call body rest) := by
  intro c n s o st hs hb hn hsync
  subst hn
  -- the call, the callee up to its end, its end, and then the rest
  have hchild := hs.child c _ le_rfl
  generalize hd : s.calls c :: c = d at hchild
  have hcd : c ≠ d := fun he => by simp [← he, hb] at hchild
  simp only [Body.sync, hd] at hsync
  split at hsync
  · rename_i o₁ st₁ hsync₁
    have hm : Move s c _ := .call body rest hb
    rw [hd] at hm
    obtain ⟨es₁, t₁, he₁, ht₁⟩ := h d 0 _ o₁ st₁ (hs.move hm) (update_self ..)
      (by simp [update_of_ne hcd.symm, hchild]) hsync₁
    have hm₁ : Move t₁ d _ := .ret o₁ ht₁.ret
    have hc₁ : t₁.body c = some (rest d) := by rw [ht₁.body c hcd]; simp [hcd]
    obtain ⟨es₂, t, he₂, ht⟩ := h' d c _ _ o st (ht₁.fresh.move hm₁)
      ((update_of_ne hcd _ _).trans hc₁) rfl (by
        rw [ht₁.calls c hcd (by simp [hcd])]
        simpa [ht₁.store] using hsync)
    refine ⟨c :: (es₁ ++ d :: es₂), t, Sys.exec_cons (move_step hm)
      (Sys.exec_append he₁ (Sys.exec_cons (move_step hm₁) he₂)), ht.fresh, ht.ret, ht.store, ?_, ?_⟩
    · intro e he
      rw [ht.body e he]
      by_cases hed : e = d
      · simp [hed, hchild]
      · simp [hed, he, ht₁.body e hed]
    · intro e he hbe
      have hed : e ≠ d := fun hed => hbe (by rw [hed]; exact hchild.1)
      have h₁ : t₁.body e = s.body e := by rw [ht₁.body e hed]; simp [hed, he]
      rw [ht.calls e he (by simpa [hed, h₁] using hbe)]
      refine (ht₁.calls e hed (by simpa [hed, he] using hbe)).trans ?_
      simp [he]
  · cases hsync

/-- The schedule that runs each callee to its end at once. -/
theorem syncs (main b : Body V) : Syncs main b := by
  induction b with
  | ret r =>
    intro c n s o st hs hb hn hsync
    cases hsync
    exact ⟨[], s, rfl, hs, hb, rfl, fun _ _ => rfl, fun _ _ _ => rfl⟩
  | coAwait f rest ih => exact .ask rfl ih
  | get f rest ih => exact .ask rfl ih
  | wait f rest ih => exact .ask rfl fun _ => ih
  | call body rest ih ih' => exact .call ih ih'

/-- A plain program that comes to its end is a schedule in which every coroutine does. -/
theorem sync_exec {main : Body V} {o : Outcome V} {st : Store V}
    (h : main.sync [] 0 {} = some (o, st)) :
    ∃ es t, (sys main).exec (sys main).init es = some t ∧ t.Ended ∧ t.store = st.finish [] o := by
  obtain ⟨es, t, he, ht⟩ := syncs main main [] 0 (sys main).init o st (.init main)
    (by simp [sys]) rfl h
  have hm : Move t [] _ := .ret o ht.ret
  refine ⟨es ++ [[]], _, Sys.exec_append he (Sys.exec_cons (move_step hm) rfl), fun c => ?_, ?_⟩
  · by_cases hc : c = []
    · simp [hc]
    · simp [hc, ht.body c hc, sys]
  · simp [ht.store]

/-! ## On the way to an end -/

variable {main : Body V} {s s' t : St V} {c d f : Id}

theorem Ended.stuck (h : t.Ended) : (sys main).Stuck t := fun c => by simp [sys, step, h c]

/-- Coroutine `c` waits for `f`. -/
def St.Asks (s : St V) (c f : Id) : Prop := ∃ b, s.body c = some b ∧ b.future = some f

/-- Coroutines that wait for `f` ask it later, or still wait for it. -/
theorem count_asks {es : List Id} (h : Fresh s) (he : (sys main).exec s es = some t) {l : List Id}
    (hl : l.Nodup) (ha : ∀ c ∈ l, s.Asks c f) :
    ∃ l' : List Id, l'.Nodup ∧ (∀ c ∈ l', t.Asks c f) ∧
      s.store.asked.count f + l.length ≤ t.store.asked.count f + l'.length := by
  induction es generalizing s l with
  | nil =>
    cases he
    exact ⟨l, hl, ha, le_rfl⟩
  | cons e es ih =>
    obtain ⟨u, hu, he'⟩ := Option.bind_eq_some_iff.mp he
    have hm := step_move hu
    -- the others still wait for `f`
    have hkeep : ∀ c ∈ l.erase e, u.Asks c f := by
      intro c hc
      have hce : c ≠ e := fun hce => hl.not_mem_erase (hce ▸ hc)
      obtain ⟨b, hb, hf⟩ := ha c (List.mem_of_mem_erase hc)
      exact ⟨b, (hm.body_other h hce (by simp [hb])).trans hb, hf⟩
    obtain ⟨l', hl', ha', hih⟩ := ih (h.move hm) he' (hl.erase e) hkeep
    refine ⟨l', hl', ha', ?_⟩
    by_cases hmem : e ∈ l
    · obtain ⟨b, hb, hf⟩ := ha e hmem
      have hpos := List.length_pos_of_mem hmem
      have hlen := List.length_erase_of_mem hmem
      have hcount : u.store.asked.count f = s.store.asked.count f + 1 := by
        cases hm with
        | ret o hb' => rw [hb] at hb'; cases hb'; cases hf
        | ask b' f' o hb' hf' =>
          rw [hb] at hb'
          cases hb'
          cases hf.symm.trans hf'
          simp [Store.ask]
        | call body rest hb' => rw [hb] at hb'; cases hb'; cases hf
      omega
    · rw [List.erase_of_not_mem hmem] at hih
      have hcount : s.store.asked.count f ≤ u.store.asked.count f := by
        cases hm with
        | ret o => exact le_rfl
        | ask b' f' o => exact Multiset.count_le_of_le f (Multiset.le_cons_self ..)
        | call body rest => exact le_rfl
      omega

/-- Who waits in a state that is stuck waits for a future without outcome. -/
theorem Asks.unset (ht : (sys main).Stuck t) (ha : t.Asks c f) : t.store.out f = none := by
  obtain ⟨b, hb, hf⟩ := ha
  by_contra hn
  obtain ⟨o, ho⟩ := Option.ne_none_iff_exists'.mp hn
  have hst : step t c = none := ht c
  rw [step_ask hb hf ho] at hst
  cases hst

/-- Each future was asked once at most, and nobody waits for one that somebody else waits for. -/
structure Once (t : St V) : Prop where
  asked : t.store.asked.Nodup
  alone : ∀ c d f, t.Asks c f → t.Asks d f → c = d

/-- The state `s` lies on the way to `t`, where nothing goes on and each future has been asked once
at most. -/
structure Towards (main : Body V) (t s : St V) : Prop where
  fresh : Fresh s
  leads : ∃ es, (sys main).exec s es = some t
  stuck : (sys main).Stuck t
  once : Once t

theorem exec_fresh {es : List Id} (h : Fresh s) (he : (sys main).exec s es = some t) : Fresh t :=
  Sys.exec_keep (S := sys main) (fun _ _ _ hf hst => hf.move (step_move hst)) h he

namespace Towards

theorem step (h : Towards main t s) (hst : Ideal.step s c = some s') : Towards main t s' := by
  obtain ⟨es, he⟩ := h.leads
  obtain ⟨es', -, he'⟩ := (diamond main).step_first h.fresh he h.stuck hst
  exact ⟨h.fresh.move (step_move hst), ⟨es', he'⟩, h.stuck, h.once⟩

/-- Who has asked a future, and who waits for it, are one. -/
theorem count_le (h : Towards main t s) {l : List Id} (hl : l.Nodup) (ha : ∀ c ∈ l, s.Asks c f) :
    s.store.asked.count f + l.length ≤ 1 := by
  obtain ⟨es, he⟩ := h.leads
  obtain ⟨l', hl', ha', hle⟩ := count_asks h.fresh he hl ha
  have hcount := Multiset.nodup_iff_count_le_one.mp h.once.asked f
  cases l' with
  | nil =>
    simp only [List.length_nil] at hle
    omega
  | cons c l' =>
    -- at the end somebody waits for it, so nobody has got its outcome
    have hc := ha' c (by simp)
    have hzero : t.store.asked.count f = 0 := by
      rw [Multiset.count_eq_zero]
      exact fun hf => (exec_fresh h.fresh he).asked f hf (Asks.unset h.stuck hc)
    have hnil : l' = [] := by
      rw [List.eq_nil_iff_forall_not_mem]
      intro d hd
      have := h.once.alone c d f hc (ha' d (by simp [hd]))
      exact (List.nodup_cons.mp hl').1 (this ▸ hd)
    simp only [hnil, List.length_cons, List.length_nil] at hle
    omega

/-- Nobody else waits for a future that somebody waits for. -/
theorem unique (h : Towards main t s) (hc : s.Asks c f) (hd : s.Asks d f) : c = d := by
  by_contra hne
  have := h.count_le (l := [c, d]) (f := f) (by simp [hne]) (by simp [hc, hd])
  simp at this

/-- Nobody has asked a future that somebody waits for. -/
theorem not_asked (h : Towards main t s) (hc : s.Asks c f) : f ∉ s.store.asked := by
  intro hf
  have := h.count_le (l := [c]) (f := f) (by simp) (by simp [hc])
  have := Multiset.count_pos.mpr hf
  simp only [List.length_singleton] at *
  omega

end Towards

end Ideal

end Coroutine

end Corsl
