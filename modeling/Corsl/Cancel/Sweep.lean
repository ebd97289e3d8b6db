import Corsl.Cancel.Forest
import Corsl.Cancel.Owners
import Corsl.Cancel.Subscriptions
import Corsl.Conc.History

/-!
# What any number of calls of `cancel` leave behind

From a state in which no call is in progress and no living source is cancelled (`Fresh`), any calls
of `cancel` on any threads, interleaved in any order; no source and no token is created or destroyed
in the meantime (`cancels`).

* `sweeping`: these runs, with the sources that `cancel` is called on and the tokens that
  `cancellation_token::cancel` is called on.
* `Hit`: a source in the subtree of one that `cancel` is called on.
* `Inside`: the calls are on sources that are hit, and nothing else changes.
* `Closed`: a child of a cancelled source is cancelled, or on the list of the call that cancels its
  parent; a cancelled source has no list of its own any more.
* `Counted`: a token's flag is set by the one `cancellation_token::cancel` on it.

When all calls have returned, the state is the one that `Swept` says, which depends on the set of
the sources that `cancel` was called on, not on the order or number of the calls.
-/

namespace Corsl

open Conc Function Relation

namespace Cancel

/-- Source `c` lives, and was made from `b`. -/
def Connected (s : St) (b c : Nat) : Prop := Edge s b c ∧ (s.bodies c).refs ≠ []

/-- The source lives. -/
def Live (s : St) (b : Nat) : Prop := (s.bodies b).phase = .ready ∧ (s.bodies b).refs ≠ []

/-- What a step calls, or is part of. -/
inductive Note where
  /-- `cancel` on a source of body `b`. -/
  | root (b : Nat)
  /-- `cancellation_token::cancel` on token `t`. -/
  | token (t : Nat)
  /-- A constructor or destructor of a subscription to token `t`. -/
  | subscription (t : Nat)
  deriving DecidableEq, Repr

def notes (s : St) : Ev → List Note
  | .cancel b _ => [.root b]
  | .call k =>
    match (s.calls k).pc with
    | .tokens (t :: _) => [.token t]
    | _ => []
  | .subBegin _ t => [.subscription t]
  | .subCheck u | .subAdd u | .subRemove u | .subDone u => [.subscription (s.subs u).token]
  | _ => []

/-- The steps of calls of `cancel`, and those of subscriptions and callbacks. -/
def cancels : Ev → Bool
  | .cancel _ _ | .call _ | .nest _ _ => true
  | .subBegin _ _ | .subCheck _ | .subAdd _ | .subRemove _ | .subDone _ | .callback _
  | .complete _ => true
  | .newSource _ | .copySource _ | .dropSource _ | .connect _ _ | .link _ => false
  | .tokenBegin _ _ _ | .tokenRead _ | .tokenCheck _ | .tokenAdd _ | .tokenRemove _
  | .tokenRelease _ => false

/-- The runs from `s₀` on. -/
def sweeping (s₀ : St) : Sys (St × List Note) Ev := (⟨s₀, step⟩ : Sys St Ev).logged notes

/-- No call is in progress, and no source that lives is cancelled. -/
structure Fresh (s₀ : St) : Prop where
  reach : sys.Reach s₀
  quiet : Quiet s₀
  cancelled : ∀ b, Live s₀ b → (s₀.bodies b).cancelled = false

/-- Source `b` is in the subtree of a source that `cancel` was called on. -/
def Hit (s₀ : St) (l : List Note) (b : Nat) : Prop :=
  ∃ r, .root r ∈ l ∧ ReflTransGen (Connected s₀) r b

/-- A token of a source that is hit. -/
def TokenHit (s₀ : St) (l : List Note) (t : Nat) : Prop :=
  (s₀.tokens t).phase = .live ∧ Hit s₀ l (s₀.tokens t).body

/-- The token but for its subscriptions. -/
def Token.bare (t : Token) : Token := { t with callbacks := [], users := [] }

/-- What calls of `cancel` that have returned made of the sources and tokens. -/
structure Swept (s₀ s : St) (l : List Note) : Prop where
  /-- The cancelled sources are the subtrees of those that `cancel` was called on. -/
  cancelled : ∀ b, Live s₀ b → ((s.bodies b).cancelled = true ↔ Hit s₀ l b)
  source : ∀ b, Hit s₀ l b → s.bodies b = { s₀.bodies b with cancelled := true, related := [] }
  otherSource : ∀ b, ¬Hit s₀ l b → s.bodies b = s₀.bodies b
  token : ∀ t, TokenHit s₀ l t →
    (s.tokens t).bare = { (s₀.tokens t).bare with cancelled := true } ∧ l.count (.token t) = 1
  otherToken : ∀ t, ¬TokenHit s₀ l t →
    (s.tokens t).bare = (s₀.tokens t).bare ∧ l.count (.token t) = 0
  /-- Nor do the subscriptions of a token change but by their own constructors and destructors. -/
  subscriptions : ∀ t, .subscription t ∉ l → (s.tokens t).callbacks = (s₀.tokens t).callbacks ∧
    (s.tokens t).users = (s₀.tokens t).users

/-! ## Subtrees -/

section Subtrees

variable {s₀ : St} {l l' : List Note} {b c : Nat}

theorem Hit.mono (h : Hit s₀ l b) : Hit s₀ (l ++ l') b := by
  obtain ⟨r, hr, hb⟩ := h
  exact ⟨r, List.mem_append_left _ hr, hb⟩

theorem Hit.child (h : Hit s₀ l b) (hc : Connected s₀ b c) : Hit s₀ l c := by
  obtain ⟨r, hr, hb⟩ := h
  exact ⟨r, hr, hb.tail hc⟩

theorem hit_root : Hit s₀ (l ++ [.root b]) b := ⟨b, by simp, .refl⟩

/-- A step that calls `cancel` on no source hits none. -/
theorem hit_append (h : ∀ r, .root r ∉ l') : Hit s₀ (l ++ l') b ↔ Hit s₀ l b := by
  refine ⟨fun ⟨r, hr, hb⟩ => ?_, Hit.mono⟩
  rcases List.mem_append.mp hr with hr | hr
  · exact ⟨r, hr, hb⟩
  · exact absurd hr (h r)

theorem notes_call (s : St) (k r : Nat) : .root r ∉ notes s (.call k) := by
  simp only [notes]
  split
  · simp
  · simp

theorem token_of_note {s : St} {k t : Nat} (h : .token t ∈ notes s (.call k)) :
    ∃ todo, (s.calls k).pc = .tokens (t :: todo) := by
  simp only [notes] at h
  split at h
  · rename_i t' todo hpc
    cases List.mem_singleton.mp h
    exact ⟨todo, hpc⟩
  · cases h

end Subtrees

/-! ## Only what is hit changes -/

/-- What a step keeps of a body: everything but the flag, the lock, the related bodies, and the
calls that share it. -/
structure SameBody (b b' : Body) : Prop where
  phase : b'.phase = b.phase
  parent : b'.parent = b.parent
  tokens : b'.tokens = b.tokens
  held : b'.refs.filter Ref.isHeld = b.refs.filter Ref.isHeld

/-- What calls of `cancel` keep of a token. -/
structure SameToken (t t' : Token) : Prop where
  phase : t'.phase = t.phase
  body : t'.body = t.body
  coro : t'.coro = t.coro

/-- The calls that are in progress are on sources that are hit (module doc). -/
structure Inside (s₀ s : St) (l : List Note) : Prop where
  body : ∀ b, SameBody (s₀.bodies b) (s.bodies b)
  token : ∀ t, SameToken (s₀.tokens t) (s.tokens t)
  call : ∀ k, (s.calls k).pc ≠ .unborn → (s.calls k).pc ≠ .done → Hit s₀ l (s.calls k).body
  nested : ∀ k c k' todo, (s.calls k).pc = .nested c k' todo → Hit s₀ l c
  other : ∀ b, ¬Hit s₀ l b → s.bodies b = s₀.bodies b
  live : ∀ b, .root b ∈ l → Live s₀ b
  root : ∀ b, .root b ∈ l → ∃ k, (s.calls k).pc ≠ .unborn ∧ (s.calls k).body = b
  note : ∀ t, .token t ∈ l → TokenHit s₀ l t
  lists : ∀ t, .subscription t ∉ l → (s.tokens t).callbacks = (s₀.tokens t).callbacks ∧
    (s.tokens t).users = (s₀.tokens t).users

section Inside

variable {s₀ s s' : St} {l : List Note}

theorem SameBody.refl (b : Body) : SameBody b b := ⟨rfl, rfl, rfl, rfl⟩

theorem SameBody.trans {a b c : Body} (h : SameBody a b) (h' : SameBody b c) : SameBody a c :=
  ⟨h'.phase.trans h.phase, h'.parent.trans h.parent, h'.tokens.trans h.tokens, h'.held.trans h.held⟩

theorem Inside.init (h₀ : Quiet s₀) : Inside s₀ s₀ [] where
  body _ := .refl _
  token _ := ⟨rfl, rfl, rfl⟩
  call k hk hd := absurd ((h₀ k).resolve_left hk) hd
  nested k c k' todo hpc := by rcases h₀ k with hk | hk <;> rw [hk] at hpc <;> cases hpc
  other _ _ := rfl
  live _ := nofun
  root _ := nofun
  note _ := nofun
  lists _ _ := ⟨rfl, rfl⟩

/-- A step of a subscription changes the lists of its own token. -/
theorem SubMove.lists {e : Ev} {t : Nat} (hm : SubMove s e s') (ht : .subscription t ∉ notes s e) :
    (s'.tokens t).callbacks = (s.tokens t).callbacks ∧
      (s'.tokens t).users = (s.tokens t).users := by
  cases hm <;> simp_all [notes]

/-- The edges of the forest stay. -/
theorem Inside.edge (h : Inside s₀ s l) {b c : Nat} : Edge s b c ↔ Edge s₀ b c := by
  rw [Edge, Edge, (h.body c).parent, (h.body c).phase]

/-- A source with an owner, below one that is hit, is hit. -/
theorem Inside.child (h : Inside s₀ s l) {b c : Nat} (hb : Hit s₀ l b) (he : Edge s b c)
    (hr : (s.bodies c).refs ≠ []) : Hit s₀ l c := by
  by_contra hc
  rw [h.other c hc] at hr
  exact hc (hb.child ⟨h.edge.mp he, hr⟩)

theorem Inside.sub {e : Ev} (h : Inside s₀ s l) (hm : SubMove s e s') :
    Inside s₀ s' (l ++ notes s e) := by
  have hf := hm.frame
  have hroot : ∀ r, .root r ∉ notes s e := fun r => by cases hm <;> simp [notes]
  have htoken : ∀ t, .token t ∉ notes s e := fun t => by cases hm <;> simp [notes]
  have hold : ∀ {b}, Hit s₀ (l ++ notes s e) b ↔ Hit s₀ l b := hit_append hroot
  have hmem : ∀ {b}, .root b ∈ l ++ notes s e → .root b ∈ l := fun {b} hb =>
    (List.mem_append.mp hb).resolve_right (hroot b)
  refine ⟨fun b => ?_, fun t => ?_, fun k => ?_, fun k c k' todo => ?_, fun b hb => ?_,
    fun b hb => h.live b (hmem hb), fun b hb => ?_, fun t ht => ?_, fun t ht => ?_⟩
  · rw [hf.bodies]
    exact h.body b
  · have ht := h.token t
    exact ⟨(hf.phase t).trans ht.phase, (hf.body t).trans ht.body, (hf.coro t).trans ht.coro⟩
  · rw [hf.calls, hold]
    exact h.call k
  · rw [hf.calls, hold]
    exact h.nested k c k' todo
  · rw [hf.bodies]
    exact h.other b fun hb' => hb (hold.mpr hb')
  · rw [hf.calls]
    exact h.root b (hmem hb)
  · have ht := h.note t ((List.mem_append.mp ht).resolve_right (htoken t))
    exact ⟨ht.1, hold.mpr ht.2⟩
  · rw [List.mem_append, not_or] at ht
    obtain ⟨h1, h2⟩ := h.lists t ht.1
    have hsame := hm.lists ht.2
    exact ⟨hsame.1.trans h1, hsame.2.trans h2⟩

/-- A step of a call changes its own body, and the one that its nested call was on. -/
theorem CallMove.bodies_eq {k : Nat} (hm : CallMove s k (s.calls k).body s') {b : Nat}
    (hb : b ≠ (s.calls k).body) (hn : ∀ k' todo, (s.calls k).pc ≠ .nested b k' todo) :
    s'.bodies b = s.bodies b := by
  cases hm with
  | nestedDone c k' todo hpc hd =>
    have hbc : b ≠ c := fun hbc => hn k' todo (hbc ▸ hpc)
    exact update_of_ne hbc ..
  | _ => simp_all [St.goto, St.leave]

theorem CallMove.not_done {k b : Nat} (hm : CallMove s k b s') : (s.calls k).pc ≠ .done := by
  cases hm <;> simp_all

theorem Inside.call_move {k : Nat} (h : Inside s₀ s l) (hi : Inv s)
    (hm : CallMove s k (s.calls k).body s') : Inside s₀ s' (l ++ notes s (.call k)) := by
  have hf := hm.frame
  have hhit : ∀ {b}, Hit s₀ (l ++ notes s (.call k)) b ↔ Hit s₀ l b :=
    hit_append (notes_call s k)
  have hk : Hit s₀ l (s.calls k).body := h.call k hm.born hm.not_done
  refine ⟨fun b => (h.body b).trans ⟨hf.phase b, hf.parent b, hf.listed b, hm.held b⟩, fun t => ?_,
    fun k' hu hd => ?_, fun k' c k'' todo hpc => ?_, fun b hb => ?_, fun b hb => ?_,
    fun b hb => ?_, fun t ht => ?_, fun t ht => ?_⟩
  · have ht := h.token t
    exact ⟨(hf.tokenPhase t).trans ht.phase, (hf.tokenBody t).trans ht.body,
      (hf.coro t).trans ht.coro⟩
  · rw [hhit]
    by_cases hkk : k' = k
    · rw [hkk, hf.callBody]
      exact hk
    · rw [hf.other k' hkk] at hu hd ⊢
      exact h.call k' hu hd
  · rw [hhit]
    by_cases hkk : k' = k
    · subst hkk
      -- a call does not wait for another one after a step of its own
      cases hm <;> simp [St.goto, St.leave] at hpc
    · rw [hf.other k' hkk] at hpc
      exact h.nested k' c k'' todo hpc
  · rw [hhit] at hb
    have hne : b ≠ (s.calls k).body := by
      rintro rfl
      exact hb hk
    rw [hm.bodies_eq hne fun k' todo hpc => hb (h.nested k b k' todo hpc)]
    exact h.other b hb
  · rcases List.mem_append.mp hb with hb | hb
    · exact h.live b hb
    · exact absurd hb (notes_call s k b)
  · rcases List.mem_append.mp hb with hb | hb
    · obtain ⟨k', hu, hb'⟩ := h.root b hb
      by_cases hkk : k' = k
      · exact ⟨k, hm.entered.1, by rw [hf.callBody, ← hkk, hb']⟩
      · exact ⟨k', by rw [hf.other k' hkk]; exact ⟨hu, hb'⟩⟩
    · exact absurd hb (notes_call s k b)
  · rcases List.mem_append.mp ht with ht | ht
    · exact ⟨(h.note t ht).1, (h.note t ht).2.mono⟩
    · -- the call is at a token of its body
      obtain ⟨todo, hpc⟩ := token_of_note ht
      have hmem := hi.current.tokens k t (by simp [hpc, CancelPc.tokensTodo])
      obtain ⟨hlive, hbody⟩ := (hi.registered.token _ t).mp hmem
      have hsame := h.token t
      refine ⟨hsame.phase ▸ hlive, hhit.mpr ?_⟩
      rw [← hsame.body, hbody]
      exact hk
  · rw [hf.callbacks, hf.users]
    exact h.lists t fun hmem => ht (List.mem_append_left _ hmem)

theorem Inside.start (h : Inside s₀ s l) {b k : Nat} (hp : (s.bodies b).phase = .ready)
    (hsrc : .source ∈ (s.bodies b).refs) (hk : (s.calls k).pc = .unborn)
    (hbody : ∀ c, c ≠ b → s'.bodies c = s.bodies c) (hb : SameBody (s.bodies b) (s'.bodies b))
    (htokens : s'.tokens = s.tokens)
    (hcalls : s'.calls = update s.calls k { pc := .enter, body := b, outer := true }) :
    Inside s₀ s' (l ++ [.root b]) := by
  have hother : ∀ k', (s.calls k').pc ≠ .unborn → s'.calls k' = s.calls k' := fun k' hu => by
    rw [hcalls, update_of_ne]
    rintro rfl
    exact hu hk
  refine ⟨fun c => ?_, by rw [htokens]; exact h.token, fun k' hu hd => ?_,
    fun k' c k'' todo hpc => ?_, fun c hc => ?_, fun r hr => ?_, fun r hr => ?_, fun t ht => ?_,
    fun t ht => ?_⟩
  · by_cases hcb : c = b
    · subst hcb
      exact (h.body c).trans hb
    · rw [hbody c hcb]
      exact h.body c
  · by_cases hkk : k' = k
    · rw [hcalls, hkk, update_self]
      exact hit_root
    · rw [hcalls, update_of_ne hkk] at hu hd ⊢
      exact (h.call k' hu hd).mono
  · by_cases hkk : k' = k
    · rw [hcalls, hkk, update_self] at hpc
      cases hpc
    · rw [hcalls, update_of_ne hkk] at hpc
      exact (h.nested k' c k'' todo hpc).mono
  · have hcb : c ≠ b := by
      rintro rfl
      exact hc hit_root
    rw [hbody c hcb]
    exact h.other c fun hc' => hc hc'.mono
  · rcases List.mem_append.mp hr with hr | hr
    · exact h.live r hr
    · cases List.mem_singleton.mp hr
      exact ⟨(h.body b).phase ▸ hp, List.ne_nil_of_mem ((mem_held (h.body b).held rfl).mp hsrc)⟩
  · rcases List.mem_append.mp hr with hr | hr
    · obtain ⟨k', hu, hb'⟩ := h.root r hr
      exact ⟨k', by rw [hother k' hu]; exact ⟨hu, hb'⟩⟩
    · cases List.mem_singleton.mp hr
      exact ⟨k, by simp [hcalls]⟩
  · rcases List.mem_append.mp ht with ht | ht
    · exact ⟨(h.note t ht).1, (h.note t ht).2.mono⟩
    · cases List.mem_singleton.mp ht
  · rw [htokens]
    exact h.lists t fun hmem => ht (List.mem_append_left _ hmem)

theorem Inside.nest (h : Inside s₀ s l) (hi : Inv s) (hfo : Forest s) {k k' c : Nat}
    {todo : List Nat} (hpc : (s.calls k).pc = .related (c :: todo)) (hr : (s.bodies c).refs ≠ [])
    (hk' : (s.calls k').pc = .unborn) (hne : k ≠ k')
    (hbody : ∀ b, b ≠ c → s'.bodies b = s.bodies b) (hb : SameBody (s.bodies c) (s'.bodies c))
    (htokens : s'.tokens = s.tokens)
    (hcalls : s'.calls = update (update s.calls k { s.calls k with pc := .nested c k' todo }) k'
      { pc := .enter, body := c, outer := false }) : Inside s₀ s' l := by
  have hc : c ∈ (s.calls k).pc.relatedTodo := by simp [hpc, CancelPc.relatedTodo]
  have hhit : Hit s₀ l c := by
    refine h.child (h.call k (by simp [hpc]) (by simp [hpc])) ⟨hfo.todo k c hc, ?_⟩ hr
    exact hi.born.todo k c hc
  have hother : ∀ x, x ≠ k → x ≠ k' → s'.calls x = s.calls x := fun x hx hx' => by
    rw [hcalls, update_of_ne hx', update_of_ne hx]
  have hk : s'.calls k = { s.calls k with pc := .nested c k' todo } := by
    rw [hcalls, update_of_ne hne, update_self]
  have hnew : s'.calls k' = { pc := .enter, body := c, outer := false } := by
    rw [hcalls, update_self]
  refine ⟨fun b => ?_, by rw [htokens]; exact h.token, fun x hu hd => ?_,
    fun x d x' rest hx => ?_, fun b hbn => ?_, h.live, fun r hr => ?_, h.note,
    by rw [htokens]; exact h.lists⟩
  · by_cases hbc : b = c
    · subst hbc
      exact (h.body b).trans hb
    · rw [hbody b hbc]
      exact h.body b
  · by_cases hxk' : x = k'
    · rw [hxk', hnew]
      exact hhit
    · by_cases hxk : x = k
      · rw [hxk, hk]
        exact h.call k (by simp [hpc]) (by simp [hpc])
      · rw [hother x hxk hxk'] at hu hd ⊢
        exact h.call x hu hd
  · by_cases hxk' : x = k'
    · rw [hxk', hnew] at hx
      cases hx
    · by_cases hxk : x = k
      · rw [hxk, hk] at hx
        cases hx
        exact hhit
      · rw [hother x hxk hxk'] at hx
        exact h.nested x d x' rest hx
  · rw [hbody b fun hbc => hbn (hbc ▸ hhit)]
    exact h.other b hbn
  · obtain ⟨x, hu, hx⟩ := h.root r hr
    have hxk' : x ≠ k' := by
      rintro rfl
      exact hu hk'
    by_cases hxk : x = k
    · exact ⟨k, by rw [hk]; exact ⟨nofun, hxk ▸ hx⟩⟩
    · exact ⟨x, by rw [hother x hxk hxk']; exact ⟨hu, hx⟩⟩

theorem Inside.move {e : Ev} (h : Inside s₀ s l) (hi : Inv s) (hfo : Forest s)
    (hok : cancels e = true) (hm : Move s e s') : Inside s₀ s' (l ++ notes s e) := by
  have hcons : ∀ (b : Body) (k : Nat), SameBody b { b with refs := .call k :: b.refs } :=
    fun b k => ⟨rfl, rfl, rfl, rfl⟩
  cases hm with
  | source hm =>
    cases hm with
    | cancel b k hp hr hk =>
      exact h.start hp hr hk (fun c hc => update_of_ne hc ..)
        (by simpa using hcons (s.bodies b) k) rfl rfl
    | nest k k' c todo hpc hr hk' hne =>
      rw [show notes s (.nest k k') = [] from rfl, List.append_nil]
      exact h.nest hi hfo hpc hr hk' hne (fun b hb => update_of_ne hb ..)
        (by simpa using hcons (s.bodies c) k') rfl rfl
    | _ => cases hok
  | token hm => cases hm <;> cases hok
  | sub hm => exact h.sub hm
  | call k he hm =>
    subst he
    exact h.call_move hi hm

end Inside

/-! ## Who is below a source that is hit, is hit -/

/-- The children of the sources that are cancelled (module doc). -/
structure Closed (s₀ s : St) (l : List Note) : Prop where
  child : ∀ b c, Connected s₀ b c → Hit s₀ l b → (s.bodies b).cancelled = true →
    (s.bodies c).cancelled = true ∨ c ∈ pendingRelated s b
  empty : ∀ b, Hit s₀ l b → (s.bodies b).cancelled = true → (s.bodies b).lock = none →
    (s.bodies b).related = []

section Closed

variable {s₀ s s' : St} {l l' : List Note}

theorem Inside.hit_live (h : Inside s₀ s l) {b : Nat} (hb : Hit s₀ l b) : Live s₀ b := by
  obtain ⟨r, hr, hb⟩ := hb
  rcases ReflTransGen.cases_tail hb with heq | ⟨c, -, hc⟩
  · rw [heq]
    exact h.live r hr
  · exact ⟨hc.1.2, hc.2⟩

theorem Inside.connected_live (h : Inside s₀ s l) (h₀ : Fresh s₀) {b c : Nat}
    (hc : Connected s₀ b c) : (s.bodies c).refs ≠ [] := by
  intro hr
  have hheld := (h.body c).held
  rw [hr, (reach_lent h₀.reach).quiet h₀.quiet] at hheld
  exact hc.2 hheld.symm

theorem Closed.init : Closed s₀ s₀ [] :=
  ⟨fun _ _ _ ⟨_, hr, _⟩ => (by cases hr), fun _ ⟨_, hr, _⟩ => (by cases hr)⟩

/-- A step that cancels what it takes off a list, and puts the children of a body that it cancels on
one. -/
theorem Closed.step (h : Closed s₀ s l)
    (hmono : ∀ c, (s.bodies c).cancelled = true → (s'.bodies c).cancelled = true)
    (hcancelled : ∀ b c, Connected s₀ b c → Hit s₀ l b → (s'.bodies b).cancelled = true →
      (s.bodies b).cancelled = true ∨ c ∈ pendingRelated s' b)
    (htodo : ∀ b c k, Connected s₀ b c → (s.bodies b).lock = some k →
      c ∈ (s.calls k).pc.toCancel (s.bodies b).related →
      ((s'.bodies b).lock = some k ∧ c ∈ (s'.calls k).pc.toCancel (s'.bodies b).related) ∨
      (s.bodies c).cancelled = true)
    (hempty : ∀ b, Hit s₀ l b → (s'.bodies b).cancelled = true → (s'.bodies b).lock = none →
      (s'.bodies b).related = [] ∨ ((s.bodies b).cancelled = true ∧ (s.bodies b).lock = none ∧
        (s'.bodies b).related = (s.bodies b).related)) : Closed s₀ s' l := by
  refine ⟨fun b c he hb hc => ?_, fun b hb hc hl => ?_⟩
  · rcases hcancelled b c he hb hc with hc | hc
    · rcases h.child b c he hb hc with hc | hp
      · exact .inl (hmono c hc)
      · obtain ⟨k, hk, hp⟩ := mem_pendingRelated.mp hp
        rcases htodo b c k he hk hp with hp | hc
        · exact .inr (mem_pendingRelated.mpr ⟨k, hp⟩)
        · exact .inl (hmono c hc)
    · exact .inr hc
  · rcases hempty b hb hc hl with hr | ⟨hc, hl, hr⟩
    · exact hr
    · rw [hr]
      exact h.empty b hb hc hl

/-- A step that leaves the lists alone, and cancels no body. -/
theorem Closed.keep (h : Closed s₀ s l)
    (hbody : ∀ b, (s'.bodies b).cancelled = (s.bodies b).cancelled ∧
      (s'.bodies b).lock = (s.bodies b).lock ∧ (s'.bodies b).related = (s.bodies b).related)
    (hk : ∀ k all, (s'.calls k).pc.toCancel all = (s.calls k).pc.toCancel all) :
    Closed s₀ s' l := by
  refine h.step (fun c hc => ?_) (fun b c _ _ hc => .inl ?_) (fun b c k _ hl hc => .inl ?_)
    fun b _ hc hl => .inr ?_
  · rw [(hbody c).1]
    exact hc
  · rw [← (hbody b).1]
    exact hc
  · rw [(hbody b).2.1, (hbody b).2.2, hk]
    exact ⟨hl, hc⟩
  · rw [(hbody b).1] at hc
    rw [(hbody b).2.1] at hl
    exact ⟨hc, hl, (hbody b).2.2⟩

theorem Closed.call_move {k : Nat} (h : Closed s₀ s l) (h₀ : Fresh s₀) (hin : Inside s₀ s l')
    (hi : Inv s) (hch : Children s) (hm : CallMove s k (s.calls k).body s') : Closed s₀ s' l := by
  have hself := hi.locks.holder (s.calls k).body k
  have hlive := fun b c => hin.connected_live (b := b) (c := c) h₀
  have hlock := hi.locks.holder
  cases hm with
  | again hpc hl hc =>
    simp only [St.leave, St.goto]
    refine h.keep ?_ ?_ <;> grind -linarith
  | enter hpc hl hc =>
    have hrel : ∀ b c, Connected s₀ b c → (s.bodies b).cancelled = false →
        c ∈ (s.bodies b).related := fun b c he hb =>
      hch.related b c (hin.edge.mpr he.1).1 (hin.edge.mpr he.1).2 hb
    simp only [St.goto]
    refine h.step ?_ ?_ ?_ ?_ <;> grind -linarith [pendingRelated]
  | tokensDone hpc =>
    simp only [St.goto]
    refine h.step ?_ ?_ ?_ ?_ <;> grind -linarith
  | relatedDone hpc =>
    simp only [St.leave, St.goto]
    refine h.step ?_ ?_ ?_ ?_ <;> grind -linarith
  | skip c todo hpc hr =>
    simp only [St.goto]
    refine h.step ?_ ?_ ?_ ?_ <;> grind -linarith
  | nestedDone c k' todo hpc hd =>
    have hc : (s.bodies c).cancelled = true := by
      rw [← (hch.nested k c k' todo hpc).2]
      exact hi.locks.entered k' (.inr hd)
    simp only [St.goto]
    refine h.step ?_ ?_ ?_ ?_ <;> grind -linarith
  | _ =>
    simp only [St.goto]
    refine h.keep ?_ ?_ <;> grind -linarith

/-- The sources that are hit anew are not cancelled. -/
theorem Closed.hit (h : Closed s₀ s l) (h₀ : Fresh s₀) (hin : Inside s₀ s l)
    (hlive : ∀ b, Hit s₀ l' b → Live s₀ b) : Closed s₀ s l' := by
  have hold : ∀ b, Hit s₀ l' b → (s.bodies b).cancelled = true → Hit s₀ l b := by
    intro b hb hc
    by_contra hn
    rw [hin.other b hn, h₀.cancelled b (hlive b hb)] at hc
    cases hc
  exact ⟨fun b c he hb hc => h.child b c he (hold b hb hc) hc,
    fun b hb hc => h.empty b (hold b hb hc) hc⟩

theorem Closed.move {e : Ev} (h : Closed s₀ s l) (h₀ : Fresh s₀) (hin : Inside s₀ s l)
    (hin' : Inside s₀ s' (l ++ notes s e)) (hi : Inv s) (hch : Children s)
    (hok : cancels e = true) (hm : Move s e s') : Closed s₀ s' (l ++ notes s e) := by
  have h := h.hit h₀ hin fun b hb => hin'.hit_live hb
  cases hm with
  | source hm =>
    cases hm with
    | cancel b k hp hr hk => refine h.keep ?_ ?_ <;> grind -linarith
    | nest k k' c todo hpc hr hk' hne => refine h.keep ?_ ?_ <;> grind -linarith
    | _ => cases hok
  | token hm => cases hm <;> cases hok
  | sub hm =>
    have hf := hm.frame
    exact h.keep (fun b => by rw [hf.bodies]; exact ⟨rfl, rfl, rfl⟩) fun k all => by rw [hf.calls]
  | call k he hm =>
    subst he
    exact h.call_move h₀ hin hi hch hm

end Closed

/-! ## A token is cancelled by one call -/

/-- The flags of the tokens, and the calls of `cancellation_token::cancel` (module doc). -/
def Counted (s₀ s : St) (l : List Note) : Prop :=
  ∀ t, ((s₀.tokens t).cancelled = false ∧ (s.tokens t).cancelled = true ∧ l.count (.token t) = 1) ∨
    ((s.tokens t).cancelled = (s₀.tokens t).cancelled ∧ l.count (.token t) = 0)

section Counted

variable {s₀ s s' : St} {l : List Note}

theorem Counted.keep {l' : List Note} (h : Counted s₀ s l)
    (hc : ∀ t, (s'.tokens t).cancelled = (s.tokens t).cancelled) (hl : ∀ t, .token t ∉ l') :
    Counted s₀ s' (l ++ l') := by
  intro t
  rw [List.count_append, List.count_eq_zero.mpr (hl t), hc t]
  exact h t

theorem Counted.call_move {k : Nat} (h : Counted s₀ s l) (hu : Untouched s)
    (hm : CallMove s k (s.calls k).body s') : Counted s₀ s' (l ++ notes s (.call k)) := by
  cases hm with
  | token t todo hpc hl =>
    have hn : notes s (.call k) = [.token t] := by simp [notes, hpc]
    rw [hn]
    intro t'
    by_cases ht : t' = t
    · -- the token was not cancelled before
      subst ht
      have hfresh := hu.todo k t' (by simp [hpc, CancelPc.untouched])
      rcases h t' with ⟨-, hc, -⟩ | ⟨hc, h0⟩
      · rw [hc] at hfresh
        cases hfresh
      · exact .inl ⟨hc ▸ hfresh, by simp, by simp [h0]⟩
    · have hne : Note.token t' ≠ .token t := fun he => ht (Note.token.inj he)
      simpa [ht, List.count_append, Ne.symm hne, hne] using h t'
  | tokenDone t todo hpc =>
    refine h.keep (fun t' => update_proj Token.cancelled (by rfl) t') fun t' => ?_
    simp [notes, hpc]
  | _ =>
    refine h.keep (fun t' => by rfl) fun t' => ?_
    simp_all [notes]

theorem Counted.move {e : Ev} (h : Counted s₀ s l) (hi : Inv s) (hu : Untouched s)
    (hok : cancels e = true) (hm : Move s e s') : Counted s₀ s' (l ++ notes s e) := by
  cases hm with
  | source hm =>
    have hf := hm.frame hi.born.body
    refine h.keep (fun t => by rw [hf.tokens]) fun t => ?_
    cases hm <;> simp [notes]
  | token hm => cases hm <;> cases hok
  | sub hm =>
    refine h.keep hm.frame.cancelled fun t => ?_
    cases hm <;> simp [notes]
  | call k he hm =>
    subst he
    exact h.call_move hu hm

end Counted

/-! ## Results -/

section Results

variable {s₀ s : St} {l : List Note}

/-- What holds in every state of these runs. -/
structure Sweeping (s₀ s : St) (l : List Note) : Prop where
  inside : Inside s₀ s l
  closed : Closed s₀ s l
  counted : Counted s₀ s l
  telling : Telling s

theorem Fresh.live_body (h₀ : Fresh s₀) {t : Nat} (ht : (s₀.tokens t).phase = .live) :
    Live s₀ (s₀.tokens t).body := by
  refine ⟨(reach_inv h₀.reach).born.tokenBody t (by simp [ht]), ?_⟩
  exact List.ne_nil_of_mem ((reach_lent h₀.reach).token t (by simp [ht, TokenPhase.shares]))

theorem Sweeping.init (h₀ : Fresh s₀) : Sweeping s₀ s₀ [] where
  inside := .init h₀.quiet
  closed := .init
  counted _ := .inr ⟨rfl, rfl⟩
  telling t ht hc _ := by
    rw [h₀.cancelled _ (h₀.live_body ht)] at hc
    cases hc

/-- The steps are steps of the whole system. -/
theorem reach_of_sweeping (h₀ : sys.Reach s₀) (hs : (⟨s₀, step⟩ : Sys St Ev).Reach s) :
    sys.Reach s := by
  induction hs with
  | init => exact h₀
  | step e _ _ hst ih => exact .step e ih trivial hst

theorem reach_sweeping (h₀ : Fresh s₀)
    (hs : (sweeping s₀).ReachBy (fun _ e => cancels e = true) (s, l)) : Sweeping s₀ s l := by
  refine hs.logged_induction (I := fun s => sys.Reach s) (J := fun s => Sweeping s₀ s.1 s.2)
    (fun _ h => reach_of_sweeping h₀.reach h) (.init h₀) fun s e s' l hr h hok hst => ?_
  have hi := reach_inv hr
  have hm := step_move hst
  have hin := h.inside.move hi (reach_forest hr) hok hm
  have htime : inTime s e = true := by cases e <;> first | rfl | cases hok
  exact ⟨hin, h.closed.move h₀ h.inside hin hi (reach_children hr) hok hm,
    h.counted.move hi (reach_untouched hr) hok hm, h.telling.move hi htime hm⟩

theorem Inv.unlocked (hi : Inv s) (hq : Quiet s) (b : Nat) : (s.bodies b).lock = none := by
  cases hl : (s.bodies b).lock with
  | none => rfl
  | some k =>
    have hh := ((hi.locks.holder b k).mp hl).2
    rcases hq k with hk | hk <;> simp [hk, CancelPc.holds] at hh

theorem Inv.token_unlocked (hi : Inv s) (hq : Quiet s) (t : Nat) : (s.tokens t).lock = none := by
  cases hl : (s.tokens t).lock with
  | none => rfl
  | some k =>
    have hat := (hi.current.lock t k).mp hl
    rcases hq k with hk | hk <;> simp [hk, CancelPc.at?] at hat

/-- Down from the sources that `cancel` was called on. -/
theorem Sweeping.cancelled_of_hit (h : Sweeping s₀ s l) (hi : Inv s) (hq : Quiet s) {b : Nat}
    (hb : Hit s₀ l b) : (s.bodies b).cancelled = true := by
  obtain ⟨r, hr, hb⟩ := hb
  induction hb with
  | refl =>
    obtain ⟨k, hu, hk⟩ := h.inside.root r hr
    rw [← hk]
    exact hi.locks.entered k (.inr ((hq k).resolve_left hu))
  | @tail c d hc hd ih =>
    refine (h.closed.child c d hd ⟨r, hr, hc⟩ ih).resolve_right fun hp => ?_
    obtain ⟨k, hk, -⟩ := mem_pendingRelated.mp hp
    rw [hi.unlocked hq] at hk
    cases hk

theorem Sweeping.swept (h : Sweeping s₀ s l) (h₀ : Fresh s₀) (hr : sys.Reach s) (hq : Quiet s) :
    Swept s₀ s l := by
  have hi := reach_inv hr
  have hi₀ := reach_inv h₀.reach
  have hcan : ∀ b, Hit s₀ l b → (s.bodies b).cancelled = true := fun b hb =>
    h.cancelled_of_hit hi hq hb
  refine ⟨fun b hb => ⟨fun hc => ?_, hcan b⟩, fun b hb => ?_, h.inside.other, fun t ht => ?_,
    fun t ht => ?_, h.inside.lists⟩
  · by_contra hn
    rw [h.inside.other b hn, h₀.cancelled b hb] at hc
    cases hc
  · obtain ⟨h1, h2, h3, h4⟩ := h.inside.body b
    have hl := hi.unlocked hq b
    have hrel := h.closed.empty b hb (hcan b hb) hl
    rw [(reach_lent hr).quiet hq, (reach_lent h₀.reach).quiet h₀.quiet] at h4
    have hc := hcan b hb
    have hl₀ := hi₀.unlocked h₀.quiet b
    cases hs : s.bodies b
    simp_all
  · obtain ⟨hlive, hhit⟩ := ht
    obtain ⟨h1, h2, h3⟩ := h.inside.token t
    have hc₀ : (s₀.tokens t).cancelled = false :=
      (reach_untouched h₀.reach).live t hlive (h₀.cancelled _ (h₀.live_body hlive))
    have hn : t ∉ toTell s (s.tokens t).body := by
      intro hmem
      obtain ⟨k, hk, -⟩ := mem_toTell.mp hmem
      rw [hi.unlocked hq] at hk
      cases hk
    have htold := (h.telling t (h1.trans hlive) (hcan _ (by rw [h2]; exact hhit)) hn).1
    rcases h.counted t with ⟨-, -, hcount⟩ | ⟨hc, -⟩
    · refine ⟨?_, hcount⟩
      have hl := hi.token_unlocked hq t
      have hl₀ := hi₀.token_unlocked h₀.quiet t
      simp only [Token.bare]
      simp [h1, h2, h3, hl, hl₀, htold]
    · rw [htold, hc₀] at hc
      cases hc
  · rcases h.counted t with ⟨-, -, hcount⟩ | ⟨hc, hcount⟩
    · exact absurd (h.inside.note t (List.count_pos_iff.mp (by omega))) ht
    · obtain ⟨h1, h2, h3⟩ := h.inside.token t
      have hl := hi.token_unlocked hq t
      have hl₀ := hi₀.token_unlocked h₀.quiet t
      refine ⟨?_, hcount⟩
      simp only [Token.bare]
      simp [h1, h2, h3, hl, hl₀, hc]

/-- What is left behind depends on the sources that `cancel` was called on. -/
theorem Swept.unique {s' : St} {l' : List Note} (h : Swept s₀ s l) (h' : Swept s₀ s' l')
    (hr : ∀ r, .root r ∈ l' ↔ .root r ∈ l) :
    s'.bodies = s.bodies ∧ ∀ t, (s'.tokens t).bare = (s.tokens t).bare := by
  have hhit : ∀ b, Hit s₀ l' b ↔ Hit s₀ l b := fun b => by simp only [Hit, hr]
  refine ⟨funext fun b => ?_, fun t => ?_⟩
  · by_cases hb : Hit s₀ l b
    · rw [h.source b hb, h'.source b ((hhit b).mpr hb)]
    · rw [h.otherSource b hb, h'.otherSource b fun hb' => hb ((hhit b).mp hb')]
  · by_cases ht : TokenHit s₀ l t
    · rw [(h.token t ht).1, (h'.token t ⟨ht.1, (hhit _).mpr ht.2⟩).1]
    · rw [(h.otherToken t ht).1, (h'.otherToken t fun ht' => ht ⟨ht'.1, (hhit _).mp ht'.2⟩).1]

/-- **Calls of `cancel` commute**: when they have all returned, the subtrees of their sources are
cancelled, each token there by one `cancellation_token::cancel`, and the rest is as it was; whatever
their order and number. -/
theorem cancels_commute (h₀ : Fresh s₀)
    (hs : (sweeping s₀).ReachBy (fun _ e => cancels e = true) (s, l)) (hq : Quiet s) :
    Swept s₀ s l ∧
    ∀ s' l', (sweeping s₀).ReachBy (fun _ e => cancels e = true) (s', l') → Quiet s' →
      (∀ r, .root r ∈ l' ↔ .root r ∈ l) →
      s'.bodies = s.bodies ∧ ∀ t, (s'.tokens t).bare = (s.tokens t).bare := by
  have key : ∀ {s l}, (sweeping s₀).ReachBy (fun _ e => cancels e = true) (s, l) → Quiet s →
      Swept s₀ s l := fun hs hq =>
    (reach_sweeping h₀ hs).swept h₀ (reach_of_sweeping h₀.reach hs.base) hq
  exact ⟨key hs hq, fun s' l' hs' hq' hr => (key hs hq).unique (key hs' hq') hr⟩

end Results

/-- A source with a child, which has a token. -/
def family : List Ev :=
  [.newSource 0, .connect 0 1, .link 1, .newSource 2, .tokenBegin 0 1 none, .tokenRead 0,
    .tokenCheck 0, .tokenAdd 0]

/-- Two calls of `cancel`, on the child and on its parent, that overlap. -/
def overlap : List Ev :=
  [.cancel 1 0, .cancel 0 1, .call 1, .call 0, .call 1, .nest 1 2, .call 0, .call 0, .call 0,
    .call 0, .call 0, .call 2, .call 1, .call 1]

theorem cancels_commute_overlap :
    Swept (sys.after family) ((sweeping (sys.after family)).after overlap).1
      ((sweeping (sys.after family)).after overlap).2 ∧
    ((sweeping (sys.after family)).after overlap).2 = [.root 1, .root 0, .token 0] := by
  have h₀ : Fresh (sys.after family) := by
    refine ⟨Sys.reach_after (by decide), fun k => .inl rfl, fun b _ => ?_⟩
    match b with
    | 0 => decide
    | 1 => decide
    | 2 => decide
    | b + 3 => rfl
  have hs : (sweeping (sys.after family)).ReachBy (fun _ e => cancels e = true)
      ((sweeping (sys.after family)).after overlap) := Sys.reachBy_meets (by decide)
  have hq : Quiet ((sweeping (sys.after family)).after overlap).1 := by
    intro k
    match k with
    | 0 => decide
    | 1 => decide
    | 2 => decide
    | k + 3 => exact .inl rfl
  exact ⟨(cancels_commute h₀ hs hq).1, by decide⟩

end Cancel

end Corsl
