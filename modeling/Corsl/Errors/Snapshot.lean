import Corsl.Conc.Owner
import Corsl.Conc.Sys

/-!
# `unique_process_snapshot` (`impl/errors.h`)

Objects with a `handle`, which may be null. The handles are numbered: a capture makes a new one, and
so does each `PssDuplicateSnapshot`. A capture also makes a VA clone, with the number of its handle;
a duplicate refers to the clone of the handle that it was made of.

`close()` terminates the clone and frees the handle. `PssDuplicateSnapshot` and
`PssQuerySnapshot` succeed.
-/

namespace Corsl

open Conc Function

namespace Errors

namespace Snapshot

/-- The state of the objects and of the handles. -/
structure St where
  /-- The live objects, with what is in their `handle`. -/
  objects : Nat → Option (Option Nat) := fun _ => none
  /-- The number of the handles made so far. -/
  next : Nat := 0
  /-- The clone that a handle refers to. -/
  clone : Nat → Nat := id
  /-- How often `PssFreeSnapshot` has freed a handle. -/
  frees : Nat → Nat := fun _ => 0
  /-- `TerminateProcess` has been called for a clone. -/
  terminated : Nat → Bool := fun _ => false

namespace St

/-- The handle in an object; there is none in an object that is not live. -/
def handle (s : St) : Nat → Option Nat := Option.join ∘ s.objects

/-- The object `o` is live, with this in its `handle`. -/
def put (s : St) (o : Nat) (h : Option Nat) : St :=
  { s with objects := update s.objects o (some h) }

/-- A new handle to the clone `c` is made in `o`. -/
def make (s : St) (o c : Nat) : St :=
  { s.put o (some s.next) with next := s.next + 1, clone := update s.clone s.next c }

/-- `PssDuplicateSnapshot` of `h`, into `o`. -/
def duplicate (s : St) (o h : Nat) : St := s.make o (s.clone h)

def close (s : St) (o : Nat) : St :=
  match s.handle o with
  | some h => { s.put o none with
      terminated := update s.terminated (s.clone h) true
      frees := update s.frees h (s.frees h + 1) }
  | none => s

/-- The constructor that copies. -/
def copyConstruct (s : St) (o p : Nat) : St :=
  match s.handle p with
  | some h => s.duplicate o h
  | none => s.put o none

/-- The constructor that moves: it duplicates too. -/
def moveConstruct (s : St) (o p : Nat) : St :=
  match s.handle p with
  | some h => (s.put p none).duplicate o h
  | none => s.put o none

def copyAssign (s : St) (o p : Nat) : St :=
  match (s.close o).handle p with
  | some h => (s.close o).duplicate o h
  | none => s.close o

def moveAssign (s : St) (o p : Nat) : St :=
  if o ≠ p then (s.put o (s.handle p)).put p (s.handle o) else s

def destroy (s : St) (o : Nat) : St :=
  { s.close o with objects := update (s.close o).objects o none }

def live (s : St) (o : Nat) : Bool := (s.objects o).isSome

end St

/-- The operations; `o` is the object that is constructed, assigned to or destroyed. -/
inductive Ev where
  /-- `create_process_snapshot`, and whether the capture succeeds. -/
  | capture (o : Nat) (ok : Bool)
  | construct (o : Nat)
  | copyConstruct (o p : Nat)
  | moveConstruct (o p : Nat)
  | copyAssign (o p : Nat)
  | moveAssign (o p : Nat)
  | destroy (o : Nat)

/-- One operation. -/
def step (s : St) : Ev → Option St
  | .capture o ok =>
    if s.live o = false then some (if ok then s.make o s.next else s.put o none) else none
  | .construct o => if s.live o = false then some (s.put o none) else none
  | .copyConstruct o p =>
    if s.live o = false ∧ s.live p = true then some (s.copyConstruct o p) else none
  | .moveConstruct o p =>
    if s.live o = false ∧ s.live p = true then some (s.moveConstruct o p) else none
  | .copyAssign o p =>
    if s.live o = true ∧ s.live p = true then some (s.copyAssign o p) else none
  | .moveAssign o p =>
    if s.live o = true ∧ s.live p = true then some (s.moveAssign o p) else none
  | .destroy o => if s.live o = true then some (s.destroy o) else none

/-- The objects of a program. -/
def sys : Sys St Ev := ⟨{}, step⟩

/-! ## The results -/

/-- The handle has been made, and not freed. -/
def St.Unreleased (s : St) (h : Nat) : Prop := h < s.next ∧ s.frees h = 0

/-- Every handle is owned once and freed once at most, and what a live object refers to has not been
terminated. -/
structure Sound (s : St) : Prop where
  once : ∀ h, s.Unreleased h → ∃! o, s.handle o = some h
  held : ∀ o h, s.handle o = some h → s.Unreleased h
  freed : ∀ h, s.frees h ≤ 1
  clone : ∀ o h, s.handle o = some h → s.terminated (s.clone h) = false

/-- Copies and assignments leave a snapshot in the target if there was one in the source. -/
def Holds (s s' : St) : Ev → Prop
  | .copyConstruct o p | .copyAssign o p | .moveAssign o p => s.handle p ≠ none → s'.handle o ≠ none
  | _ => True

/-- The handle of `o`, if there is one, is the last that refers to its clone. -/
def St.Last (s : St) (o : Nat) : Prop :=
  ∀ h, s.handle o = some h → ∀ h' < s.next, s.frees h' = 0 → s.clone h' = s.clone h → h' = h

/-- Construction moves from empty objects only, an object with a snapshot is not assigned to
itself by copying, and the last handle alone is closed. -/
def Clean (s : St) : Ev → Prop
  | .moveConstruct _ p => s.handle p = none
  | .copyAssign o p => (o = p → s.handle o = none) ∧ s.Last o
  | .destroy o => s.Last o
  | _ => True

/-! ## The operations -/

section Operations

variable {s s' : St} {e : Ev} {o p h c : Nat}

namespace St

@[simp] theorem handle_put (s : St) (o : Nat) (h : Option Nat) :
    (s.put o h).handle = update s.handle o h := comp_update ..

@[simp] theorem handle_make (s : St) (o c : Nat) :
    (s.make o c).handle = update s.handle o (some s.next) := s.handle_put o (some s.next)

theorem handle_of_not_live (ho : s.live o = false) : s.handle o = none := by
  have hobj : s.objects o = none := by simpa [live] using ho
  simp [handle, hobj]

theorem close_of_null (ho : s.handle o = none) : s.close o = s := by
  simp [close, ho]

theorem close_of_handle (ho : s.handle o = some h) :
    s.close o = { s.put o none with
      terminated := update s.terminated (s.clone h) true
      frees := update s.frees h (s.frees h + 1) } := by
  simp [close, ho]

@[simp] theorem handle_close (s : St) (o : Nat) : (s.close o).handle = update s.handle o none := by
  cases ho : s.handle o with
  | none => rw [close_of_null ho, ← ho, update_eq_self]
  | some h =>
    rw [close_of_handle ho]
    exact s.handle_put o none

@[simp] theorem next_close (s : St) (o : Nat) : (s.close o).next = s.next := by
  unfold close
  split <;> rfl

@[simp] theorem clone_close (s : St) (o : Nat) : (s.close o).clone = s.clone := by
  unfold close
  split <;> rfl

@[simp] theorem handle_destroy (s : St) (o : Nat) :
    (s.destroy o).handle = update s.handle o none := by
  have : (s.destroy o).handle = update (s.close o).handle o none := comp_update ..
  rw [this, handle_close, update_idem]

theorem handle_moveAssign (s : St) (o p : Nat) :
    (s.moveAssign o p).handle = s.handle ∘ Equiv.swap p o := by
  unfold moveAssign
  split
  · rw [handle_put, handle_put, Equiv.comp_swap_eq_update]
  · rename_i hop
    rw [not_not.mp hop, Equiv.swap_self]
    rfl

end St

/-- What the handles, the objects and the clones keep. -/
structure Inv (s : St) : Prop where
  owned : Owned s.handle s.Unreleased
  freed : ∀ h, s.frees h ≤ 1
  fresh : ∀ h, s.next ≤ h → s.frees h = 0 ∧ s.terminated h = false
  below : ∀ h < s.next, s.clone h < s.next
  clone : ∀ h, s.Unreleased h → s.terminated (s.clone h) = false

namespace Inv

theorem sound (hi : Inv s) : Sound s where
  once _ hh := hi.owned.existsUnique hh
  held o h ho := (hi.owned.live_iff h).mpr ⟨o, ho⟩
  freed := hi.freed
  clone o h ho := hi.clone h ((hi.owned.live_iff h).mpr ⟨o, ho⟩)

theorem init : Inv {} where
  owned := Owned.none fun h hh => absurd hh.1 (Nat.not_lt_zero h)
  freed _ := Nat.zero_le 1
  fresh _ _ := ⟨rfl, rfl⟩
  below h hh := absurd hh (Nat.not_lt_zero h)
  clone _ _ := rfl

/-- The objects alone change, and hold what they held. -/
theorem of_objects (hi : Inv s) {objects : Nat → Option (Option Nat)}
    (ho : Owned (St.handle { s with objects }) s.Unreleased) : Inv { s with objects } :=
  ⟨ho, hi.freed, hi.fresh, hi.below, hi.clone⟩

theorem put (hi : Inv s) (ho : s.handle o = none) : Inv (s.put o none) := by
  refine hi.of_objects ?_
  have : (s.put o none).handle = s.handle := by rw [St.handle_put, ← ho, update_eq_self]
  rw [show St.handle { s with objects := _ } = (s.put o none).handle from rfl, this]
  exact hi.owned

theorem moveAssign (hi : Inv s) : Inv (s.moveAssign o p) := by
  have hown := hi.owned.permute (Equiv.swap p o)
  rw [← St.handle_moveAssign] at hown
  by_cases hop : o = p
  · rw [St.moveAssign, if_neg (not_not.mpr hop)]
    exact hi
  · rw [St.moveAssign, if_pos hop] at hown ⊢
    exact hi.of_objects hown

/-- A new handle, to a clone that has not been terminated. -/
theorem make (hi : Inv s) (ho : s.handle o = none) (hc : c ≤ s.next)
    (ht : s.terminated c = false) : Inv (s.make o c) := by
  have hnew : ¬s.Unreleased s.next := fun hh => absurd hh.1 (Nat.lt_irrefl _)
  have hun : ∀ h, (s.make o c).Unreleased h ↔ h = s.next ∨ s.Unreleased h := fun h => by
    have hfresh := (hi.fresh s.next (Nat.le_refl _)).1
    change h < s.next + 1 ∧ s.frees h = 0 ↔ _
    unfold St.Unreleased
    constructor
    · rintro ⟨hlt, hf⟩
      by_cases hh : h = s.next
      · exact .inl hh
      · exact .inr ⟨by omega, hf⟩
    · rintro (rfl | ⟨hlt, hf⟩)
      · exact ⟨by omega, hfresh⟩
      · exact ⟨by omega, hf⟩
  refine ⟨?_, hi.freed, fun h hh => hi.fresh h (Nat.le_of_succ_le hh), fun h hh => ?_,
    fun h hh => ?_⟩
  · rw [St.handle_make]
    exact (hi.owned.acquire ho hnew).congr hun
  · change update s.clone s.next c h < s.next + 1
    by_cases hn : h = s.next
    · rw [hn, update_self]
      omega
    · have hlt : h < s.next + 1 := hh
      rw [update_of_ne hn]
      have := hi.below h (by omega)
      omega
  · change s.terminated (update s.clone s.next c h) = false
    obtain rfl | hh := (hun h).mp hh
    · rwa [update_self]
    · have hne : h ≠ s.next := by
        rintro rfl
        exact hnew hh
      rw [update_of_ne hne]
      exact hi.clone h hh

theorem duplicate (hi : Inv s) (ho : s.handle o = none) (hp : s.handle p = some h) :
    Inv (s.duplicate o h) := by
  have hun := (hi.owned.live_iff h).mpr ⟨p, hp⟩
  exact hi.make ho (Nat.le_of_lt (hi.below h hun.1)) (hi.clone h hun)

theorem close (hi : Inv s) (hl : s.Last o) : Inv (s.close o) := by
  cases ho : s.handle o with
  | none => rwa [St.close_of_null ho]
  | some h =>
    have hh := (hi.owned.live_iff h).mpr ⟨o, ho⟩
    have hun : ∀ h', (s.close o).Unreleased h' ↔ h' ≠ h ∧ s.Unreleased h' := fun h' => by
      rw [St.close_of_handle ho]
      change h' < s.next ∧ update s.frees h (s.frees h + 1) h' = 0 ↔ _
      unfold St.Unreleased
      by_cases hne : h' = h
      · simp [hne]
      · simp [hne]
    refine ⟨?_, fun h' => ?_, fun h' hh' => ?_, ?_, fun h' hh' => ?_⟩
    · rw [St.handle_close]
      exact (hi.owned.release ho).congr hun
    · rw [St.close_of_handle ho]
      change update s.frees h (s.frees h + 1) h' ≤ 1
      by_cases hne : h' = h
      · simp [hne, hh.2]
      · rw [update_of_ne hne]
        exact hi.freed h'
    · rw [St.close_of_handle ho] at hh' ⊢
      have hlt : h < s.next := hh.1
      have hclone := hi.below h hlt
      have hnext : s.next ≤ h' := hh'
      change update s.frees h (s.frees h + 1) h' = 0 ∧
        update s.terminated (s.clone h) true h' = false
      rw [update_of_ne (by omega), update_of_ne (by omega)]
      exact hi.fresh h' hnext
    · rw [St.close_of_handle ho]
      exact hi.below
    · obtain ⟨hne, hun'⟩ := (hun h').mp hh'
      rw [St.close_of_handle ho]
      change update s.terminated (s.clone h) true (s.clone h') = false
      rw [update_of_ne fun hc => hne (hl h ho h' hun'.1 hun'.2 hc)]
      exact hi.clone h' hun'

theorem destroy (hi : Inv s) (hl : s.Last o) : Inv (s.destroy o) := by
  have hc := hi.close hl
  refine hc.of_objects ?_
  have hown := hc.owned
  rwa [St.handle_close, ← St.handle_destroy] at hown

theorem copyConstruct (hi : Inv s) (ho : s.handle o = none) : Inv (s.copyConstruct o p) := by
  unfold St.copyConstruct
  split
  · exact hi.duplicate ho (by assumption)
  · exact hi.put ho

theorem copyAssign (hi : Inv s) (hl : s.Last o) : Inv (s.copyAssign o p) := by
  have hc := hi.close hl
  unfold St.copyAssign
  split
  · exact hc.duplicate (by simp) (by assumption)
  · exact hc

end Inv

/-- A copy holds a snapshot if its source does. -/
theorem handle_copyConstruct (hp : s.handle p ≠ none) : (s.copyConstruct o p).handle o ≠ none := by
  obtain ⟨h, hp⟩ := Option.ne_none_iff_exists'.mp hp
  simp [St.copyConstruct, hp, St.duplicate]

theorem handle_copyAssign (hop : o ≠ p) (hp : s.handle p ≠ none) :
    (s.copyAssign o p).handle o ≠ none := by
  obtain ⟨h, hp⟩ := Option.ne_none_iff_exists'.mp hp
  have hp' : (s.close o).handle p = some h := by
    rw [St.handle_close, update_of_ne hop.symm, hp]
  simp [St.copyAssign, hp', St.duplicate]

/-- What a clean operation keeps. -/
theorem Inv.step (hi : Inv s) (hok : Clean s e) (hst : step s e = some s') :
    Inv s' ∧ Holds s s' e := by
  cases e with
  | capture o ok =>
    simp only [Snapshot.step] at hst
    split at hst <;> cases hst
    rename_i ho
    have ho := St.handle_of_not_live ho
    refine ⟨?_, trivial⟩
    cases ok with
    | false => exact hi.put ho
    | true => exact hi.make ho (Nat.le_refl _) (hi.fresh _ (Nat.le_refl _)).2
  | construct o =>
    simp only [Snapshot.step] at hst
    split at hst <;> cases hst
    rename_i ho
    exact ⟨hi.put (St.handle_of_not_live ho), trivial⟩
  | copyConstruct o p =>
    simp only [Snapshot.step] at hst
    split at hst <;> cases hst
    rename_i ho
    exact ⟨hi.copyConstruct (St.handle_of_not_live ho.1), handle_copyConstruct⟩
  | moveConstruct o p =>
    simp only [Snapshot.step] at hst
    split at hst <;> cases hst
    rename_i ho
    have hp : s.handle p = none := hok
    simp only [St.moveConstruct, hp]
    exact ⟨hi.put (St.handle_of_not_live ho.1), trivial⟩
  | copyAssign o p =>
    simp only [Snapshot.step] at hst
    split at hst <;> cases hst
    refine ⟨hi.copyAssign hok.2, fun hp => ?_⟩
    by_cases hop : o = p
    · exact absurd (hok.1 hop) (hop ▸ hp)
    · exact handle_copyAssign hop hp
  | moveAssign o p =>
    simp only [Snapshot.step] at hst
    split at hst <;> cases hst
    refine ⟨hi.moveAssign, fun hp => ?_⟩
    rwa [St.handle_moveAssign, comp_apply, Equiv.swap_apply_right]
  | destroy o =>
    simp only [Snapshot.step] at hst
    split at hst <;> cases hst
    exact ⟨hi.destroy hok, trivial⟩

/-! ## What breaks it -/

/-- The handle that is moved from is in no object any more. -/
theorem not_sound_moveConstruct (hi : Inv s) (hp : s.handle p = some h) :
    ¬Sound (s.moveConstruct o p) := by
  intro hs
  have hh := (hi.owned.live_iff h).mpr ⟨p, hp⟩
  have hhandle : (s.moveConstruct o p).handle =
      update (update s.handle p none) o (some s.next) := by
    simp only [St.moveConstruct, hp, St.duplicate, St.handle_make, St.handle_put]
    rfl
  have hun : (s.moveConstruct o p).Unreleased h := by
    simp only [St.moveConstruct, hp]
    exact ⟨Nat.lt_succ_of_lt hh.1, hh.2⟩
  obtain ⟨q, hq, -⟩ := hs.once h hun
  simp only [hhandle] at hq
  by_cases hqo : q = o
  · rw [hqo, update_self] at hq
    exact absurd hh.1 (Nat.not_lt.mpr (Nat.le_of_eq (Option.some.inj hq)))
  · rw [update_of_ne hqo] at hq
    by_cases hqp : q = p
    · rw [hqp, update_self] at hq
      cases hq
    · rw [update_of_ne hqp] at hq
      exact hqp (hi.owned.unique q p h hq hp)

/-- Another object holds a handle to the clone that is terminated. -/
theorem exists_other (hi : Inv s) (hl : ¬s.Last o) : ∃ q h, q ≠ o ∧ s.handle q = some h ∧
    h < s.next ∧ (s.close o).terminated (s.clone h) = true := by
  simp only [St.Last, not_forall] at hl
  obtain ⟨h, ho, h', hlt, hf, hc, hne⟩ := hl
  obtain ⟨q, hq⟩ := (hi.owned.live_iff h').mp ⟨hlt, hf⟩
  refine ⟨q, h', fun hqo => hne ?_, hq, hlt, ?_⟩
  · exact Option.some.inj (hq.symm.trans (hqo ▸ ho))
  · rw [St.close_of_handle ho, hc]
    exact update_self ..

theorem not_sound_destroy (hi : Inv s) (hl : ¬s.Last o) : ¬Sound (s.destroy o) := by
  intro hs
  obtain ⟨q, h, hqo, hq, -, ht⟩ := exists_other hi hl
  have hq' : (s.destroy o).handle q = some h := by rw [St.handle_destroy, update_of_ne hqo, hq]
  have hkept : (s.close o).terminated ((s.close o).clone h) = false := hs.clone q h hq'
  rw [St.clone_close, ht] at hkept
  cases hkept

theorem not_sound_copyAssign (hi : Inv s) (hl : ¬s.Last o) : ¬Sound (s.copyAssign o p) := by
  intro hs
  obtain ⟨q, h, hqo, hq, hlt, ht⟩ := exists_other hi hl
  have hq' : (s.close o).handle q = some h := by rw [St.handle_close, update_of_ne hqo, hq]
  unfold St.copyAssign at hs
  split at hs
  · rename_i c hc
    have hkept := hs.clone q h (by rw [St.duplicate, St.handle_make, update_of_ne hqo, hq'])
    change (s.close o).terminated (update (s.close o).clone (s.close o).next _ h) = false at hkept
    rw [St.next_close, update_of_ne (Nat.ne_of_lt hlt), St.clone_close, ht] at hkept
    cases hkept
  · have hkept := hs.clone q h hq'
    rw [St.clone_close, ht] at hkept
    cases hkept

/-- The object has closed its handle before it looks for one to duplicate. -/
theorem handle_copyAssign_self (s : St) (o : Nat) : (s.copyAssign o o).handle o = none := by
  have ho : (s.close o).handle o = none := by simp
  simp [St.copyAssign, ho]

theorem clean_of_sound (hi : Inv s) (hst : step s e = some s') (hs : Sound s')
    (hh : Holds s s' e) : Clean s e := by
  cases e with
  | moveConstruct o p =>
    simp only [step] at hst
    split at hst <;> cases hst
    cases hp : s.handle p with
    | none => exact hp
    | some h => exact absurd hs (not_sound_moveConstruct hi hp)
  | copyAssign o p =>
    simp only [step] at hst
    split at hst <;> cases hst
    refine ⟨fun hop => ?_, ?_⟩
    · subst hop
      by_contra ho
      exact hh ho (handle_copyAssign_self s o)
    · by_contra hl
      exact not_sound_copyAssign hi hl hs
  | destroy o =>
    simp only [step] at hst
    split at hst <;> cases hst
    by_contra hl
    exact not_sound_destroy hi hl hs
  | _ => trivial

theorem reach_inv (hs : sys.ReachBy Clean s) : Inv s := by
  have hinv : sys.Inductive Clean Inv := ⟨.init, fun _ _ _ hi hok hst => (hi.step hok hst).1⟩
  exact hinv.reach hs

end Operations

/-! ## Results -/

/-- **Every handle is owned once and freed once**, in every run of clean operations. An operation
that is not clean breaks it at once, or leaves the target without a snapshot. -/
theorem owned_once {s : St} (hs : sys.ReachBy Clean s) :
    Sound s ∧ ∀ e s', step s e = some s' → (Sound s' ∧ Holds s s' e ↔ Clean s e) := by
  have hi := reach_inv hs
  refine ⟨hi.sound, fun e s' hst => ⟨fun h => clean_of_sound hi hst h.1 h.2, fun hok => ?_⟩⟩
  obtain ⟨hi', hh⟩ := hi.step hok hst
  exact ⟨hi'.sound, hh⟩

/-- A capture is copied, exchanged and assigned; a capture of its own is destroyed. -/
def copiedRun : List Ev :=
  [.capture 0 true, .copyConstruct 1 0, .construct 2, .copyAssign 2 1, .moveAssign 2 0,
    .moveAssign 1 1, .construct 3, .moveConstruct 4 3, .capture 5 true, .copyAssign 5 0,
    .capture 6 false, .capture 7 true, .destroy 7, .destroy 6]

/-- `Clean`, as a check. -/
def lastCheck (s : St) (o : Nat) : Bool :=
  match s.handle o with
  | some h => (List.range s.next).all fun h' => s.frees h' ≠ 0 || s.clone h' ≠ s.clone h || h' = h
  | none => true

def cleanCheck (s : St) : Ev → Bool
  | .moveConstruct _ p => s.handle p = none
  | .copyAssign o p => (o ≠ p || s.handle o = none) && lastCheck s o
  | .destroy o => lastCheck s o
  | _ => true

theorem last_of_check {s : St} {o : Nat} (hc : lastCheck s o = true) : s.Last o := by
  intro h ho h' hlt hf hclone
  simp only [lastCheck, ho, List.all_eq_true, List.mem_range] at hc
  simpa [hf, hclone] using hc h' hlt

theorem clean_of_check (s : St) (e : Ev) (h : cleanCheck s e = true) : Clean s e := by
  cases e with
  | moveConstruct o p => simpa [cleanCheck, Clean] using h
  | copyAssign o p =>
    simp only [cleanCheck, Bool.and_eq_true] at h
    refine ⟨fun hop => ?_, last_of_check h.2⟩
    simpa [hop] using h.1
  | destroy o => exact last_of_check h
  | _ => trivial

theorem owned_once_copied :
    Sound (sys.after copiedRun) ∧ ∀ e s', step (sys.after copiedRun) e = some s' →
      (Sound s' ∧ Holds (sys.after copiedRun) s' e ↔ Clean (sys.after copiedRun) e) :=
  owned_once ((Sys.reachBy_meets rfl).mono clean_of_check)

/-- An object that is constructed by a move leaks the handle of its source. An object that is
assigned to itself loses its snapshot. The destruction of a copy terminates the clone of the
original. -/
theorem owned_once_fails :
    (¬∀ s, sys.Reach s → ∀ h, s.Unreleased h → ∃! o, s.handle o = some h) ∧
    (¬∀ s, sys.Reach s → ∀ e s', step s e = some s' → Holds s s' e) ∧
    ¬∀ s, sys.Reach s → ∀ o h, s.handle o = some h → s.terminated (s.clone h) = false := by
  refine ⟨fun hall => ?_, fun hall => ?_, fun hall => ?_⟩
  · have hs : sys.Reach (sys.after [.capture 0 true, .moveConstruct 1 0]) := Sys.reach_after rfl
    obtain ⟨o, ho, -⟩ := hall _ hs 0 ⟨by decide, rfl⟩
    rcases o with _ | _ | o <;> cases ho
  · have hs : sys.Reach (sys.after [.capture 0 true]) := Sys.reach_after rfl
    exact hall _ hs (.copyAssign 0 0) _ rfl (by decide) rfl
  · have hs : sys.Reach (sys.after [.capture 0 true, .copyConstruct 1 0, .destroy 1]) :=
      Sys.reach_after rfl
    have := hall _ hs 0 0 rfl
    exact absurd this (by decide)

end Snapshot

end Errors

end Corsl
