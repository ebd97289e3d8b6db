/-!
# One thread tells another

A flag under a lock, with a condition variable. The teller takes the lock, sets the flag, wakes the
waiter and releases the lock. The waiter takes the lock, sleeps while the flag is not set, and
releases the lock; it may wake up without being told. After that the lock, the flag and the
condition variable are gone.

`Handshake.Inv` holds wherever the two are. The waiter leaves when the teller is done with all three
(`Inv.leaves`), and no notification is lost: while the waiter sleeps the teller has not woken it yet
(`Inv.asleep`), so once the teller is done the waiter is never kept waiting (`Inv.wait_enabled`).
-/

namespace Conc

namespace Handshake

/-- The two threads. -/
inductive Side where
  | teller | waiter
  deriving DecidableEq, Repr

/-- Where the teller is. -/
inductive Teller where
  /-- It has nothing to tell yet. -/
  | away
  | locking
  /-- It has the lock. -/
  | setting
  | waking
  | unlocking
  | done
  deriving DecidableEq, Repr

/-- Where the waiter is. -/
inductive Waiter where
  | away
  | locking
  /-- It has the lock, and looks at the flag. -/
  | testing
  /-- It has released the lock. -/
  | asleep
  /-- It takes the lock again. -/
  | woken
  /-- It has seen the flag. -/
  | leaving
  | gone
  deriving DecidableEq, Repr

namespace Teller

def holds : Teller → Bool
  | .setting | .waking | .unlocking => true
  | .away | .locking | .done => false

def hasSet : Teller → Bool
  | .waking | .unlocking | .done => true
  | .away | .locking | .setting => false

def hasWoken : Teller → Bool
  | .unlocking | .done => true
  | .away | .locking | .setting | .waking => false

/-- How far it is from its end. -/
def left : Teller → Nat
  | .away => 5
  | .locking => 4
  | .setting => 3
  | .waking => 2
  | .unlocking => 1
  | .done => 0

end Teller

namespace Waiter

def holds : Waiter → Bool
  | .testing | .leaving => true
  | .away | .locking | .asleep | .woken | .gone => false

/-- It has seen the flag. -/
def hasSeen : Waiter → Bool
  | .leaving | .gone => true
  | .away | .locking | .testing | .asleep | .woken => false

/-- Notified: it wakes up if it sleeps. -/
def wake : Waiter → Waiter
  | .asleep => .woken
  | w => w

@[simp] theorem wake_holds (w : Waiter) : w.wake.holds = w.holds := by cases w <;> rfl
@[simp] theorem wake_hasSeen (w : Waiter) : w.wake.hasSeen = w.hasSeen := by cases w <;> rfl
@[simp] theorem wake_ne_asleep (w : Waiter) : w.wake ≠ .asleep := by cases w <;> simp [wake]

/-- How far it is from its end, once the flag is set. -/
def left : Waiter → Nat
  | .away => 5
  | .locking | .woken => 4
  | .testing => 3
  | .asleep => 2
  | .leaving => 1
  | .gone => 0

end Waiter

end Handshake

open Handshake in
/-- The lock, the flag, and where the two threads are. -/
structure Handshake where
  lock : Option Side := none
  flag : Bool := false
  teller : Teller := .away
  waiter : Waiter := .away
  /-- Something was used that is gone. -/
  undefined : Bool := false
  deriving DecidableEq, Repr

namespace Handshake

variable {h h' : Handshake}

/-- A step of the teller uses what the waiter destroys. -/
def touch (h : Handshake) : Handshake := { h with undefined := h.undefined || h.waiter = .gone }

/-- The next step of the teller. -/
def tell (h : Handshake) : Option Handshake :=
  match h.teller with
  | .locking =>
    if h.lock = none then some { h.touch with lock := some .teller, teller := .setting } else none
  | .setting => some { h.touch with flag := true, teller := .waking }
  | .waking => some { h.touch with waiter := h.waiter.wake, teller := .unlocking }
  | .unlocking => some { h.touch with lock := none, teller := .done }
  | .away | .done => none

/-- The next step of the waiter. -/
def wait (h : Handshake) : Option Handshake :=
  match h.waiter with
  | .locking | .woken =>
    if h.lock = none then some { h with lock := some .waiter, waiter := .testing } else none
  | .testing =>
    if h.flag then some { h with waiter := .leaving }
    else some { h with lock := none, waiter := .asleep }
  | .leaving => some { h with lock := none, waiter := .gone }
  | .away | .asleep | .gone => none

/-- The waiter wakes up without being told. -/
def spurious (h : Handshake) : Option Handshake :=
  if h.waiter = .asleep then some { h with waiter := .woken } else none

/-- The invariant. -/
structure Inv (h : Handshake) : Prop where
  teller : h.lock = some .teller ↔ h.teller.holds = true
  waiter : h.lock = some .waiter ↔ h.waiter.holds = true
  flag : h.flag = h.teller.hasSet
  leaves : h.waiter.hasSeen = true → h.teller = .done
  asleep : h.waiter = .asleep → h.teller.hasWoken = false
  defined : h.undefined = false

namespace Inv

theorem init : Inv {} := by
  constructor <;> simp [Teller.holds, Waiter.holds, Teller.hasSet, Waiter.hasSeen]

/-- The lock is free when neither side is between taking and releasing it. -/
theorem free (h : Inv h') (ht : h'.teller.holds = false) (hw : h'.waiter.holds = false) :
    h'.lock = none := by
  cases hl : h'.lock with
  | none => rfl
  | some side =>
    cases side with
    | teller => rw [h.teller.mp hl] at ht; cases ht
    | waiter => rw [h.waiter.mp hl] at hw; cases hw

/-- Before the teller is done, nothing is gone. -/
theorem not_seen (hi : Inv h) (ht : h.teller ≠ .done) : h.waiter.hasSeen = false := by
  rw [← Bool.not_eq_true]
  exact fun hs => ht (hi.leaves hs)

theorem touch_defined (hi : Inv h) (ht : h.teller ≠ .done) : h.touch.undefined = false := by
  have hs := hi.not_seen ht
  have hg : h.waiter ≠ .gone := fun hg => by rw [hg] at hs; cases hs
  simp [touch, hi.defined, hg]

theorem tell (hi : Inv h) (hst : h.tell = some h') : Inv h' := by
  have hu := hi.touch_defined
  have hs := hi.not_seen
  obtain ⟨ht, hw, hf, hl, ha, hd⟩ := hi
  unfold Handshake.tell at hst
  cases hc : h.teller with
  | away => simp [hc] at hst
  | done => simp [hc] at hst
  | locking =>
    simp only [hc] at hst
    split at hst <;> cases hst
    constructor <;> simp_all [Teller.holds, Teller.hasSet, Teller.hasWoken, touch]
  | setting =>
    simp only [hc] at hst
    cases hst
    constructor <;> simp_all [Teller.holds, Teller.hasSet, Teller.hasWoken, touch]
  | waking =>
    simp only [hc] at hst
    cases hst
    constructor <;> simp_all [Teller.holds, Teller.hasSet, Teller.hasWoken, touch]
  | unlocking =>
    simp only [hc] at hst
    cases hst
    constructor <;> simp_all [Teller.holds, Teller.hasSet, Teller.hasWoken, touch]

theorem wait (hi : Inv h) (hst : h.wait = some h') : Inv h' := by
  obtain ⟨ht, hw, hf, hl, ha, hd⟩ := hi
  unfold Handshake.wait at hst
  cases hc : h.waiter with
  | away => simp [hc] at hst
  | asleep => simp [hc] at hst
  | gone => simp [hc] at hst
  | locking =>
    simp only [hc] at hst
    split at hst <;> cases hst
    constructor <;> simp_all [Waiter.holds, Waiter.hasSeen]
  | woken =>
    simp only [hc] at hst
    split at hst <;> cases hst
    constructor <;> simp_all [Waiter.holds, Waiter.hasSeen]
  | testing =>
    -- the waiter has the lock, so the teller has set the flag and is done, or has not set it yet
    have hh : h.teller.holds = false := by
      have hlock : h.lock = some .waiter := hw.mpr (by rw [hc]; rfl)
      rw [hlock] at ht
      simpa using ht
    simp only [hc] at hst
    split at hst <;> cases hst <;> cases hk : h.teller <;>
      constructor <;>
      simp_all [Waiter.holds, Waiter.hasSeen, Teller.holds, Teller.hasSet, Teller.hasWoken]
  | leaving =>
    simp only [hc] at hst
    cases hst
    constructor <;> simp_all [Waiter.holds, Waiter.hasSeen, Teller.holds]

theorem spurious (hi : Inv h) (hst : h.spurious = some h') : Inv h' := by
  obtain ⟨ht, hw, hf, hl, ha, hd⟩ := hi
  unfold Handshake.spurious at hst
  split at hst <;> cases hst
  rename_i hc
  constructor <;> simp_all [Waiter.holds, Waiter.hasSeen]

/-- The teller is kept waiting by a waiter that looks at the flag, at most. -/
theorem tell_enabled (hi : Inv h) (ha : h.teller ≠ .away) (hd : h.teller ≠ .done)
    (hw : h.waiter ≠ .testing) : h.tell.isSome = true := by
  cases hc : h.teller with
  | away => exact absurd hc ha
  | done => exact absurd hc hd
  | locking =>
    have hs := hi.not_seen hd
    have hfree : h.lock = none := hi.free (by rw [hc]; rfl) (by
      cases hk : h.waiter <;> simp_all [Waiter.holds, Waiter.hasSeen])
    simp [Handshake.tell, hc, hfree]
  | setting => simp [Handshake.tell, hc]
  | waking => simp [Handshake.tell, hc]
  | unlocking => simp [Handshake.tell, hc]

/-- The teller begins. -/
theorem begin_tell (hi : Inv h) (ht : h.teller = .away) :
    Inv { h with teller := .locking } := by
  obtain ⟨htl, hw, hf, hl, ha, hd⟩ := hi
  constructor <;> simp_all [Teller.holds, Teller.hasSet, Teller.hasWoken]

/-- The waiter begins. -/
theorem begin_wait (hi : Inv h) (hw : h.waiter = .away) : Inv { h with waiter := .locking } := by
  obtain ⟨ht, hwl, hf, hl, ha, hd⟩ := hi
  constructor <;> simp_all [Waiter.holds, Waiter.hasSeen]

/-- Once the teller is done, the waiter is never kept waiting. -/
theorem wait_enabled (hi : Inv h) (hd : h.teller = .done) (ha : h.waiter ≠ .away)
    (hg : h.waiter ≠ .gone) : h.wait.isSome = true := by
  have hs : h.waiter ≠ .asleep := fun hs => by
    have := hi.asleep hs
    rw [hd] at this
    cases this
  have hf : h.flag = true := by rw [hi.flag, hd]; rfl
  cases hc : h.waiter with
  | away => exact absurd hc ha
  | asleep => exact absurd hc hs
  | gone => exact absurd hc hg
  | locking =>
    have hfree : h.lock = none := hi.free (by rw [hd]; rfl) (by rw [hc]; rfl)
    simp [Handshake.wait, hc, hfree]
  | woken =>
    have hfree : h.lock = none := hi.free (by rw [hd]; rfl) (by rw [hc]; rfl)
    simp [Handshake.wait, hc, hfree]
  | testing => simp [Handshake.wait, hc, hf]
  | leaving => simp [Handshake.wait, hc]

end Inv

/-- What a step of the teller leaves alone. -/
theorem tell_frame (hst : h.tell = some h') :
    h.teller ≠ .away ∧ h.teller ≠ .done ∧ h'.teller ≠ .away ∧
      (h'.waiter = .away ↔ h.waiter = .away) ∧ (h'.waiter = .gone ↔ h.waiter = .gone) ∧
      (h.waiter = .locking → h'.waiter = .locking) := by
  unfold Handshake.tell at hst
  split at hst
  · split at hst <;> cases hst
    simp [*, touch]
  · cases hst
    simp [*, touch]
  · cases hst
    cases hw : h.waiter <;> simp [*, Waiter.wake]
  · cases hst
    simp [*, touch]
  · cases hst
  · cases hst

/-- What a step of the waiter leaves alone. -/
theorem wait_frame (hst : h.wait = some h') :
    h'.teller = h.teller ∧ h.waiter ≠ .away ∧ h.waiter ≠ .gone ∧ h'.waiter ≠ .away ∧
      (h'.waiter = .gone → h.waiter = .leaving) := by
  unfold Handshake.wait at hst
  split at hst
  · split at hst <;> cases hst
    simp [*]
  · split at hst <;> cases hst
    simp [*]
  · split at hst <;> cases hst <;> simp [*]
  · cases hst
    simp [*]
  all_goals cases hst

/-- Each step of the teller brings it nearer to its end. -/
theorem tell_left (hst : h.tell = some h') : h'.teller.left < h.teller.left := by
  unfold Handshake.tell at hst
  split at hst
  · split at hst <;> cases hst
    simp [*, Teller.left]
  all_goals first | (cases hst; simp [*, Teller.left]) | cases hst

/-- Once the flag is set, so does each step of the waiter. -/
theorem wait_left (hf : h.flag = true) (hst : h.wait = some h') :
    h'.waiter.left < h.waiter.left ∧ h'.teller = h.teller ∧ h'.flag = true := by
  unfold Handshake.wait at hst
  split at hst
  · split at hst <;> cases hst
    simp [*, Waiter.left]
  · split at hst <;> cases hst
    simp [*, Waiter.left]
  · rw [if_pos hf] at hst
    cases hst
    simp [*, Waiter.left]
  all_goals first | (cases hst; simp [*, Waiter.left]) | cases hst

end Handshake

end Conc
