import Corsl.Basic
import Corsl.Conc.Sys

/-!
# Cancellation (`cancel.h`)

Sources, tokens and subscriptions, and the system of all threads that use them.

* `Body`, `Token`, `Subscription`: `cancellation_source_body`, `cancellation_token` and
  `cancellation_subscription`, with their members and the functions that run under their locks.
  A body is known by its number, as is a token, a subscription and a call of `cancel`.
* `Ref`: a body is shared by the `std::shared_ptr`s to it. `Body.refs` lists their owners, so the
  use count is its length; a `weak_ptr` of `related_sources` has expired when it is empty.
* `Call`: a call of `cancellation_source_body::cancel`, with its place in the loops (`CancelPc`).
  It holds the body's lock from its first section to its end, and a token's lock while it is in
  `cancellation_token::cancel`. The call on a related body is a call of its own (`nested`), which
  its caller waits for.
* `step`: the atomic steps (`Ev`). A constructor's check and its locked insertion are two steps. A
  step that waits for a lock is not possible while the lock is held. Two rules are those of the
  language, not of the code: a source object is used only while it exists, and a token is destroyed
  after the subscriptions that refer to it.

`Body.parent`, `Token.users`, `Subscription.runs` and `Subscription.invoked` are ghost fields.
-/

namespace Corsl

open Conc Function

namespace Cancel

/-- The owners of the `shared_ptr`s to a body. -/
inductive Ref where
  /-- A `cancellation_source` object. -/
  | source
  | token (t : Nat)
  /-- A call of `cancel`: the source object of an outer call, `pr` of a nested one. -/
  | call (k : Nat)
  /-- A call of `create_connected_source`, which makes body `c`. -/
  | connect (c : Nat)
  deriving DecidableEq, Repr

/-- A body exists (`ready`), or its `create_connected_source` has not returned. -/
inductive BodyPhase where
  | unborn | connecting | ready
  deriving DecidableEq, Repr

/-- `cancellation_source_body`. -/
structure Body where
  phase : BodyPhase := .unborn
  parent : Option Nat := none
  refs : List Ref := []
  lock : Option Nat := none
  tokens : List Nat := []
  related : List Nat := []
  cancelled : Bool := false

namespace Body

/-- `cancellation_source_body::add_token`. -/
def addToken (b : Body) (token : Nat) : Body := { b with tokens := b.tokens ++ [token] }

/-- `cancellation_source_body::remove_token`. -/
def removeToken (b : Body) (token : Nat) : Body := { b with tokens := b.tokens.erase token }

/-- `cancellation_source_body::add_related`. -/
def addRelated (b : Body) (related : Nat) : Body := { b with related := b.related ++ [related] }

/-- `cancellation_source_body::is_cancelled`. -/
def isCancelled (b : Body) : Bool := b.cancelled

/-- `weak_ptr::lock` would give null. -/
def expired (b : Body) : Bool := b.refs.isEmpty

end Body

/-- Where a token is: in its constructor (`begun`, `read`, `checked`), alive, or in its
destructor (`removed`). -/
inductive TokenPhase where
  | unborn | begun | read | checked | live | removed | gone | threw
  deriving DecidableEq, Repr

/-- `cancellation_token`. -/
structure Token where
  phase : TokenPhase := .unborn
  body : Nat := 0
  coro : Option Nat := none
  lock : Option Nat := none
  callbacks : List Nat := []
  cancelled : Bool := false
  /-- The subscriptions that refer to it. -/
  users : List Nat := []

namespace Token

/-- `cancellation_token::add_subscription`. -/
def addSubscription (t : Token) (callback : Nat) : Token :=
  { t with callbacks := callback :: t.callbacks }

/-- `cancellation_token::remove_subscription`. -/
def removeSubscription (t : Token) (callback : Nat) : Token :=
  { t with callbacks := t.callbacks.erase callback }

/-- `cancellation_token::is_cancelled`. -/
def isCancelled (t : Token) : Bool := t.cancelled

/-- `cancellation_token::check_cancelled`. -/
def checkCancelled (t : Token) : Except Exception Unit :=
  if t.isCancelled then .error .operationCancelled else .ok ()

theorem checkCancelled_error {t : Token} {e : Exception} (h : t.checkCancelled = .error e) :
    t.cancelled = true := by
  unfold checkCancelled at h
  split at h
  · assumption
  · cases h

theorem checkCancelled_ok {t : Token} {x : Unit} (h : t.checkCancelled = .ok x) :
    t.cancelled = false := by
  unfold checkCancelled at h
  split at h
  · cases h
  · rename_i hc
    exact Bool.eq_false_iff.mpr hc

end Token

/-- Where a subscription is: in its constructor, alive, or in its destructor (`removed`). -/
inductive SubPhase where
  | unborn | begun | checked | live | removed | gone | threw
  deriving DecidableEq, Repr

/-- `cancellation_subscription`. Each `run()` is a coroutine of its own; `pending` of them are
submitted, and `running` of them are in the callback `f`. -/
structure Subscription where
  phase : SubPhase := .unborn
  token : Nat := 0
  completed : Bool := true
  pending : Nat := 0
  running : Nat := 0
  /-- The number of calls of `run()`. -/
  runs : Nat := 0
  /-- The number of calls of `f`. -/
  invoked : Nat := 0

/-- Where a call of `cancel` is. -/
inductive CancelPc where
  | unborn
  /-- It waits for the body's lock. -/
  | enter
  /-- In the loop over the tokens, with those still to cancel. -/
  | tokens (todo : List Nat)
  /-- In the cancel of token `t`, whose flag is set. -/
  | promise (t : Nat) (todo : List Nat)
  /-- In the loop over the callbacks of token `t`. -/
  | callbacks (t : Nat) (subs todo : List Nat)
  /-- In the `run()` of subscription `u`, before its submission. -/
  | submit (t u : Nat) (subs todo : List Nat)
  /-- In the loop over the related bodies. -/
  | related (todo : List Nat)
  /-- It waits for the nested call `k` on body `c`. -/
  | nested (c k : Nat) (todo : List Nat)
  | done
  deriving DecidableEq, Repr

/-- A call of `cancellation_source_body::cancel`. -/
structure Call where
  pc : CancelPc := .unborn
  body : Nat := 0
  /-- It was made through a source object, not by another call. -/
  outer : Bool := true

/-- The state of the system. -/
structure St where
  bodies : Nat → Body := fun _ => {}
  tokens : Nat → Token := fun _ => {}
  subs : Nat → Subscription := fun _ => {}
  calls : Nat → Call := fun _ => {}
  promises : Nat → PromiseBase0 := fun _ => {}

/-- The atomic steps. The numbers of new objects are free ones. -/
inductive Ev where
  | newSource (b : Nat)
  | copySource (b : Nat)
  | dropSource (b : Nat)
  /-- `create_connected_source` on body `b` makes body `c`. -/
  | connect (b c : Nat)
  /-- `parent->add_related(body)`, and the new source is returned. -/
  | link (c : Nat)
  /-- `cancellation_source::cancel`. -/
  | cancel (b k : Nat)
  /-- The next step of call `k`, other than `nest`. -/
  | call (k : Nat)
  /-- Call `k` locks the next related body and calls its `cancel`, the call `k'`. -/
  | nest (k k' : Nat)
  /-- The constructor of a token: the copy of the source's `body`. `coro` is the promise of the
  transport. -/
  | tokenBegin (t b : Nat) (coro : Option Nat)
  | tokenRead (t : Nat)
  | tokenCheck (t : Nat)
  | tokenAdd (t : Nat)
  /-- The destructor of a token, and the release of its `body`. -/
  | tokenRemove (t : Nat)
  | tokenRelease (t : Nat)
  | subBegin (u t : Nat)
  | subCheck (u : Nat)
  | subAdd (u : Nat)
  | subRemove (u : Nat)
  /-- `wait_while` has returned. -/
  | subDone (u : Nat)
  /-- A submitted `run()` calls `f`. -/
  | callback (u : Nat)
  /-- Its section after `f`. -/
  | complete (u : Nat)
  deriving DecidableEq, Repr

namespace St

/-- A source object of body `b` exists. -/
def hasSource (s : St) (b : Nat) : Bool :=
  (s.bodies b).phase = .ready && (s.bodies b).refs.contains .source

/-- Call `k` goes to `pc`. -/
def goto (s : St) (k : Nat) (pc : CancelPc) : St :=
  { s with calls := update s.calls k { s.calls k with pc } }

/-- Call `k` returns; the body keeps `lock` and `related`. -/
def leave (s : St) (k : Nat) (lock : Option Nat) (related : List Nat) : St :=
  let b := (s.calls k).body
  let refs := (s.bodies b).refs
  { s.goto k .done with
    bodies := update s.bodies b { s.bodies b with
      lock, related, refs := if (s.calls k).outer then refs.erase (.call k) else refs } }

end St

/-- The next step of call `k` of `cancel`, other than a nested call. -/
def callStep (s : St) (k : Nat) : Option St :=
  let b := (s.calls k).body
  match (s.calls k).pc with
  | .unborn | .done => none
  | .enter =>
    if (s.bodies b).lock ≠ none then none
    else if (s.bodies b).cancelled then some (s.leave k none (s.bodies b).related)
    else
      some { s.goto k (.tokens (s.bodies b).tokens) with
        bodies := update s.bodies b { s.bodies b with lock := some k, cancelled := true } }
  | .tokens [] => some (s.goto k (.related (s.bodies b).related))
  | .tokens (t :: todo) =>
    if (s.tokens t).lock ≠ none then none
    else
      some { s.goto k (.promise t todo) with
        tokens := update s.tokens t { s.tokens t with lock := some k, cancelled := true } }
  | .promise t todo =>
    match (s.tokens t).coro with
    | none => some (s.goto k (.callbacks t (s.tokens t).callbacks todo))
    | some p =>
      some { s.goto k (.callbacks t (s.tokens t).callbacks todo) with
        promises := update s.promises p (s.promises p).cancel }
  | .callbacks t [] todo =>
    some { s.goto k (.tokens todo) with
      tokens := update s.tokens t { s.tokens t with lock := none } }
  | .callbacks t (u :: subs) todo =>
    some { s.goto k (.submit t u subs todo) with
      subs := update s.subs u
        { s.subs u with completed := false, runs := (s.subs u).runs + 1 } }
  | .submit t u subs todo =>
    some { s.goto k (.callbacks t subs todo) with
      subs := update s.subs u { s.subs u with pending := (s.subs u).pending + 1 } }
  | .related [] => some (s.leave k none [])
  | .related (c :: todo) =>
    if (s.bodies c).expired then some (s.goto k (.related todo)) else none
  | .nested c k' todo =>
    if (s.calls k').pc = .done then
      some { s.goto k (.related todo) with
        bodies := update s.bodies c
          { s.bodies c with refs := (s.bodies c).refs.erase (.call k') } }
    else none

/-- The steps of sources. -/
def sourceStep (s : St) : Ev → Option St
  | .newSource b =>
    if (s.bodies b).phase = .unborn then
      some { s with bodies := update s.bodies b { phase := .ready, refs := [.source] } }
    else none
  | .copySource b =>
    if s.hasSource b then
      some { s with
        bodies := update s.bodies b { s.bodies b with refs := .source :: (s.bodies b).refs } }
    else none
  | .dropSource b =>
    if s.hasSource b then
      some { s with
        bodies := update s.bodies b { s.bodies b with refs := (s.bodies b).refs.erase .source } }
    else none
  | .connect b c =>
    if s.hasSource b ∧ (s.bodies c).phase = .unborn then
      some { s with
        bodies := update (update s.bodies b
          { s.bodies b with refs := .connect c :: (s.bodies b).refs }) c
          { phase := .connecting, parent := some b, refs := [.source] } }
    else none
  | .link c =>
    match (s.bodies c).phase, (s.bodies c).parent with
    | .connecting, some b =>
      if (s.bodies b).lock ≠ none then none
      else
        some { s with
          bodies := update (update s.bodies b
            { (s.bodies b).addRelated c with refs := (s.bodies b).refs.erase (.connect c) }) c
            { s.bodies c with phase := .ready } }
    | _, _ => none
  | .cancel b k =>
    if s.hasSource b ∧ (s.calls k).pc = .unborn then
      some { s with
        bodies := update s.bodies b { s.bodies b with refs := .call k :: (s.bodies b).refs }
        calls := update s.calls k { pc := .enter, body := b, outer := true } }
    else none
  | .nest k k' =>
    match (s.calls k).pc with
    | .related (c :: todo) =>
      if !(s.bodies c).expired ∧ (s.calls k').pc = .unborn then
        some { s with
          bodies := update s.bodies c { s.bodies c with refs := .call k' :: (s.bodies c).refs }
          calls := update (update s.calls k { s.calls k with pc := .nested c k' todo }) k'
            { pc := .enter, body := c, outer := false } }
      else none
    | _ => none
  | _ => none

/-- The steps of tokens. -/
def tokenStep (s : St) : Ev → Option St
  | .tokenBegin t b coro =>
    if s.hasSource b ∧ (s.tokens t).phase = .unborn then
      some { s with
        bodies := update s.bodies b { s.bodies b with refs := .token t :: (s.bodies b).refs }
        tokens := update s.tokens t { phase := .begun, body := b, coro } }
    else none
  | .tokenRead t =>
    let b := (s.tokens t).body
    if (s.tokens t).phase = .begun ∧ (s.bodies b).lock = none then
      some { s with
        tokens := update s.tokens t
          { s.tokens t with phase := .read, cancelled := (s.bodies b).isCancelled } }
    else none
  | .tokenCheck t =>
    let b := (s.tokens t).body
    if (s.tokens t).phase = .read then
      match (s.tokens t).checkCancelled with
      | .error _ =>
        some { s with
          bodies := update s.bodies b
            { s.bodies b with refs := (s.bodies b).refs.erase (.token t) }
          tokens := update s.tokens t { s.tokens t with phase := .threw } }
      | .ok _ =>
        some { s with tokens := update s.tokens t { s.tokens t with phase := .checked } }
    else none
  | .tokenAdd t =>
    let b := (s.tokens t).body
    if (s.tokens t).phase = .checked ∧ (s.bodies b).lock = none then
      some { s with
        bodies := update s.bodies b ((s.bodies b).addToken t)
        tokens := update s.tokens t { s.tokens t with phase := .live } }
    else none
  | .tokenRemove t =>
    let b := (s.tokens t).body
    if (s.tokens t).phase = .live ∧ (s.bodies b).lock = none ∧ (s.tokens t).users = [] then
      some { s with
        bodies := update s.bodies b ((s.bodies b).removeToken t)
        tokens := update s.tokens t { s.tokens t with phase := .removed } }
    else none
  | .tokenRelease t =>
    let b := (s.tokens t).body
    if (s.tokens t).phase = .removed then
      some { s with
        bodies := update s.bodies b
          { s.bodies b with refs := (s.bodies b).refs.erase (.token t) }
        tokens := update s.tokens t { s.tokens t with phase := .gone } }
    else none
  | _ => none

/-- The steps of subscriptions. -/
def subStep (s : St) : Ev → Option St
  | .subBegin u t =>
    if (s.tokens t).phase = .live ∧ (s.subs u).phase = .unborn then
      some { s with
        tokens := update s.tokens t { s.tokens t with users := u :: (s.tokens t).users }
        subs := update s.subs u { phase := .begun, token := t } }
    else none
  | .subCheck u =>
    let t := (s.subs u).token
    if (s.subs u).phase = .begun then
      match (s.tokens t).checkCancelled with
      | .error _ =>
        some { s with
          tokens := update s.tokens t { s.tokens t with users := (s.tokens t).users.erase u }
          subs := update s.subs u { s.subs u with phase := .threw } }
      | .ok _ => some { s with subs := update s.subs u { s.subs u with phase := .checked } }
    else none
  | .subAdd u =>
    let t := (s.subs u).token
    if (s.subs u).phase = .checked ∧ (s.tokens t).lock = none then
      some { s with
        tokens := update s.tokens t ((s.tokens t).addSubscription u)
        subs := update s.subs u { s.subs u with phase := .live } }
    else none
  | .subRemove u =>
    let t := (s.subs u).token
    if (s.subs u).phase = .live ∧ (s.tokens t).lock = none then
      some { s with
        tokens := update s.tokens t ((s.tokens t).removeSubscription u)
        subs := update s.subs u { s.subs u with phase := .removed } }
    else none
  | .subDone u =>
    let t := (s.subs u).token
    if (s.subs u).phase = .removed ∧ (s.subs u).completed then
      some { s with
        tokens := update s.tokens t { s.tokens t with users := (s.tokens t).users.erase u }
        subs := update s.subs u { s.subs u with phase := .gone } }
    else none
  | .callback u =>
    if 0 < (s.subs u).pending then
      some { s with
        subs := update s.subs u { s.subs u with
          pending := (s.subs u).pending - 1, running := (s.subs u).running + 1
          invoked := (s.subs u).invoked + 1 } }
    else none
  | .complete u =>
    if 0 < (s.subs u).running then
      some { s with
        subs := update s.subs u
          { s.subs u with running := (s.subs u).running - 1, completed := true } }
    else none
  | _ => none

/-- One atomic step. -/
def step (s : St) : Ev → Option St
  | .call k => callStep s k
  | e => (sourceStep s e).orElse fun _ => (tokenStep s e).orElse fun _ => subStep s e

/-- The threads that use cancellation. -/
def sys : Sys St Ev := ⟨{}, step⟩

end Cancel

end Corsl
