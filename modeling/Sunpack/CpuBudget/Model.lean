import Mathlib.Tactic
import Sunpack.Lib.Machine

/-!
# The native CPU budget

`NativeCpuBudget` and `NativeCpuJobContext` of the 7-Zip bridge. A step is one atomic operation: a
load, an exchange, an addition, or a call of the capacity callback; a weak exchange may fail for no
reason. `κ` are the job contexts, `ι` the threads that call.

The peak of a context is left out: nothing but the diagnostics reads it.
-/

namespace Sunpack.CpuBudget

structure Options where
  nominalCapacity : Nat
  /-- Whether there is a capacity callback. -/
  capacityAvailable : Bool

/-- The constructor asks for one credit at least. -/
def Options.capacity (o : Options) : Nat := max 1 o.nominalCapacity

/-- Where a thread stands. -/
inductive Phase (κ : Type)
  | idle
  /-- `acquire_up_to`, for a context or (`none`) for a base credit, with the value observed. -/
  | acquiring (who : Option κ) (wanted minimumGrant reserved : Nat)
  /-- The budget gave; the context does not know yet. -/
  | granted (c : κ) (grant : Nat)
  /-- `release_extra`, with the value observed. -/
  | reducing (c : κ) (count current : Nat)
  /-- The destructor, before its exchange. -/
  | destroying (c : κ)
  /-- `release`, before and after its load. -/
  | releasing (count : Nat)
  | returning (count reserved : Nat)
  | notifying
deriving DecidableEq

structure State (ι κ : Type) where
  reserved : Nat
  /-- The base credits held by jobs. -/
  base : Nat
  /-- `current_extra_` of the contexts. -/
  extra : κ → Nat
  phase : ι → Phase κ
  /-- History: what the budget granted to each context, and what the context gave back. -/
  given : κ → Nat
  returned : κ → Nat
  /-- History: the calls of the capacity callback. -/
  callbacks : Nat

inductive Action (ι κ : Type)
  | tryAcquireBase (i : ι)
  | releaseBase (i : ι)
  | acquireExtra (i : ι) (c : κ) (wanted minimumGrant : Nat)
  | acquireAllAvailable (i : ι) (c : κ)
  | releaseExtra (i : ι) (c : κ) (count : Nat)
  | destroy (i : ι) (c : κ)
  /-- The next atomic operation of a call under way. -/
  | go (i : ι) (spurious : Bool)

section Steps

variable {ι κ : Type} [DecidableEq ι] [DecidableEq κ]

namespace State

def init : State ι κ where
  reserved := 0
  base := 0
  extra _ := 0
  phase _ := .idle
  given _ := 0
  returned _ := 0
  callbacks := 0

def setPhase (s : State ι κ) (i : ι) (p : Phase κ) : State ι κ :=
  { s with phase := Function.update s.phase i p }

/-- The head of `acquire_up_to`, up to its load. -/
def acquireUpTo (s : State ι κ) (i : ι) (who : Option κ) (wanted minimumGrant : Nat) : State ι κ :=
  if wanted = 0 then s
  else if max 1 minimumGrant > wanted then s
  else s.setPhase i (.acquiring who wanted (max 1 minimumGrant) s.reserved)

/-- One round of the loop of `acquire_up_to`. -/
def acquireRound (o : Options) (s : State ι κ) (i : ι) (who : Option κ)
    (wanted minimumGrant reserved : Nat) (spurious : Bool) : State ι κ :=
  if reserved ≥ o.capacity then s.setPhase i .idle
  else if min wanted (o.capacity - reserved) < minimumGrant then s.setPhase i .idle
  else if s.reserved = reserved ∧ !spurious then
    let grant := min wanted (o.capacity - reserved)
    match who with
    | none => { s.setPhase i .idle with reserved := reserved + grant, base := s.base + grant }
    | some c =>
      { s.setPhase i (.granted c grant) with
        reserved := reserved + grant
        given := Function.update s.given c (s.given c + grant) }
  else s.setPhase i (.acquiring who wanted minimumGrant s.reserved)

/-- `fetch_add` of the context. -/
def addExtra (s : State ι κ) (i : ι) (c : κ) (grant : Nat) : State ι κ :=
  { s.setPhase i .idle with extra := Function.update s.extra c (s.extra c + grant) }

/-- `release` of the budget, up to its load. -/
def releasePhase (count : Nat) : Phase κ := if count = 0 then .idle else .releasing count

/-- The context gives back some of its credits. -/
def giveBack (s : State ι κ) (i : ι) (c : κ) (released : Nat) : State ι κ :=
  { s.setPhase i (releasePhase released) with
    extra := Function.update s.extra c (s.extra c - released)
    returned := Function.update s.returned c (s.returned c + released) }

/-- One round of the loop of `release_extra`. -/
def reduceRound (s : State ι κ) (i : ι) (c : κ) (count current : Nat) (spurious : Bool) :
    State ι κ :=
  if s.extra c = current ∧ !spurious then s.giveBack i c (min count current)
  else s.setPhase i (.reducing c count (s.extra c))

/-- One round of the loop of `release`, and whether the callback follows. -/
def returnRound (o : Options) (s : State ι κ) (i : ι) (count reserved : Nat) (spurious : Bool) :
    State ι κ :=
  let next := if count ≥ reserved then 0 else reserved - count
  if s.reserved = reserved ∧ !spurious then
    { s.setPhase i
        (if o.capacityAvailable ∧ reserved ≥ o.capacity ∧ next < o.capacity then .notifying
          else .idle) with
      reserved := next }
  else s.setPhase i (.returning count s.reserved)

end State

open State in
def step (o : Options) (s : State ι κ) : Action ι κ → Option (State ι κ)
  | .tryAcquireBase i => if s.phase i = .idle then some (s.acquireUpTo i none 1 1) else none
  | .releaseBase i =>
    -- a job releases the base credit it holds
    if s.phase i = .idle ∧ 0 < s.base then
      some { s.setPhase i (releasePhase 1) with base := s.base - 1 }
    else none
  | .acquireExtra i c wanted minimumGrant =>
    if s.phase i = .idle then some (s.acquireUpTo i (some c) wanted minimumGrant) else none
  | .acquireAllAvailable i c =>
    if s.phase i = .idle then some (s.acquireUpTo i (some c) (2 ^ 64 - 1) 1) else none
  | .releaseExtra i c count =>
    if s.phase i = .idle then
      some (if count = 0 then s else s.setPhase i (.reducing c count (s.extra c)))
    else none
  | .destroy i c =>
    if s.phase i = .idle then
      some (if s.extra c = 0 then s else s.setPhase i (.destroying c))
    else none
  | .go i spurious =>
    match s.phase i with
    | .idle => none
    | .acquiring who wanted minimumGrant reserved =>
      some (s.acquireRound o i who wanted minimumGrant reserved spurious)
    | .granted c grant => some (s.addExtra i c grant)
    | .reducing c count current => some (s.reduceRound i c count current spurious)
    | .destroying c => some (s.giveBack i c (s.extra c))
    | .releasing count => some (s.setPhase i (.returning count s.reserved))
    | .returning count reserved => some (s.returnRound o i count reserved spurious)
    | .notifying => some { s.setPhase i .idle with callbacks := s.callbacks + 1 }

/-- The budget with its contexts and threads. -/
def budget (ι κ : Type) [DecidableEq ι] [DecidableEq κ] (o : Options) :
    Lib.Machine (State ι κ) (Action ι κ) where
  init := .init
  step := step o

end Steps

end Sunpack.CpuBudget
