import Mathlib.Data.Nat.Bitwise
import Mathlib.Logic.Function.Basic
import Sunpack.Lib.Machine

/-!
# The volume space monitor

`VolumeSpaceMonitor` of the 7-Zip bridge: the word that holds the sampling flag and the generation
of the blocked events, the calls of `note_blocked` and the ticks. A step is one atomic operation on
the word, one critical section, or one answer of the provider; any number of calls and ticks are
under way at once.

A volume gets blocked before its `note_blocked` is called. What a tick does with a volume after the
snapshot is one step here: it touches neither the word nor the set of blocked volumes.
-/

namespace Sunpack.SpaceMonitor

structure VolumeState where
  key : String
  /-- Whether the volume has a space gate; only a gate can be blocked. -/
  spaceGate : Bool
deriving DecidableEq, Repr

structure Options where
  pollInterval : Int
  provider : Bool

/-- The constructor replaces an interval that is not positive. -/
def Options.interval (o : Options) : Int := if o.pollInterval ≤ 0 then 1000 else o.pollInterval

/-- A call of `note_blocked`, on behalf of a volume or of none. -/
inductive NotePhase
  | idle
  /-- The volume is in the set and its call is still to come. -/
  | entered (v : VolumeState)
  | swapping (v : Option VolumeState) (expected : Nat)
deriving DecidableEq

/-- A tick. `seen` and `taken` are history: the blocked events when the generation was loaded and
when the snapshot was taken. -/
inductive TickPhase
  | idle
  | loaded (now : Int) (generation seen : Nat)
  | answered (now : Int) (generation seen taken : Nat) (states : List VolumeState)
  | clearing (generation seen taken : Nat) (states : List VolumeState)
deriving DecidableEq

structure State where
  /-- `sampling_generation_`. -/
  word : Nat
  nextPollAt : Int
  blocked : List VolumeState
  notes : Nat → NotePhase
  ticks : Nat → TickPhase
  /-- History: how many calls of `note_blocked` took effect. -/
  events : Nat
  /-- History: the volumes that were polled. -/
  polled : List VolumeState

def State.init : State where
  word := 0
  nextPollAt := 0
  blocked := []
  notes _ := .idle
  ticks _ := .idle
  events := 0
  polled := []

inductive Action
  | enter (i : Nat) (v : VolumeState)
  | leave (v : VolumeState)
  | load (i : Nat)
  /-- A weak exchange may fail for no reason. -/
  | swap (i : Nat) (spurious : Bool)
  | begin (k : Nat) (now : Int)
  | snapshot (k : Nat)
  | providerFails (k : Nat)
  | rest (k : Nat)
  | clear (k : Nat)
deriving DecidableEq

/-- The word after a blocked event. -/
def raise (word : Nat) : Nat := (word + 2) % 2 ^ 64 ||| 1

/-- The word with its low bit off. -/
def lower (word : Nat) : Nat := word &&& (2 ^ 64 - 2)

namespace State

/-- `sampling()`. -/
def sampling (s : State) : Bool := s.word &&& 1 ≠ 0

/-- Whether a tick with this time finds the poll due. -/
def due (s : State) (now : Int) : Bool := !(s.nextPollAt ≠ 0 && now < s.nextPollAt)

def setNote (s : State) (i : Nat) (p : NotePhase) : State :=
  { s with notes := Function.update s.notes i p }

def setTick (s : State) (k : Nat) (p : TickPhase) : State :=
  { s with ticks := Function.update s.ticks k p }

/-! ## `note_blocked` -/

def enter (s : State) (i : Nat) (v : VolumeState) : Option State :=
  if s.notes i = .idle ∧ v.spaceGate then
    some { s.setNote i (.entered v) with blocked := s.blocked.insert v }
  else none

def leave (s : State) (v : VolumeState) : Option State :=
  some { s with blocked := s.blocked.filter (· ≠ v) }

def load (s : State) (i : Nat) : Option State :=
  match s.notes i with
  | .idle => some (s.setNote i (.swapping none s.word))
  | .entered v => some (s.setNote i (.swapping (some v) s.word))
  | .swapping _ _ => none

def swap (s : State) (i : Nat) (spurious : Bool) : Option State :=
  match s.notes i with
  | .swapping v expected =>
    if s.word = expected ∧ !spurious then
      some { s.setNote i .idle with word := raise expected, events := s.events + 1 }
    else some (s.setNote i (.swapping v s.word))
  | _ => none

/-! ## `tick` -/

def begin (o : Options) (s : State) (k : Nat) (now : Int) : Option State :=
  match s.ticks k with
  | .idle =>
    if s.word &&& 1 = 0 then some s
    else if !o.provider then some s
    else some (s.setTick k (.loaded now s.word s.events))
  | _ => none

def snapshot (s : State) (k : Nat) : Option State :=
  match s.ticks k with
  | .loaded now generation seen =>
    some (s.setTick k (.answered now generation seen s.events s.blocked))
  | _ => none

def providerFails (s : State) (k : Nat) : Option State :=
  match s.ticks k with
  | .loaded _ _ _ => some (s.setTick k .idle)
  | _ => none

/-- The critical section after the snapshot, and the polls that follow it. -/
def rest (o : Options) (s : State) (k : Nat) : Option State :=
  match s.ticks k with
  | .answered now generation seen taken states =>
    if states.isEmpty then
      some { s.setTick k (.clearing generation seen taken states) with nextPollAt := 0 }
    else if s.due now then
      some { s.setTick k .idle with
        nextPollAt := now + o.interval
        polled := s.polled ++ states.filter (·.spaceGate) }
    else some (s.setTick k .idle)
  | _ => none

def clear (s : State) (k : Nat) : Option State :=
  match s.ticks k with
  | .clearing generation _ _ _ =>
    if s.word = generation then some { s.setTick k .idle with word := lower generation }
    else some (s.setTick k .idle)
  | _ => none

end State

def step (o : Options) (s : State) : Action → Option State
  | .enter i v => s.enter i v
  | .leave v => s.leave v
  | .load i => s.load i
  | .swap i spurious => s.swap i spurious
  | .begin k now => s.begin o k now
  | .snapshot k => s.snapshot k
  | .providerFails k => s.providerFails k
  | .rest k => s.rest o k
  | .clear k => s.clear k

/-- The monitor, its callers and the set of blocked volumes. -/
def monitor (o : Options) : Lib.Machine State Action where
  init := .init
  step := step o

/-- The volume is blocked and the call that reports it has not taken effect. -/
def State.Owes (s : State) (v : VolumeState) : Prop :=
  ∃ i, s.notes i = .entered v ∨ ∃ expected, s.notes i = .swapping (some v) expected

/-- The blocked events when the tick loaded its generation. -/
def TickPhase.seen : TickPhase → Nat
  | .idle => 0
  | .loaded _ _ seen => seen
  | .answered _ _ seen _ _ => seen
  | .clearing _ seen _ _ => seen

/-- Fewer than `2 ^ 63` blocked events while the tick that clears is under way: the generation, of
63 bits, does not come round. -/
def Brief (s : State) : Action → Prop
  | .clear k => s.events < (s.ticks k).seen + 2 ^ 63
  | _ => True

/-! ## The word -/

theorem and_one_eq_zero (n : Nat) : n &&& 1 = 0 ↔ n % 2 = 0 := by
  rw [Nat.and_one_is_mod]

theorem raise_eq (word : Nat) : raise word = (word + 2) % 2 ^ 64 / 2 * 2 + 1 := by
  rw [raise]
  apply Nat.eq_of_testBit_eq
  intro i
  cases i with
  | zero => simp [Nat.testBit_zero]
  | succ i =>
    have hdiv : ((word + 2) % 2 ^ 64 / 2 * 2 + 1) / 2 = (word + 2) % 2 ^ 64 / 2 := by omega
    rw [Nat.testBit_or, Nat.testBit_succ, Nat.testBit_succ, Nat.testBit_succ, hdiv]
    simp

theorem lower_eq {word : Nat} (h : word < 2 ^ 64) : lower word = word / 2 * 2 := by
  rw [lower]
  apply Nat.eq_of_testBit_eq
  intro i
  cases i with
  | zero => simp [Nat.testBit_zero]
  | succ i =>
    have hmask : (2 ^ 64 - 2) / 2 = 2 ^ 63 - 1 := by decide
    rw [Nat.testBit_and, Nat.testBit_succ, Nat.testBit_succ, Nat.testBit_succ, hmask,
      Nat.mul_div_cancel _ (by decide), Nat.testBit_two_pow_sub_one]
    by_cases hi : i < 63
    · simp [hi]
    · have hbig : word / 2 < 2 ^ i := by
        have hpow : 2 ^ 63 ≤ 2 ^ i := Nat.pow_le_pow_right (by decide) (by omega)
        omega
      rw [Nat.testBit_lt_two_pow hbig, Bool.false_and]

end Sunpack.SpaceMonitor
