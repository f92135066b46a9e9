import Sunpack.Lib.Dict

/-!
# Counting semaphores with waiters

A semaphore of cooperative tasks: `value` free slots, and the waiters in their order. A released slot
goes to the first waiter that still waits and stays reserved for it (`granted`) until its task goes
on, which either takes the slot (`accept`) or, cancelled in the meantime, gives it back (`revoke`).

`total` counts the slots that nobody has taken: the free ones and the reserved ones.
-/

namespace Sunpack.Lib

universe u

inductive Waiter
  | pending
  | granted
  | cancelled
deriving DecidableEq, Repr

structure Semaphore (ι : Type u) where
  value : Nat
  waiters : List (ι × Waiter) := []

namespace Semaphore

variable {ι : Type u}

def locked (s : Semaphore ι) : Bool :=
  s.value = 0 || s.waiters.any fun w => w.2 ≠ .cancelled

/-- The first pending waiter is granted a slot, if there is one. -/
def grantFirst : List (ι × Waiter) → Option (List (ι × Waiter))
  | [] => none
  | w :: ws =>
    if w.2 = .pending then some ((w.1, .granted) :: ws)
    else (grantFirst ws).map (w :: ·)

def wakeNext (s : Semaphore ι) : Semaphore ι :=
  match grantFirst s.waiters with
  | none => s
  | some waiters => { value := s.value - 1, waiters := waiters }

def release (s : Semaphore ι) : Semaphore ι := wakeNext { s with value := s.value + 1 }

/-- Taking a slot of a semaphore that is not locked. -/
def acquire (s : Semaphore ι) : Semaphore ι := { s with value := s.value - 1 }

def enqueue (s : Semaphore ι) (i : ι) : Semaphore ι :=
  { s with waiters := s.waiters ++ [(i, .pending)] }

/-! ## Slots that nobody has taken -/

def reserved (s : Semaphore ι) : Nat := s.waiters.countP fun w => w.2 = .granted

def total (s : Semaphore ι) : Nat := s.value + s.reserved

theorem grantFirst_count {ws ws' : List (ι × Waiter)} (h : grantFirst ws = some ws') :
    ws'.countP (fun w => w.2 = .granted) = ws.countP (fun w => w.2 = .granted) + 1 := by
  induction ws generalizing ws' with
  | nil => exact absurd h (by simp [grantFirst])
  | cons w ws ih =>
    rw [grantFirst] at h
    split_ifs at h with hpending
    · obtain rfl := Option.some.inj h
      simp [hpending]
    · obtain ⟨rest, hrest, rfl⟩ := Option.map_eq_some_iff.1 h
      rw [List.countP_cons, List.countP_cons, ih hrest]
      omega

theorem total_wakeNext {s : Semaphore ι} (h : 0 < s.value) : s.wakeNext.total = s.total := by
  unfold wakeNext
  split
  · rfl
  · rename_i waiters hgrant
    have hcount := grantFirst_count hgrant
    simp only [total, reserved, hcount]
    omega

@[simp] theorem total_release (s : Semaphore ι) : s.release.total = s.total + 1 := by
  rw [release, total_wakeNext (Nat.succ_pos _)]
  simp only [total, reserved]
  omega

theorem total_acquire {s : Semaphore ι} (h : s.locked = false) :
    s.acquire.total + 1 = s.total := by
  simp only [locked, Bool.or_eq_false_iff, decide_eq_false_iff_not] at h
  simp only [acquire, total, reserved]
  omega

@[simp] theorem total_enqueue (s : Semaphore ι) (i : ι) : (s.enqueue i).total = s.total := by
  simp [enqueue, total, reserved, List.countP_append]

/-! ## Waiters that go on -/

variable [DecidableEq ι]

def waiter (s : Semaphore ι) (i : ι) : Option Waiter := Dict.find i s.waiters

def cancel (s : Semaphore ι) (i : ι) : Semaphore ι :=
  if s.waiter i = some .pending then { s with waiters := Dict.put i .cancelled s.waiters } else s

def leave (s : Semaphore ι) (i : ι) : Semaphore ι :=
  { s with waiters := Dict.drop i s.waiters }

/-- A granted waiter goes on with its slot. -/
def accept (s : Semaphore ι) (i : ι) : Semaphore ι :=
  if 0 < (s.leave i).value then (s.leave i).wakeNext else s.leave i

/-- A granted waiter was cancelled before it went on. -/
def revoke (s : Semaphore ι) (i : ι) : Semaphore ι := (s.leave i).release

@[simp] theorem total_cancel (s : Semaphore ι) (i : ι) : (s.cancel i).total = s.total := by
  unfold cancel
  split_ifs with h
  · have hcount := Dict.countP_put (k := i) (v := Waiter.cancelled)
      (fun _ w => decide (w = .granted)) s.waiters
    rw [waiter] at h
    rw [h] at hcount
    simpa [total, reserved] using hcount
  · rfl

theorem total_leave {s : Semaphore ι} {i : ι} {w : Waiter} (h : s.waiter i = some w) :
    (s.leave i).total + (if w = .granted then 1 else 0) = s.total := by
  have hcount := Dict.countP_drop i (fun _ w => decide (w = .granted)) s.waiters
  rw [waiter] at h
  rw [h] at hcount
  simp only [total, reserved, leave]
  cases w with
  | granted =>
    simp_all
    omega
  | pending => simp_all
  | cancelled => simp_all

theorem total_accept {s : Semaphore ι} {i : ι} (h : s.waiter i = some .granted) :
    (s.accept i).total + 1 = s.total := by
  have hleave := total_leave h
  unfold accept
  split_ifs with hvalue
  · rw [total_wakeNext hvalue]
    exact hleave
  · exact hleave

theorem total_revoke {s : Semaphore ι} {i : ι} (h : s.waiter i = some .granted) :
    (s.revoke i).total = s.total := by
  rw [revoke, total_release]
  exact total_leave h

end Semaphore

end Sunpack.Lib
