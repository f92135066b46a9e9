import Sunpack.Lib.Dict

/-!
# Waiters

`_waiters_by_blocker` and `_waiter_blockers` of `_PathLeaseRegistry`, with the futures of the event
loop. A future is named by its number. Sets are lists.
-/

namespace Sunpack.PathLease

open Lib

inductive FutureState
  | pending
  | result
  | cancelled
  deriving DecidableEq

structure Waiters (Owner : Type) where
  waitersByBlocker : Dict Owner (List Nat) := ∅
  waiterBlockers : Dict Nat (List Owner) := ∅
  futures : List FutureState := []

namespace Waiters

variable {Owner : Type} [DecidableEq Owner]

def waitingFor (w : Waiters Owner) (blocker : Owner) : List Nat :=
  (w.waitersByBlocker.get? blocker).getD []

def addWaiter (waiter : Nat) (d : Dict Owner (List Nat)) (blocker : Owner) :
    Dict Owner (List Nat) :=
  let waiters := (d.get? blocker).getD []
  d.set blocker (if waiter ∈ waiters then waiters else waiters ++ [waiter])

/-- `_register_waiter`, with the number of the new future. -/
def registerWaiter (w : Waiters Owner) (blockers : List Owner) : Waiters Owner × Nat :=
  let waiter := w.futures.length
  ({ waitersByBlocker := blockers.foldl (addWaiter waiter) w.waitersByBlocker
     waiterBlockers := w.waiterBlockers.set waiter blockers
     futures := w.futures ++ [.pending] }, waiter)

def discardWaiter (waiter : Nat) (d : Dict Owner (List Nat)) (blocker : Owner) :
    Dict Owner (List Nat) :=
  match d.get? blocker with
  | none => d
  | some waiters =>
    let rest := waiters.filter fun n => n ≠ waiter
    if rest.isEmpty then d.erase blocker else d.set blocker rest

/-- `_unregister_waiter`. -/
def unregisterWaiter (w : Waiters Owner) (waiter : Nat) : Waiters Owner where
  waitersByBlocker :=
    ((w.waiterBlockers.get? waiter).getD []).foldl (discardWaiter waiter) w.waitersByBlocker
  waiterBlockers := w.waiterBlockers.erase waiter
  futures := w.futures

/-- The state of a future is left alone when it is done. -/
def finish (state : FutureState) (futures : List FutureState) (waiter : Nat) : List FutureState :=
  if futures[waiter]? = some .pending then futures.set waiter state else futures

def wakeWaiter (w : Waiters Owner) (waiter : Nat) : Waiters Owner :=
  let w := w.unregisterWaiter waiter
  { w with futures := finish .result w.futures waiter }

/-- `_wake_waiters_for`. -/
def wakeWaitersFor (w : Waiters Owner) (blocker : Owner) : Waiters Owner :=
  (w.waitingFor blocker).foldl wakeWaiter w

/-- `Future.cancel`. -/
def cancelWaiter (w : Waiters Owner) (waiter : Nat) : Waiters Owner :=
  { w with futures := finish .cancelled w.futures waiter }

/-! ## Both dictionaries say the same -/

structure Registered (w : Waiters Owner) : Prop where
  agree : ∀ b n, n ∈ w.waitingFor b ↔ ∃ bs, w.waiterBlockers.get? n = some bs ∧ b ∈ bs
  known : ∀ n bs, w.waiterBlockers.get? n = some bs → n < w.futures.length

theorem registered_empty : Registered ({} : Waiters Owner) where
  agree _ _ := by simp [waitingFor]
  known _ _ h := absurd h (by simp)

variable {w w' : Waiters Owner} {waiter n : Nat} {b : Owner} {bs : List Owner}

theorem mem_addWaiter (d : Dict Owner (List Nat)) (b' : Owner) :
    n ∈ ((addWaiter waiter d b).get? b').getD [] ↔
      n ∈ (d.get? b').getD [] ∨ (b' = b ∧ n = waiter) := by
  simp only [addWaiter, Dict.get?_set]
  by_cases hb : b' = b
  · rw [if_pos hb, Option.getD_some, hb]
    split_ifs with hmem
    · simp only [true_and]
      constructor
      · exact .inl
      · rintro (h | rfl)
        · exact h
        · exact hmem
    · simp
  · simp [hb]

theorem mem_addWaiters (bs : List Owner) (d : Dict Owner (List Nat)) (b' : Owner) :
    n ∈ ((bs.foldl (addWaiter waiter) d).get? b').getD [] ↔
      n ∈ (d.get? b').getD [] ∨ (b' ∈ bs ∧ n = waiter) := by
  induction bs generalizing d with
  | nil => simp
  | cons b bs ih =>
    rw [List.foldl_cons, ih, mem_addWaiter, List.mem_cons]
    tauto

theorem mem_discardWaiter (d : Dict Owner (List Nat)) (b' : Owner) :
    n ∈ ((discardWaiter waiter d b).get? b').getD [] ↔
      n ∈ (d.get? b').getD [] ∧ ¬ (b' = b ∧ n = waiter) := by
  unfold discardWaiter
  cases hget : d.get? b with
  | none =>
    simp only
    constructor
    · intro h
      refine ⟨h, ?_⟩
      rintro ⟨rfl, -⟩
      rw [hget] at h
      exact absurd h List.not_mem_nil
    · exact And.left
  | some waiters =>
    simp only
    by_cases hb : b' = b
    · have hrest : n ∈ waiters.filter (fun n => n ≠ waiter) ↔
          n ∈ (d.get? b').getD [] ∧ ¬ (b' = b ∧ n = waiter) := by
        rw [hb, hget, Option.getD_some, List.mem_filter]
        simp
      rw [← hrest]
      split_ifs with hempty
      · rw [hb, Dict.get?_erase_self, Option.getD_none, List.isEmpty_iff.1 hempty]
      · rw [hb, Dict.get?_set_self, Option.getD_some]
    · split_ifs with hempty
      · rw [Dict.get?_erase_of_ne _ hb]
        simp [hb]
      · rw [Dict.get?_set_of_ne _ hb]
        simp [hb]

theorem mem_discardWaiters (bs : List Owner) (d : Dict Owner (List Nat)) (b' : Owner) :
    n ∈ ((bs.foldl (discardWaiter waiter) d).get? b').getD [] ↔
      n ∈ (d.get? b').getD [] ∧ ¬ (b' ∈ bs ∧ n = waiter) := by
  induction bs generalizing d with
  | nil => simp
  | cons b bs ih =>
    rw [List.foldl_cons, ih, mem_discardWaiter, List.mem_cons]
    tauto

theorem getElem?_finish (state : FutureState) (futures : List FutureState) (waiter n : Nat) :
    (finish state futures waiter)[n]? =
      if n = waiter ∧ futures[n]? = some .pending then some state else futures[n]? := by
  unfold finish
  by_cases hn : n = waiter
  · subst hn
    split_ifs with hpending hboth hboth
    · have hlt : n < futures.length := (List.getElem?_eq_some_iff.1 hpending).1
      rw [List.getElem?_set_self hlt]
    · exact absurd ⟨rfl, hpending⟩ hboth
    · exact absurd hboth.2 hpending
    · rfl
  · have hneither : ¬ (n = waiter ∧ futures[n]? = some .pending) := fun h => hn h.1
    rw [if_neg hneither]
    split_ifs
    · rw [List.getElem?_set_ne (Ne.symm hn)]
    · rfl

theorem length_finish (state : FutureState) (futures : List FutureState) (waiter : Nat) :
    (finish state futures waiter).length = futures.length := by
  unfold finish
  split_ifs
  · exact List.length_set
  · rfl

/-! ## What the sections do -/

theorem Registered.register (h : w.Registered) (bs : List Owner) :
    (w.registerWaiter bs).1.Registered := by
  have hfresh : w.waiterBlockers.get? w.futures.length = none := by
    by_contra hsome
    obtain ⟨bs', hbs'⟩ := Option.ne_none_iff_exists'.1 hsome
    exact absurd (h.known _ _ hbs') (Nat.lt_irrefl _)
  refine ⟨fun b n => ?_, fun n bs' hget => ?_⟩
  · show n ∈ ((bs.foldl (addWaiter w.futures.length) w.waitersByBlocker).get? b).getD [] ↔
      ∃ bs', (w.waiterBlockers.set w.futures.length bs).get? n = some bs' ∧ b ∈ bs'
    rw [mem_addWaiters, Dict.get?_set]
    have hagree : n ∈ (w.waitersByBlocker.get? b).getD [] ↔ _ := h.agree b n
    rw [hagree]
    split_ifs with hn
    · rw [hn, hfresh]
      simp
    · simp [hn]
  · have hget' : (w.waiterBlockers.set w.futures.length bs).get? n = some bs' := hget
    show n < (w.futures ++ [FutureState.pending]).length
    rw [List.length_append, List.length_singleton]
    rw [Dict.get?_set] at hget'
    split_ifs at hget' with hn
    · omega
    · have := h.known n bs' hget'
      omega

theorem Registered.unregister (h : w.Registered) (waiter : Nat) :
    (w.unregisterWaiter waiter).Registered := by
  refine ⟨fun b n => ?_, fun n bs hget => ?_⟩
  · show n ∈ ((((w.waiterBlockers.get? waiter).getD []).foldl (discardWaiter waiter)
        w.waitersByBlocker).get? b).getD [] ↔
      ∃ bs, (w.waiterBlockers.erase waiter).get? n = some bs ∧ b ∈ bs
    rw [mem_discardWaiters, Dict.get?_erase]
    have hagree : n ∈ (w.waitersByBlocker.get? b).getD [] ↔ _ := h.agree b n
    rw [hagree]
    by_cases hn : n = waiter
    · rw [if_pos hn, hn]
      cases w.waiterBlockers.get? waiter <;> simp
    · simp [hn]
  · have hget' : (w.waiterBlockers.erase waiter).get? n = some bs := hget
    rw [Dict.get?_erase] at hget'
    split_ifs at hget'
    exact h.known n bs hget'

theorem Registered.wakeWaiter (h : w.Registered) (waiter : Nat) :
    (w.wakeWaiter waiter).Registered where
  agree := (h.unregister waiter).agree
  known n bs hget := by
    show n < (finish _ _ _).length
    rw [length_finish]
    exact (h.unregister waiter).known n bs hget

/-- What waking some waiters does. -/
structure Wakes (w : Waiters Owner) (woken : List Nat) (w' : Waiters Owner) : Prop where
  registered : w'.Registered
  blockers : ∀ n, w'.waiterBlockers.get? n =
    if n ∈ woken then none else w.waiterBlockers.get? n
  futures : ∀ n, w'.futures[n]? =
    if n ∈ woken ∧ w.futures[n]? = some .pending then some .result else w.futures[n]?
  length : w'.futures.length = w.futures.length

theorem Registered.wakeAll (woken : List Nat) (h : w.Registered) :
    Wakes w woken (woken.foldl Waiters.wakeWaiter w) := by
  induction woken generalizing w with
  | nil => exact ⟨h, by simp, by simp, rfl⟩
  | cons waiter woken ih =>
    obtain ⟨hregistered, hblockers, hfutures, hlength⟩ := ih (h.wakeWaiter waiter)
    refine ⟨hregistered, fun n => ?_, fun n => ?_, ?_⟩
    · rw [List.foldl_cons, hblockers]
      show (if n ∈ woken then none else (w.waiterBlockers.erase waiter).get? n) = _
      rw [Dict.get?_erase, ← ite_or]
      exact if_congr (or_comm.trans List.mem_cons.symm) rfl rfl
    · rw [List.foldl_cons, hfutures]
      show (if n ∈ woken ∧ (finish .result w.futures waiter)[n]? = some .pending then
        some FutureState.result else (finish .result w.futures waiter)[n]?) = _
      rw [getElem?_finish]
      by_cases hn : n = waiter
      · subst hn
        by_cases hpending : w.futures[n]? = some .pending
        · simp [hpending]
        · simp [hpending]
      · simp [hn]
    · rw [List.foldl_cons, hlength]
      exact length_finish _ _ _

theorem Registered.wake (h : w.Registered) (b : Owner) :
    Wakes w (w.waitingFor b) (w.wakeWaitersFor b) :=
  h.wakeAll (w.waitingFor b)

/-- Nobody waits for the blocker after that. -/
theorem Wakes.done (h : w.Registered) (hwakes : Wakes w (w.waitingFor b) w')
    (hpending : w'.futures[n]? = some .pending) (hget : w.waiterBlockers.get? n = some bs) :
    b ∉ bs := by
  intro hmem
  have hwoken : n ∈ w.waitingFor b := (h.agree b n).2 ⟨bs, hget, hmem⟩
  rw [hwakes.futures] at hpending
  split_ifs at hpending with hboth
  · exact absurd hpending (by decide)
  · exact hboth ⟨hwoken, hpending⟩

theorem Registered.cancel (h : w.Registered) (waiter : Nat) :
    (w.cancelWaiter waiter).Registered where
  agree := h.agree
  known n bs hget := by
    show n < (finish _ _ _).length
    rw [length_finish]
    exact h.known n bs hget

end Waiters

end Sunpack.PathLease
