import Mathlib
import Sunpack.NativeMemory.Manager

/-!
# What a critical section can do

Every step of the memory manager is a chain of moves: small changes to a few fields each, with the guards
under which they are made. Here the functions of the manager are unfolded, once.
-/

namespace Sunpack.NativeMemory

open Lib

variable {ι : Type} [DecidableEq ι]

/-! ## Moves -/

namespace State

/-- The state within a pass over the waiters. -/
def passing (s : State ι) (waiters : List (Waiter ι)) (callbacks : List (Callback ι)) (stopped : Bool) :
    State ι :=
  { s with waiters := waiters, monitor := .calling callbacks stopped }

end State

def Callback.isReady (j : ι) : Callback ι → Bool
  | .ready i _ _ => i = j
  | _ => false

/-- A callback of another kind than `ready`. -/
def Callback.Plain (c : Callback ι) : Prop := ∀ j, c.isReady j = false

/-- The callbacks of the monitor that are still to be called. -/
def Monitor.callbacks : Monitor ι → List (Callback ι)
  | .calling callbacks _ => callbacks
  | _ => []

/-- What is no business of the monitor. -/
inductive Own (s : State ι) : State ι → Prop
  | sample (headroom : Int) : Own s (s.sampledAt headroom)
  /-- The jobs change, but for what is committed; admissions are given up. -/
  | forgo {job : ι → Job} (hcommitted : ∀ j, (job j).committed = (s.job j).committed)
      (hadmission : ∀ j, (job j).admission = (s.job j).admission ∨ (job j).admission = 0) :
      Own s { s with job := job }
  | flags (resample reclaimRequested : Bool) :
      Own s { s with resample := resample, reclaimRequested := reclaimRequested }
  | grant {j : ι} {size address : Nat} (hcaller : s.caller j = .running)
      (hfresh : ∀ a ∈ s.allocations ++ s.freeing, a.address ≠ address)
      (hfit : canFit s.headroom (s.uncovered j size)) : Own s (s.grant j size address)
  | enroll {j : ι} (hcaller : s.caller j = .resting ∨ s.caller j = .resumed) : Own s (s.enroll j)
  | dismiss {j : ι} (hcaller : s.caller j = .running) : Own s (s.dismiss j)
  | free {address : Nat} {t : State ι} (h : s.free address = some t) : Own s t
  | released {address : Nat} {t : State ι} (h : s.released address = some t) : Own s t
  | refuse {j : ι} (hcaller : s.caller j = .refused) : Own s (s.answer j false)
  | cancel (j : ι) : Own s { s with cancelRequested := Function.update s.cancelRequested j true }
  | stop : Own s { s with stopping := true }

inductive Move (s : State ι) : State ι → Prop
  | own {t : State ι} (h : Own s t) : Move s t
  | wait {j : ι} {notice : Bool} (hcaller : s.caller j = .resting) (hstop : s.stopping = false) :
      Move s (s.wait j notice)
  | turnAway {j : ι} (hcaller : s.caller j = .resting) (hstop : s.stopping = true) :
      Move s { s with caller := Function.update s.caller j .refused, parks := s.parks ++ [j] }
  | observed (pressure : Bool) (h : s.monitor = .waiting) :
      Move s { s with monitor := .reclaimed pressure }
  | wakes {pressure : Bool} (callbacks : List (Callback ι)) (h : s.monitor = .reclaimed pressure)
      (hplain : ∀ c ∈ callbacks, c.Plain) : Move s (s.passing s.waiters callbacks s.stopping)
  | drop {front rest : List (Waiter ι)} {w : Waiter ι} {callbacks : List (Callback ι)} {stopped : Bool}
      (hwaiters : s.waiters = front ++ w :: rest) (h : s.monitor = .calling callbacks stopped)
      (hstopped : stopped = true → s.stopping = true)
      (hwhy : stopped = true ∨ s.cancelRequested w.job = true) :
      Move s (s.passing (front ++ rest) (callbacks ++ [.ready w.job false w.announced]) stopped)
  | resume {front rest : List (Waiter ι)} {w : Waiter ι} {callbacks : List (Callback ι)} {stopped : Bool}
      (hwaiters : s.waiters = front ++ w :: rest) (h : s.monitor = .calling callbacks stopped) :
      Move s ((s.resume w.job).passing (front ++ rest) (callbacks ++ [.ready w.job true w.announced])
        stopped)
  | announce {front rest : List (Waiter ι)} {w : Waiter ι} {callbacks : List (Callback ι)}
      {stopped : Bool} (announced : Bool) (extra : List (Callback ι))
      (hwaiters : s.waiters = front ++ w :: rest) (h : s.monitor = .calling callbacks stopped)
      (hplain : ∀ c ∈ extra, c.Plain) :
      Move s (s.passing (front ++ { w with announced := announced } :: rest) (callbacks ++ extra) stopped)
  | ready {j : ι} {resumed announced : Bool} {rest : List (Callback ι)} {stopped : Bool}
      (h : s.monitor = .calling (.ready j resumed announced :: rest) stopped) :
      Move s { s.answer j resumed with monitor := .calling rest stopped }
  | called {c : Callback ι} {rest : List (Callback ι)} {stopped : Bool}
      (h : s.monitor = .calling (c :: rest) stopped) (hplain : c.Plain) :
      Move s { s with monitor := .calling rest stopped }
  | passed {stopped : Bool} (h : s.monitor = .calling [] stopped) :
      Move s { s with monitor := if stopped then .returned else .waiting }

abbrev Owns : State ι → State ι → Prop := Relation.ReflTransGen Own

/-- What one critical section does. -/
abbrev Moves : State ι → State ι → Prop := Relation.ReflTransGen Move

theorem find_split {α : Type} {p : α → Bool} {l : List α} {a : α} (h : l.find? p = some a) :
    ∃ front rest, l = front ++ a :: rest ∧ l.eraseP p = front ++ rest := by
  obtain ⟨ha, front, rest, rfl, hfront⟩ := List.find?_eq_some_iff_append.1 h
  refine ⟨front, rest, rfl, ?_⟩
  rw [List.eraseP_append_right _ fun b hb => by simpa using hfront b hb,
    List.eraseP_cons_of_pos ha]

section

variable {s t : State ι}

theorem Owns.moves (h : Owns s t) : Moves s t := by
  induction h with
  | refl => exact .refl
  | tail _ h ih => exact ih.tail (.own h)

omit [DecidableEq ι] in
/-- An allocation leaves the table for those that are being freed. -/
theorem free_cases {address : Nat} (h : s.free address = some t) :
    ∃ a front rest, s.allocations = front ++ a :: rest ∧
      t = { s with allocations := front ++ rest, freeing := a :: s.freeing } := by
  unfold State.free at h
  split at h
  · next a hfind =>
    obtain ⟨front, rest, hsplit, herase⟩ := find_split hfind
    rw [herase, Option.some.injEq] at h
    exact ⟨a, front, rest, hsplit, h.symm⟩
  · simp at h

/-- What it has committed is given back to its job and to the headroom. -/
theorem released_cases {address : Nat} (h : s.released address = some t) :
    ∃ a front rest, s.freeing = front ++ a :: rest ∧
      t = { s.modify a.job fun job => { job with committed := job.committed - commitment a.size } with
        freeing := front ++ rest
        cached := s.cached + commitment a.size } := by
  unfold State.released at h
  split at h
  · next a hfind =>
    obtain ⟨front, rest, hsplit, herase⟩ := find_split hfind
    rw [herase, Option.some.injEq] at h
    exact ⟨a, front, rest, hsplit, h.symm⟩
  · simp at h

theorem Own.kept (h : Own s t) :
    t.monitor = s.monitor ∧ t.waiters = s.waiters ∧ (s.stopping = true → t.stopping = true) := by
  cases h with
  | free h =>
    obtain ⟨a, front, rest, -, rfl⟩ := free_cases h
    exact ⟨rfl, rfl, id⟩
  | released h =>
    obtain ⟨a, front, rest, -, rfl⟩ := released_cases h
    exact ⟨rfl, rfl, id⟩
  | stop => exact ⟨rfl, rfl, fun _ => rfl⟩
  | _ => exact ⟨rfl, rfl, id⟩

theorem Owns.kept (h : Owns s t) :
    t.monitor = s.monitor ∧ t.waiters = s.waiters ∧ (s.stopping = true → t.stopping = true) := by
  induction h with
  | refl => exact ⟨rfl, rfl, id⟩
  | tail _ h ih =>
    obtain ⟨hmonitor, hwaiters, hstop⟩ := h.kept
    exact ⟨hmonitor.trans ih.1, hwaiters.trans ih.2.1, fun hs => hstop (ih.2.2 hs)⟩

theorem sample_owns {fresh : Bool} {q : Option Int} (h : s.sample fresh q = some t) : Owns s t := by
  unfold State.sample at h
  split at h
  · simp only [Option.some.injEq] at h
    subst h
    exact .single (.sample _)
  · split_ifs at h
    simp only [Option.some.injEq] at h
    subst h
    exact .refl

theorem modify_own (s : State ι) (j : ι) {f : Job → Job}
    (hcommitted : (f (s.job j)).committed = (s.job j).committed)
    (hadmission : (f (s.job j)).admission = (s.job j).admission ∨ (f (s.job j)).admission = 0) :
    Own s (s.modify j f) := by
  apply Own.forgo
  · intro i
    by_cases hi : i = j
    · subst hi
      simpa using hcommitted
    · simp [Function.update_of_ne hi]
  · intro i
    by_cases hi : i = j
    · subst hi
      simpa using hadmission
    · simp [Function.update_of_ne hi]

theorem failedLocked_own (s : State ι) (j : ι) (required : Nat) (headroom : Int) :
    Own s (s.failedLocked j required headroom) :=
  modify_own s j rfl (.inl rfl)

theorem revokeLocked_own (s : State ι) (j : ι) : Own s (s.revokeLocked j) := by
  apply modify_own
  · split_ifs <;> rfl
  · left
    split_ifs <;> rfl

theorem begin_owns {j : ι} {wake : Bool} (h : s.begin j wake = some t) : Owns s t := by
  have hmove : Own s (s.modify j fun job => State.beginJob job wake) :=
    modify_own s j rfl (.inl rfl)
  unfold State.begin at h
  split at h
  · next hcaller =>
    simp only [Option.some.injEq] at h
    subst h
    exact .tail (.single hmove) (.enroll (.inl hcaller))
  · next hcaller =>
    simp only [Option.some.injEq] at h
    subst h
    exact .tail (.single hmove) (.enroll (.inr hcaller))
  · simp at h

theorem setWake_owns {j : ι} (h : s.setWake j = some t) : Owns s t := by
  unfold State.setWake at h
  split at h
  · simp only [Option.some.injEq] at h
    subst h
    exact .single (modify_own s j rfl (.inl rfl))
  · simp at h

theorem finish_owns {j : ι} (h : s.finish j = some t) : Owns s t := by
  unfold State.finish at h
  split at h
  · next hcaller =>
    simp only [Option.some.injEq] at h
    subst h
    exact .tail (.single (modify_own s j rfl (.inl rfl))) (.dismiss hcaller)
  · simp at h

theorem retry_owns {j : ι} {q : Option Int} (h : s.retry j q = some t) : Owns s t := by
  unfold State.retry at h
  split at h
  · split_ifs at h
    · simp only [Option.some.injEq] at h
      subst h
      exact .single (revokeLocked_own s j)
    · obtain ⟨s', hsample, rfl⟩ := Option.map_eq_some_iff.1 h
      exact ((sample_owns hsample).tail (failedLocked_own _ j _ _)).tail (revokeLocked_own _ j)
  · simp at h

theorem settle_owns {j : ι} {q : Option Int} (h : s.settle j q = some t) : Owns s t := by
  unfold State.settle at h
  split_ifs at h
  · have hmove : Own s (s.modify j fun job => { job with admission := 0 }) :=
      modify_own s j rfl (.inr rfl)
    exact .head hmove (sample_owns h)
  · simp only [Option.some.injEq] at h
    subst h
    exact .refl

theorem virtualAlloc_owns {j : ι} {size : Nat} {third : Option Int} {given : Given}
    (hcaller : s.caller j = .running) (hfit : canFit s.headroom (s.uncovered j size))
    (h : s.virtualAlloc j size third given = some t) : Owns s t := by
  cases given with
  | granted address =>
    simp only [State.virtualAlloc] at h
    split_ifs at h with hfresh
    exact .head (.grant hcaller hfresh hfit) (settle_owns h)
  | rejected =>
    obtain ⟨s', hsample, rfl⟩ := Option.map_eq_some_iff.1 h
    have hfailed : Own s' (s'.modify j fun job =>
        { job with failedHeadroom := s'.headroom + (job.committed + job.admission : Nat) }) :=
      modify_own s' j rfl (.inl rfl)
    exact ((((sample_owns hsample).tail hfailed).tail (failedLocked_own _ j _ _)).tail
      (modify_own _ j rfl (.inl rfl))).tail (.flags true _)
  | unrecorded =>
    simp only [State.virtualAlloc, Option.some.injEq] at h
    subst h
    exact .refl

theorem deny_owns (s : State ι) (j : ι) (size : Nat) : Owns s (s.deny j size) :=
  ((Relation.ReflTransGen.single (failedLocked_own s j _ _)).tail
    (modify_own _ j rfl (.inl rfl))).tail (.flags _ true)

/-- A sample that may be left out. -/
theorem sampleIf_owns {c : Prop} [Decidable c] {q : Option Int}
    (h : (if c then s.sample true q else some s) = some t) : Owns s t := by
  split_ifs at h
  · exact sample_owns h
  · simp only [Option.some.injEq] at h
    subst h
    exact .refl

omit [DecidableEq ι] in
theorem sample_caller {fresh : Bool} {q : Option Int} (h : s.sample fresh q = some t) :
    t.caller = s.caller := by
  unfold State.sample at h
  split at h
  · simp only [Option.some.injEq] at h
    subst h
    rfl
  · split_ifs at h
    simp only [Option.some.injEq] at h
    subst h
    rfl

omit [DecidableEq ι] in
theorem sampleIf_caller {c : Prop} [Decidable c] {q : Option Int}
    (h : (if c then s.sample true q else some s) = some t) : t.caller = s.caller := by
  split_ifs at h
  · exact sample_caller h
  · simp only [Option.some.injEq] at h
    subst h
    rfl

theorem allocate_owns {j : ι} {size : Nat} {low : Bool} {first second third : Option Int}
    {given : Given} (h : s.allocate j size low first second third given = some t) : Owns s t := by
  unfold State.allocate at h
  split at h
  · next hcaller =>
    split_ifs at h
    · simp only [Option.some.injEq] at h
      subst h
      exact .refl
    · have hpeak : Own s (s.modify j fun job => { job with peak := max job.peak (s.total j size) }) :=
        modify_own s j rfl (.inl rfl)
      obtain ⟨s₁, hfirst, h⟩ := Option.bind_eq_some_iff.1 h
      obtain ⟨s₂, hsecond, h⟩ := Option.bind_eq_some_iff.1 h
      have hbefore : Owns s s₂ :=
        (Relation.ReflTransGen.head hpeak (sample_owns hfirst)).trans (sampleIf_owns hsecond)
      have hrunning : s₂.caller j = .running := by
        rw [sampleIf_caller hsecond, sample_caller hfirst]
        exact hcaller
      split_ifs at h with hfit
      · exact hbefore.trans (virtualAlloc_owns hrunning hfit h)
      · simp only [Option.some.injEq] at h
        subst h
        exact hbefore.trans (deny_owns s₂ j size)
  · simp at h

theorem mayStartThread_owns {j : ι} {first second : Option Int}
    (h : s.mayStartThread j first second = some t) : Owns s t := by
  unfold State.mayStartThread at h
  split at h
  · split_ifs at h
    · simp only [Option.some.injEq] at h
      subst h
      exact .refl
    · obtain ⟨s₁, hfirst, h⟩ := Option.bind_eq_some_iff.1 h
      obtain ⟨s₂, hsecond, h⟩ := Option.bind_eq_some_iff.1 h
      have hbefore := (sample_owns hfirst).trans (sampleIf_owns hsecond)
      split_ifs at h
      · simp only [Option.some.injEq] at h
        subst h
        exact hbefore
      · simp only [Option.some.injEq] at h
        subst h
        exact (hbefore.tail (modify_own _ j rfl (.inl rfl))).tail (failedLocked_own _ j _ _)
  · simp at h

theorem park_moves {j : ι} {notice : Bool} (h : s.park j notice = some t) : Moves s t := by
  unfold State.park at h
  split at h
  · next hcaller =>
    simp only [Option.some.injEq] at h
    subst h
    split_ifs with hstop
    · exact .single (.turnAway hcaller hstop)
    · have hparked : Own s (s.modify j State.parkJob) := modify_own s j rfl (.inl rfl)
      exact ((Relation.ReflTransGen.single (.own hparked)).tail
        (.wait hcaller (Bool.not_eq_true _ ▸ hstop))).tail (.own (.flags true _))
  · simp at h

theorem refund_owns (s : State ι) : Owns s s.refund := by
  unfold State.refund
  split_ifs
  · apply Relation.ReflTransGen.single
    apply Own.forgo
    · intro j
      split_ifs <;> rfl
    · intro j
      split_ifs
      · exact .inr rfl
      · exact .inl rfl
  · exact .refl

theorem pressure_owns {third : Option Int} {r : State ι × Bool} (h : s.pressure third = some r) :
    Owns s r.1 := by
  unfold State.pressure at h
  split_ifs at h
  · simp only [Option.some.injEq] at h
    subst h
    exact .refl
  · simp only [Option.some.injEq] at h
    subst h
    exact .refl
  · obtain ⟨s', hsample, rfl⟩ := Option.map_eq_some_iff.1 h
    exact sample_owns hsample

theorem observe_moves {fresh : Bool} {first second third : Option Int}
    (h : s.observe fresh first second third = some t) : Moves s t := by
  unfold State.observe at h
  split at h
  · next hmonitor =>
    obtain ⟨s₁, hfirst, h⟩ := Option.bind_eq_some_iff.1 h
    obtain ⟨s₂, hsecond, h⟩ := Option.bind_eq_some_iff.1 h
    obtain ⟨r, hpressure, rfl⟩ := Option.map_eq_some_iff.1 h
    have hbefore : Owns s r.1 := (((sample_owns hfirst).trans (sample_owns hsecond)).trans
      (refund_owns s₂)).trans (pressure_owns hpressure)
    have hwaiting : r.1.monitor = .waiting := hbefore.kept.1.trans hmonitor
    exact (hbefore.moves.tail (.observed r.2 hwaiting)).tail (.own (.flags _ false))
  · simp at h

theorem sample_passing {q : Option Int} {waiters : List (Waiter ι)} {callbacks : List (Callback ι)}
    {stopped fresh : Bool} (h : s.sample fresh q = some t) :
    Owns (s.passing waiters callbacks stopped) (t.passing waiters callbacks stopped) := by
  unfold State.sample at h
  split at h
  · simp only [Option.some.injEq] at h
    subst h
    exact .single (.sample _)
  · split_ifs at h
    simp only [Option.some.injEq] at h
    subst h
    exact .refl

theorem serveFrom_moves {stopped : Bool} {ws : List (Waiter ι)} :
    ∀ {qs : List (Option Int)} {stay : List (Waiter ι)} {callbacks : List (Callback ι)} {s t : State ι},
      (stopped = true → s.stopping = true) → s.serveFrom stopped stay callbacks ws qs = some t →
      Moves (s.passing (stay ++ ws) callbacks stopped) t := by
  induction ws with
  | nil =>
    intro qs stay callbacks s t _ h
    simp only [State.serveFrom, Option.some.injEq] at h
    subst h
    rw [List.append_nil]
    exact .refl
  | cons w ws ih =>
    intro qs stay callbacks s t hstopped h
    cases qs with
    | nil => simp [State.serveFrom] at h
    | cons q qs =>
      rw [State.serveFrom] at h
      obtain ⟨s', hsample, h⟩ := Option.bind_eq_some_iff.1 h
      have hbefore : Moves (s.passing (stay ++ w :: ws) callbacks stopped)
          (s'.passing (stay ++ w :: ws) callbacks stopped) := (sample_passing hsample).moves
      have hstopped' : stopped = true → s'.stopping = true :=
        fun hs => (sample_owns hsample).kept.2.2 (hstopped hs)
      by_cases hcanceled : stopped = true ∨ s'.cancelRequested w.job = true
      · rw [if_pos hcanceled] at h
        have hdrop : Move (s'.passing (stay ++ w :: ws) callbacks stopped)
            (s'.passing (stay ++ ws) (callbacks ++ [.ready w.job false w.announced]) stopped) :=
          .drop rfl rfl hstopped' hcanceled
        exact hbefore.trans (.head hdrop (ih hstopped' h))
      · rw [if_neg hcanceled] at h
        by_cases hfits : s'.fits w.job
        · rw [if_pos hfits] at h
          have hresume : Move (s'.passing (stay ++ w :: ws) callbacks stopped)
              ((s'.resume w.job).passing (stay ++ ws) (callbacks ++ [.ready w.job true w.announced])
                stopped) :=
            .resume rfl rfl
          have hstopped'' : stopped = true → (s'.resume w.job).stopping = true := hstopped'
          exact hbefore.trans (.head hresume (ih hstopped'' h))
        · rw [if_neg hfits] at h
          have hplain : ∀ c ∈ (if s'.announces w then [Callback.blocked w.job] else []), c.Plain := by
            intro c hc j
            split_ifs at hc
            · rw [List.mem_singleton.1 hc]
              rfl
            · simp at hc
          have hannounce : Move (s'.passing (stay ++ w :: ws) callbacks stopped) (s'.passing
              (stay ++ { w with announced := w.announced || s'.announces w } :: ws)
              (callbacks ++ if s'.announces w then [.blocked w.job] else []) stopped) :=
            .announce (w.announced || s'.announces w) _ rfl rfl hplain
          have hrest := ih hstopped' h
          rw [List.append_assoc, List.singleton_append] at hrest
          exact hbefore.trans (.head hannounce hrest)

theorem revokeVictim_owns (s : State ι) : Owns s s.revokeVictim := by
  unfold State.revokeVictim
  split
  · split_ifs
    · exact (Relation.ReflTransGen.single (failedLocked_own s _ _ _)).tail (revokeLocked_own _ _)
    · exact .refl
  · exact .refl

theorem takeWakes_own (s : State ι) : Own s s.takeWakes := by
  apply Own.forgo
  · intro j
    split_ifs <;> rfl
  · intro j
    left
    split_ifs <;> rfl

theorem serve_moves {first : Option Int} {rest : List (Option Int)}
    (h : s.serve first rest = some t) : Moves s t := by
  unfold State.serve at h
  split at h
  · next pressure hmonitor =>
    obtain ⟨s₁, hsample, h⟩ := Option.bind_eq_some_iff.1 h
    have hbefore : Owns s s₁.revokeVictim.takeWakes :=
      ((sample_owns hsample).trans (revokeVictim_owns s₁)).tail (takeWakes_own s₁.revokeVictim)
    have hreclaimed : s₁.revokeVictim.takeWakes.monitor = .reclaimed pressure :=
      hbefore.kept.1.trans hmonitor
    have hplain : ∀ c ∈ s₁.revokeVictim.wakes.map Callback.wake, c.Plain := by
      intro c hc j
      obtain ⟨i, -, rfl⟩ := List.mem_map.1 hc
      rfl
    have hrest := serveFrom_moves (s := s₁.revokeVictim.takeWakes) id h
    rw [List.nil_append] at hrest
    exact (hbefore.moves.tail (.wakes _ hreclaimed hplain)).trans hrest
  · simp at h

theorem call_moves (h : s.call = some t) : Moves s t := by
  unfold State.call at h
  split at h
  · next hmonitor =>
    simp only [Option.some.injEq] at h
    subst h
    exact .single (.ready hmonitor)
  · next c rest stopped hother hmonitor =>
    simp only [Option.some.injEq] at h
    subst h
    refine .single (.called hmonitor ?_)
    intro j
    cases c with
    | ready i resumed announced => exact absurd rfl (hother i resumed announced)
    | _ => rfl
  · next hmonitor =>
    simp only [Option.some.injEq] at h
    subst h
    exact .single (.passed hmonitor)
  · simp at h

/-- The calls that are no business of the monitor. -/
def Action.own : Action ι → Bool
  | park _ _ | observe _ _ _ _ | serve _ _ | call => false
  | _ => true

theorem step_owns {a : Action ι} (hown : a.own = true) (h : step s a = some t) : Owns s t := by
  cases a with
  | begin j wake => exact begin_owns h
  | setWake j => exact setWake_owns h
  | allocate j size low first second third given => exact allocate_owns h
  | free address => exact .single (.free h)
  | released address => exact .single (.released h)
  | mayStartThread j first second => exact mayStartThread_owns h
  | retry j first => exact retry_owns h
  | finish j => exact finish_owns h
  | refuse j =>
    simp only [step, State.refuse] at h
    split at h
    · next hcaller =>
      simp only [Option.some.injEq] at h
      subst h
      exact .single (.refuse hcaller)
    · simp at h
  | cancel j =>
    simp only [step, Option.some.injEq] at h
    subst h
    exact .tail (.single (modify_own s j rfl (.inl rfl))) (.cancel j)
  | changed =>
    simp only [step, Option.some.injEq] at h
    subst h
    exact .single (.flags true _)
  | stop =>
    simp only [step, Option.some.injEq] at h
    subst h
    exact .single .stop
  | park | observe | serve | call => simp [Action.own] at hown

theorem step_moves {a : Action ι} (h : step s a = some t) : Moves s t := by
  cases a with
  | park j notice => exact park_moves h
  | observe fresh first second third => exact observe_moves h
  | serve first rest => exact serve_moves h
  | call => exact call_moves h
  | _ => exact (step_owns rfl h).moves

end

end Sunpack.NativeMemory
