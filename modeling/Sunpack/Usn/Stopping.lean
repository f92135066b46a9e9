import Mathlib.Algebra.BigOperators.Group.List.Basic
import Sunpack.Usn.Wakeups

/-!
# A stop ends the broker

Once the stop event is set, every step that changes anything brings the broker nearer to its end, and as
long as it has not returned there is such a step of its own, whatever the clients do.
-/

namespace Sunpack.Usn.Lifetimes

open Lib

/-- How many turns of a worker are left at most. -/
def Worker.rank : Worker → Nat
  | serving lease => if lease then 4 else 7
  | stored => 6
  | added => 5
  | released => 3
  | left => 2
  | uncounted => 1
  | finished => 0

/-- A client that is counted is going to have a worker. -/
def Phase.rank : Phase → Nat
  | taken => 17
  | counted => 16
  | top => 8
  | leasesRead _ => 7
  | clientsRead _ _ => 6
  | hadRead _ _ _ => 5
  | waiting => 3
  | ending _ => 2
  | joining _ => 1
  | returned _ => 0

def acceptRank : Option Accept → Nat
  | some accept => if accept.signalled then 0 else 1
  | none => 0

def workersRank (workers : List Worker) : Nat := (workers.map Worker.rank).sum

/-- What is left to do after a stop. -/
def State.rank (s : State) : Nat := s.phase.rank + acceptRank s.pending + workersRank s.workers

/-- The steps of the broker's threads, with the reads and the ends of connections that a stop brings. -/
def Action.own : Action → Bool
  | connect | control | request _ _ | waitFailed => false
  | _ => true

theorem acceptRank_le (accept : Option Accept) : acceptRank accept ≤ 1 := by
  unfold acceptRank
  split
  · split_ifs <;> simp
  · simp

theorem workersRank_set {workers : List Worker} {i : Nat} {w v : Worker}
    (hw : workers[i]? = some w) :
    workersRank (workers.set i v) + w.rank = workersRank workers + v.rank := by
  unfold workersRank
  induction workers generalizing i with
  | nil => simp at hw
  | cons first workers ih =>
    cases i with
    | zero =>
      simp only [List.getElem?_cons_zero, Option.some.injEq] at hw
      subst hw
      simp only [List.set_cons_zero, List.map_cons, List.sum_cons]
      omega
    | succ i =>
      have hrest := ih (i := i) (by simpa using hw)
      simp only [List.set_cons_succ, List.map_cons, List.sum_cons]
      omega

theorem workersRank_unfinished (workers : List Worker) :
    workersRank (workers.filter (· ≠ .finished)) = workersRank workers := by
  unfold workersRank
  induction workers with
  | nil => rfl
  | cons w workers ih =>
    cases w <;> simp_all [Worker.rank]

section

variable {s t : State}

theorem Turn.rank {i : Nat} {w w' : Worker} {f : State → State} (hturn : Turn w w' f)
    (hw : s.workers[i]? = some w) : (f (s.setWorker i w')).rank < s.rank := by
  have hset := workersRank_set (v := w') hw
  unfold State.rank
  cases hturn <;> simp [Worker.rank, State.setWorker] at hset ⊢ <;> omega

/-- Of what a step can be, all but a round of the loop goes on. -/
theorem Step.rank (hstep : Step s t) (hstop : s.stop = true) : t = s ∨ t.rank < s.rank := by
  have hle := acceptRank_le s.pending
  cases hstep with
  | ignored => exact .inl rfl
  | turn hw hturn => exact .inr (hturn.rank hw)
  | control =>
    left
    rw [← hstop]
  | taken hphase hfalse | changed hphase hfalse =>
    rw [hstop] at hfalse
    simp at hfalse
  | readLeases hphase =>
    right
    simp only [State.rank, hphase, Phase.rank, workersRank_unfinished]
    omega
  | spawn hphase =>
    right
    simp [State.rank, hphase, Phase.rank, workersRank, Worker.rank]
    omega
  | start accept hphase =>
    right
    have hone := acceptRank_le (some accept)
    simp only [State.rank, hphase, Phase.rank]
    omega
  | connect hpending =>
    right
    simp [State.rank, hpending, acceptRank]
  | finishFailed hphase | close hphase =>
    right
    simp only [State.rank, hphase, Phase.rank, acceptRank]
    omega
  | readClients hphase | readHad hphase | idle hphase | pass hphase | startFailed hphase
  | stopped hphase | waitFailed hphase | count hphase | spawnFailed hphase | join hphase =>
    right
    simp only [State.rank, hphase, Phase.rank]
    omega

theorem stop_kept (hstep : Step s t) (hstop : s.stop = true) : t.stop = true := by
  cases hstep with
  | turn hw hturn => cases hturn <;> exact hstop
  | close | control => rfl
  | _ => exact hstop

theorem step_rank {a : Action} (h : step s a = some t) (hstop : s.stop = true) (hne : t ≠ s) :
    t.rank < s.rank :=
  ((step_cases h).rank hstop).resolve_left hne

/-- A step of the broker's own that brings it nearer to its end. -/
def Advances (s : State) : Prop := ∃ a t, a.own = true ∧ step s a = some t ∧ t.rank < s.rank

/-- A worker that has not ended goes on by itself. -/
theorem worker_advances {w : Worker} (hw : w ∈ s.workers) (hne : w ≠ .finished) : Advances s := by
  obtain ⟨i, hi⟩ := List.mem_iff_getElem?.1 hw
  have hleave : ∀ {t}, s.leave i = some t → t.rank < s.rank → Advances s :=
    fun h hlt => ⟨.leave i, _, rfl, h, hlt⟩
  have hproceed : ∀ {t}, s.proceed i = some t → t.rank < s.rank → Advances s :=
    fun h hlt => ⟨.proceed i, _, rfl, h, hlt⟩
  cases w with
  | finished => exact absurd rfl hne
  | serving lease =>
    cases lease with
    | false => exact hleave (by simp [State.leave, hi]) (Turn.idle.rank hi)
    | true => exact hleave (by simp [State.leave, State.setWorker, hi]) (Turn.subtract.rank hi)
  | stored => exact hproceed (by simp [State.proceed, State.setWorker, hi]) (Turn.add.rank hi)
  | added => exact hproceed (by simp [State.proceed, hi]) (Turn.acquired.rank hi)
  | released => exact hproceed (by simp [State.proceed, hi]) (Turn.dropped.rank hi)
  | left => exact hproceed (by simp [State.proceed, State.setWorker, hi]) (Turn.uncount.rank hi)
  | uncounted => exact hproceed (by simp [State.proceed, hi]) (Turn.finish.rank hi)

/-- The main thread advances by a step that takes it elsewhere. -/
theorem advances_of_phase {a : Action} (hown : a.own = true) (hstop : s.stop = true)
    (h : ∃ t, step s a = some t ∧ t.phase ≠ s.phase) : Advances s := by
  obtain ⟨t, hstep, hphase⟩ := h
  exact ⟨a, t, hown, hstep, step_rank hstep hstop fun heq => hphase (congrArg State.phase heq)⟩

theorem handles_of_stop (hstop : s.stop = true) : s.handles.findIdx? id = some 0 := by
  unfold State.handles
  cases s.pending <;> simp [hstop, List.findIdx?_cons]

theorem decide_goes_on {leases clients : Nat} {hadLease : Bool}
    (hphase : s.phase = .hadRead leases clients hadLease) :
    ∃ t, s.decide .pending = some t ∧ t.phase ≠ s.phase := by
  simp only [State.decide, hphase, Option.some.injEq, exists_eq_left']
  split_ifs <;> simp [State.start]

theorem advances (hstop : s.stop = true) (hrunning : ∀ why, s.phase ≠ .returned why) :
    Advances s := by
  cases hphase : s.phase with
  | returned why => exact absurd hphase (hrunning why)
  | hadRead leases clients hadLease =>
    exact advances_of_phase (a := .decide .pending) rfl hstop (decide_goes_on hphase)
  | top =>
    exact advances_of_phase (a := .readLeases) rfl hstop
      (by simp [step, State.readLeases, hphase])
  | leasesRead leases =>
    exact advances_of_phase (a := .readClients) rfl hstop
      (by simp [step, State.readClients, hphase])
  | clientsRead leases clients =>
    exact advances_of_phase (a := .readHad) rfl hstop (by simp [step, State.readHad, hphase])
  | waiting =>
    exact advances_of_phase (a := .wake true) rfl hstop
      (by simp [step, State.wake, hphase, handles_of_stop hstop])
  | taken =>
    exact advances_of_phase (a := .count) rfl hstop (by simp [step, State.count, hphase])
  | counted =>
    exact advances_of_phase (a := .spawn true) rfl hstop (by simp [step, State.spawn, hphase])
  | ending why =>
    exact advances_of_phase (a := .close) rfl hstop (by simp [step, State.close, hphase])
  | joining why =>
    by_cases hall : ∀ w ∈ s.workers, w = .finished
    · have hjoin : s.join = some { s with phase := .returned why } := by
        unfold State.join
        rw [hphase]
        exact if_pos hall
      exact advances_of_phase (a := .join) rfl hstop ⟨_, hjoin, by simp [hphase]⟩
    · push Not at hall
      obtain ⟨w, hw, hne⟩ := hall
      exact worker_advances hw hne

/-! ## Runs after a stop -/

theorem own_run (hstop : s.stop = true) :
    ∃ as t why, (∀ a ∈ as, a.own = true) ∧ service.exec s as = some t ∧
      t.phase = .returned why := by
  induction hn : s.rank using Nat.strong_induction_on generalizing s with
  | _ n ih =>
    by_cases hrunning : ∀ why, s.phase ≠ .returned why
    · obtain ⟨a, r, hown, hstep, hlt⟩ := advances hstop hrunning
      have hkept := stop_kept (step_cases hstep) hstop
      obtain ⟨as, t, why, hall, hrun, hphase⟩ := ih r.rank (hn ▸ hlt) hkept rfl
      refine ⟨a :: as, t, why, ?_, ?_, hphase⟩
      · intro b hb
        rcases List.mem_cons.1 hb with hb | hb
        · exact hb ▸ hown
        · exact hall b hb
      · have hfirst : service.step s a = some r := hstep
        rw [Machine.exec, hfirst]
        exact hrun
    · push Not at hrunning
      obtain ⟨why, hphase⟩ := hrunning
      exact ⟨[], s, why, by simp, rfl, hphase⟩

def Changes (s : State) (a : Action) : Prop := step s a ≠ some s

theorem exec_rank {as : List Action} (hstop : s.stop = true)
    (h : (service.restrict Changes).exec s as = some t) : as.length + t.rank ≤ s.rank := by
  induction as generalizing s with
  | nil =>
    rw [Machine.exec, Option.some.injEq] at h
    subst h
    simp
  | cons a as ih =>
    rw [Machine.exec, Option.bind_eq_some_iff] at h
    obtain ⟨r, hfirst, hrest⟩ := h
    obtain ⟨hchanges, hstep⟩ := Machine.restrict_step.1 hfirst
    have hlt := step_rank hstep hstop fun heq => hchanges (heq ▸ hstep)
    have hle := ih (stop_kept (step_cases hstep) hstop) hrest
    rw [List.length_cons]
    omega

theorem rank_le : s.rank ≤ 18 + 7 * s.workers.length := by
  have hworkers : workersRank s.workers ≤ 7 * s.workers.length := by
    unfold workersRank
    have hsum := List.sum_le_card_nsmul (s.workers.map Worker.rank) 7 fun n hn => by
      obtain ⟨w, -, rfl⟩ := List.mem_map.1 hn
      cases w with
      | serving lease => cases lease <;> simp [Worker.rank]
      | _ => simp [Worker.rank]
    rw [List.length_map, smul_eq_mul, Nat.mul_comm] at hsum
    exact hsum
  have haccept := acceptRank_le s.pending
  have hphase : s.phase.rank ≤ 17 := by
    cases s.phase <;> simp [Phase.rank]
  unfold State.rank
  omega

/-- After a stop there are only so many steps that change anything, and the broker comes to its end
by steps of its own. -/
theorem stop_ends (hstop : s.stop = true) :
    (∀ as t, (service.restrict Changes).exec s as = some t →
      as.length ≤ 18 + 7 * s.workers.length) ∧
      ∃ as t why, (∀ a ∈ as, a.own = true) ∧ service.exec s as = some t ∧
        t.phase = .returned why := by
  refine ⟨fun as t h => ?_, own_run hstop⟩
  have hbound := exec_rank hstop h
  have hrank := rank_le (s := s)
  omega

end

/-- Stopped while a client holds a lease. -/
def State.leased : State := ⟨1, 1, true, false, true, none, [.serving true], .waiting⟩

theorem stop_ends_leased :
    (∀ as t, (service.restrict Changes).exec State.leased as = some t →
      as.length ≤ 18 + 7 * State.leased.workers.length) ∧
      ∃ as t why, (∀ a ∈ as, a.own = true) ∧ service.exec State.leased as = some t ∧
        t.phase = .returned why :=
  stop_ends rfl

end Sunpack.Usn.Lifetimes
