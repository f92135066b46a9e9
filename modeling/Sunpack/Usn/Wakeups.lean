import Mathlib.Data.List.Basic
import Sunpack.Usn.Lifetimes

/-!
# What the counters of the broker say

The counters are the workers', the loop ends by itself only when nobody is served, and it does not sleep
over a change that it has to see. The order matters: the leases are read before the clients, a client is
counted by the main thread alone, and whoever changes a counter signals afterwards.
-/

namespace Sunpack.Usn.Lifetimes

open Lib

/-! ## What a step can be -/

/-- A worker goes on, and what it does to what is shared. -/
inductive Turn : Worker → Worker → (State → State) → Prop
  | hello : Turn (.serving false) .stored fun s => { s with everHadLease := true }
  | add : Turn .stored .added fun s => { s with leases := fetchAdd s.leases }
  | acquired : Turn .added (.serving true) fun s => { s with changed := true }
  | subtract : Turn (.serving true) .released fun s => { s with leases := fetchSub s.leases }
  | dropped : Turn .released .left fun s => { s with changed := true }
  | idle : Turn (.serving false) .left id
  | uncount : Turn .left .uncounted fun s => { s with clients := fetchSub s.clients }
  | finish : Turn .uncounted .finished fun s => { s with changed := true }

inductive Step (s : State) : State → Prop
  | readLeases (h : s.phase = .top) :
      Step s { s with workers := s.workers.filter (· ≠ .finished), phase := .leasesRead s.leases }
  | readClients {leases : Nat} (h : s.phase = .leasesRead leases) :
      Step s { s with phase := .clientsRead leases s.clients }
  | readHad {leases clients : Nat} (h : s.phase = .clientsRead leases clients) :
      Step s { s with phase := .hadRead leases clients s.everHadLease }
  | idle (h : s.phase = .hadRead 0 0 true) : Step s { s with phase := .ending .idle }
  | start {leases clients : Nat} {hadLease : Bool} (accept : Accept)
      (h : s.phase = .hadRead leases clients hadLease)
      (hbusy : ¬(hadLease = true ∧ leases = 0 ∧ clients = 0)) (hroom : clients < maxConnectedClients) :
      Step s { s with pending := some accept, phase := .waiting }
  | pass {leases clients : Nat} {hadLease : Bool} (h : s.phase = .hadRead leases clients hadLease)
      (hbusy : ¬(hadLease = true ∧ leases = 0 ∧ clients = 0))
      (hfull : s.pending = none → maxConnectedClients ≤ clients) :
      Step s { s with phase := .waiting }
  | startFailed {leases clients : Nat} {hadLease : Bool}
      (h : s.phase = .hadRead leases clients hadLease) : Step s { s with phase := .ending .failed }
  | stopped (h : s.phase = .waiting) : Step s { s with phase := .ending .stopped }
  | taken {accept : Accept} (h : s.phase = .waiting) (hstop : s.stop = false)
      (haccept : s.pending = some accept) : Step s { s with pending := none, phase := .taken }
  | finishFailed (h : s.phase = .waiting) : Step s { s with pending := none, phase := .ending .failed }
  | changed (h : s.phase = .waiting) (hstop : s.stop = false) :
      Step s { s with changed := false, phase := .top }
  | waitFailed (h : s.phase = .waiting) : Step s { s with phase := .ending .failed }
  | count (h : s.phase = .taken) : Step s { s with clients := fetchAdd s.clients, phase := .counted }
  | spawn (h : s.phase = .counted) :
      Step s { s with workers := s.workers ++ [.serving false], phase := .top }
  | spawnFailed (h : s.phase = .counted) : Step s { s with phase := .ending .spawnFailed }
  | close {why : Ending} (h : s.phase = .ending why) :
      Step s { s with stop := true, pending := none, phase := .joining why }
  | join {why : Ending} (h : s.phase = .joining why) (hall : ∀ w ∈ s.workers, w = .finished) :
      Step s { s with phase := .returned why }
  | connect (h : s.pending = some ⟨true, false⟩) : Step s { s with pending := some ⟨true, true⟩ }
  | control : Step s { s with stop := true }
  | ignored : Step s s
  | turn {i : Nat} {w w' : Worker} {f : State → State} (hw : s.workers[i]? = some w)
      (hturn : Turn w w' f) : Step s (f (s.setWorker i w'))

section

variable {s t : State}

theorem decide_cases {how : Start} (h : s.decide how = some t) : Step s t := by
  unfold State.decide at h
  split at h
  · next leases clients hadLease hphase =>
    simp only [Option.some.injEq] at h
    subst h
    split_ifs with hidle hroom
    · obtain ⟨hhad, hleases, hclients⟩ := hidle
      subst hhad hleases hclients
      exact .idle hphase
    · cases how with
      | pending => exact .start _ hphase hidle hroom.1
      | connected => exact .start _ hphase hidle hroom.1
      | failed => exact .startFailed hphase
    · refine .pass hphase hidle fun hnone => ?_
      by_contra hlt
      exact hroom ⟨by omega, hnone⟩
  · simp at h

/-- The stop is the first handle. -/
theorem stop_of_handles {n : Nat} (h : s.handles.findIdx? id = some (n + 1)) : s.stop = false := by
  unfold State.handles at h
  cases hstop : s.stop with
  | false => rfl
  | true =>
    cases hpending : s.pending <;> simp [hpending, hstop, List.findIdx?_cons] at h

theorem wake_cases {finished : Bool} (h : s.wake finished = some t) : Step s t := by
  unfold State.wake at h
  split at h
  · next hphase _ =>
    simp only [Option.some.injEq] at h
    subst h
    exact .stopped hphase
  · next accept hphase hindex hpending =>
    simp only [Option.some.injEq] at h
    subst h
    unfold State.finish
    split_ifs
    · exact .finishFailed hphase
    · exact .taken hphase (stop_of_handles hindex) hpending
  · next n hzero hphase hindex _ =>
    simp only [Option.some.injEq] at h
    subst h
    cases n with
    | zero => exact absurd rfl hzero
    | succ n => exact .changed hphase (stop_of_handles hindex)
  · simp at h

theorem request_cases {i : Nat} {request : Request} (h : s.request i request = some t) :
    Step s t := by
  unfold State.request at h
  split at h
  · next lease hw =>
    simp only [Option.some.injEq] at h
    subst h
    split_ifs with hhello
    · have hlease : lease = false := hhello.2.2
      subst hlease
      exact .turn hw .hello
    · exact .ignored
  · simp at h

theorem leave_cases {i : Nat} (h : s.leave i = some t) : Step s t := by
  unfold State.leave at h
  split at h
  · next hw =>
    simp only [Option.some.injEq] at h
    subst h
    exact .turn hw .subtract
  · next hw =>
    simp only [Option.some.injEq] at h
    subst h
    exact .turn hw .idle
  · simp at h

theorem proceed_cases {i : Nat} (h : s.proceed i = some t) : Step s t := by
  unfold State.proceed at h
  split at h <;> first | simp only [Option.some.injEq] at h; subst h | simp at h
  · next hw => exact .turn hw .add
  · next hw => exact .turn hw .acquired
  · next hw => exact .turn hw .dropped
  · next hw => exact .turn hw .uncount
  · next hw => exact .turn hw .finish

theorem step_cases {a : Action} (h : step s a = some t) : Step s t := by
  cases a with
  | decide how => exact decide_cases h
  | wake finished => exact wake_cases h
  | request i request => exact request_cases h
  | leave i => exact leave_cases h
  | proceed i => exact proceed_cases h
  | readLeases =>
    simp only [step, State.readLeases] at h
    split at h
    · next hphase =>
      simp only [Option.some.injEq] at h
      subst h
      exact .readLeases hphase
    · simp at h
  | readClients =>
    simp only [step, State.readClients] at h
    split at h
    · next hphase =>
      simp only [Option.some.injEq] at h
      subst h
      exact .readClients hphase
    · simp at h
  | readHad =>
    simp only [step, State.readHad] at h
    split at h
    · next hphase =>
      simp only [Option.some.injEq] at h
      subst h
      exact .readHad hphase
    · simp at h
  | waitFailed =>
    simp only [step, State.waitFailed] at h
    split at h
    · next hphase =>
      simp only [Option.some.injEq] at h
      subst h
      exact .waitFailed hphase
    · simp at h
  | count =>
    simp only [step, State.count] at h
    split at h
    · next hphase =>
      simp only [Option.some.injEq] at h
      subst h
      exact .count hphase
    · simp at h
  | spawn spawned =>
    simp only [step, State.spawn] at h
    split at h
    · next hphase =>
      simp only [Option.some.injEq] at h
      subst h
      split_ifs
      · exact .spawn hphase
      · exact .spawnFailed hphase
    · simp at h
  | close =>
    simp only [step, State.close] at h
    split at h
    · next hphase =>
      simp only [Option.some.injEq] at h
      subst h
      exact .close hphase
    · simp at h
  | join =>
    simp only [step, State.join] at h
    split at h
    · next hphase =>
      split_ifs at h with hall
      simp only [Option.some.injEq] at h
      subst h
      exact .join hphase hall
    · simp at h
  | connect =>
    simp only [step, State.connect] at h
    split at h
    · next hpending =>
      simp only [Option.some.injEq] at h
      subst h
      exact .connect hpending
    · simp at h
  | control =>
    simp only [step, State.control, Option.some.injEq] at h
    subst h
    exact .control

end

/-! ## The counters -/

theorem countP_set_add {α : Type} {p : α → Bool} {l : List α} {i : Nat} {a b : α}
    (h : l[i]? = some a) :
    (l.set i b).countP p + (if p a = true then 1 else 0) =
      l.countP p + (if p b = true then 1 else 0) := by
  obtain ⟨hi, ha⟩ := List.getElem?_eq_some_iff.1 h
  have hset := List.countP_set (p := p) (a := b) hi
  rw [ha] at hset
  by_cases hp : p a = true
  · have hpos : 0 < l.countP p := List.countP_pos_iff.2 ⟨a, List.mem_of_getElem? h, hp⟩
    rw [if_pos hp] at hset ⊢
    omega
  · rw [if_neg hp] at hset ⊢
    omega

theorem countP_unfinished {p : Worker → Bool} (hp : p .finished = false) (l : List Worker) :
    (l.filter (· ≠ .finished)).countP p = l.countP p := by
  rw [List.countP_filter]
  apply List.countP_congr
  intro w _
  cases w <;> simp [hp]

/-- What holds where the main thread stands. A client is counted by the main thread alone, so that there
are at most as many as it has read. -/
def Placed (s : State) : Phase → Prop
  | .clientsRead _ clients => s.clients ≤ clients
  | .hadRead _ clients hadLease => s.clients ≤ clients ∧ (hadLease = true → s.everHadLease = true)
  | .taken => s.clients < maxConnectedClients ∧ s.pending = none
  | .ending why => why = .idle → s.everHadLease = true ∧ s.clients = 0
  | .joining why =>
    s.stop = true ∧ s.pending = none ∧ (why = .idle → s.everHadLease = true ∧ s.clients = 0)
  | .returned why =>
    s.stop = true ∧ s.pending = none ∧ (∀ w ∈ s.workers, w = .finished) ∧
      (why = .idle → s.everHadLease = true ∧ s.clients = 0)
  | _ => True

structure Counted (s : State) : Prop where
  leases : s.leases = s.workers.countP Worker.holdsLease
  clients : s.clients = s.workers.countP Worker.connected + s.phase.extra
  bound : s.clients ≤ maxConnectedClients
  /-- There is room for the client of an accept. -/
  room : s.pending ≠ none → s.clients < maxConnectedClients
  ever : ∀ w ∈ s.workers, w.greeted = true → s.everHadLease = true
  placed : Placed s s.phase

theorem Counted.leases_le {s : State} (h : Counted s) : s.leases ≤ s.clients := by
  have hle : s.workers.countP Worker.holdsLease ≤ s.workers.countP Worker.connected :=
    List.countP_mono_left fun w _ hw => w.connected_of_holdsLease hw
  rw [h.leases, h.clients]
  omega

/-- A worker only ever takes clients away. -/
structure Quieter (s t : State) : Prop where
  phase : t.phase = s.phase
  pending : t.pending = s.pending
  stop : t.stop = s.stop
  clients : t.clients ≤ s.clients
  ever : s.everHadLease = true → t.everHadLease = true

section

variable {s : State} {i : Nat} {w w' : Worker} {f : State → State}

theorem Turn.quieter (hturn : Turn w w' f) (hw : s.workers[i]? = some w) (h : Counted s) :
    Quieter s (f (s.setWorker i w')) := by
  cases hturn with
  | uncount =>
    have hpos : 0 < s.workers.countP Worker.connected :=
      List.countP_pos_iff.2 ⟨_, List.mem_of_getElem? hw, rfl⟩
    have hclients := h.clients
    have hsub := fetchSub_eq (n := s.clients) (by omega) h.bound
    refine ⟨rfl, rfl, rfl, ?_, id⟩
    simp only [State.setWorker, hsub]
    omega
  | hello => exact ⟨rfl, rfl, rfl, le_refl _, fun _ => rfl⟩
  | add | acquired | subtract | dropped | idle | finish => exact ⟨rfl, rfl, rfl, le_refl _, id⟩

theorem Turn.workers (hturn : Turn w w' f) :
    (f (s.setWorker i w')).workers = s.workers.set i w' := by
  cases hturn <;> rfl

theorem Turn.leases (hturn : Turn w w' f) (hw : s.workers[i]? = some w) (h : Counted s) :
    (f (s.setWorker i w')).leases = (s.workers.set i w').countP Worker.holdsLease := by
  have hset := countP_set_add (p := Worker.holdsLease) (b := w') hw
  have hclients := h.clients
  have hleases := h.leases
  have hbound := h.bound
  cases hturn with
  | add =>
    have hlt : s.workers.countP Worker.holdsLease < s.workers.countP Worker.connected := by
      -- without this worker there is one client less, and as many leases
      have hothers : (s.workers.set i .uncounted).countP Worker.holdsLease ≤
          (s.workers.set i .uncounted).countP Worker.connected :=
        List.countP_mono_left fun w _ hw => w.connected_of_holdsLease hw
      have hholds := countP_set_add (p := Worker.holdsLease) (b := .uncounted) hw
      have hconnected := countP_set_add (p := Worker.connected) (b := .uncounted) hw
      simp [Worker.holdsLease, Worker.connected] at hholds hconnected
      omega
    have hadd := fetchAdd_eq (n := s.leases) (by omega)
    simp [Worker.holdsLease] at hset
    simp only [State.setWorker, hadd]
    omega
  | subtract =>
    have hpos : 0 < s.workers.countP Worker.holdsLease :=
      List.countP_pos_iff.2 ⟨_, List.mem_of_getElem? hw, rfl⟩
    have hle := h.leases_le
    have hsub := fetchSub_eq (n := s.leases) (by omega) (by omega)
    simp [Worker.holdsLease] at hset
    simp only [State.setWorker, hsub]
    omega
  | hello | acquired | dropped | idle | uncount | finish =>
    simp [Worker.holdsLease] at hset
    simp only [State.setWorker, id]
    omega

theorem Turn.clients (hturn : Turn w w' f) (hw : s.workers[i]? = some w) (h : Counted s) :
    (f (s.setWorker i w')).clients =
      (s.workers.set i w').countP Worker.connected + s.phase.extra := by
  have hset := countP_set_add (p := Worker.connected) (b := w') hw
  have hclients := h.clients
  cases hturn with
  | uncount =>
    have hpos : 0 < s.workers.countP Worker.connected :=
      List.countP_pos_iff.2 ⟨_, List.mem_of_getElem? hw, rfl⟩
    have hsub := fetchSub_eq (n := s.clients) (by omega) h.bound
    simp [Worker.connected] at hset
    simp only [State.setWorker, hsub]
    omega
  | hello | add | acquired | subtract | dropped | idle | finish =>
    simp [Worker.connected] at hset
    simp only [State.setWorker, id]
    omega

theorem Turn.ever (hturn : Turn w w' f) (hw : s.workers[i]? = some w) (h : Counted s)
    (hgreeted : w'.greeted = true) : (f (s.setWorker i w')).everHadLease = true := by
  have hever := h.ever w (List.mem_of_getElem? hw)
  cases hturn with
  | hello => rfl
  | add | acquired | subtract => exact hever rfl
  | dropped | idle | uncount | finish => simp [Worker.greeted] at hgreeted

theorem Placed.turn (h : Counted s) (hw : s.workers[i]? = some w) (hturn : Turn w w' f) :
    Placed (f (s.setWorker i w')) s.phase := by
  obtain ⟨-, hpending, hstop, hclients, hever⟩ := hturn.quieter hw h
  have hplaced := h.placed
  cases hphase : s.phase with
  | top | leasesRead | waiting | counted => trivial
  | clientsRead leases clients =>
    rw [hphase] at hplaced
    exact le_trans hclients hplaced
  | hadRead leases clients hadLease =>
    rw [hphase] at hplaced
    exact ⟨le_trans hclients hplaced.1, fun hhad => hever (hplaced.2 hhad)⟩
  | taken =>
    rw [hphase] at hplaced
    exact ⟨lt_of_le_of_lt hclients hplaced.1, hpending.trans hplaced.2⟩
  | ending why =>
    rw [hphase] at hplaced
    intro hidle
    obtain ⟨hhad, hzero⟩ := hplaced hidle
    exact ⟨hever hhad, by omega⟩
  | joining why =>
    rw [hphase] at hplaced
    obtain ⟨hstopped, hnone, hwhy⟩ := hplaced
    refine ⟨hstop.trans hstopped, hpending.trans hnone, fun hidle => ?_⟩
    obtain ⟨hhad, hzero⟩ := hwhy hidle
    exact ⟨hever hhad, by omega⟩
  | returned why =>
    rw [hphase] at hplaced
    obtain ⟨-, -, hall, -⟩ := hplaced
    have hfinished := hall w (List.mem_of_getElem? hw)
    subst hfinished
    cases hturn

theorem Counted.turn (h : Counted s) (hw : s.workers[i]? = some w) (hturn : Turn w w' f) :
    Counted (f (s.setWorker i w')) := by
  obtain ⟨hphase, hpending, -, hclients, hever⟩ := hturn.quieter hw h
  constructor
  · rw [hturn.workers]
    exact hturn.leases hw h
  · rw [hturn.workers, hphase]
    exact hturn.clients hw h
  · exact le_trans hclients h.bound
  · rw [hpending]
    intro hsome
    exact lt_of_le_of_lt hclients (h.room hsome)
  · rw [hturn.workers]
    intro v hv hgreeted
    rcases List.mem_or_eq_of_mem_set hv with hv | hv
    · exact hever (h.ever v hv hgreeted)
    · subst hv
      exact hturn.ever hw h hgreeted
  · rw [hphase]
    exact .turn h hw hturn

/-- A step that changes neither counters nor workers. -/
theorem Counted.moved (h : Counted s) {pending : Option Accept} {changed stop : Bool} {phase : Phase}
    (hextra : phase.extra = s.phase.extra)
    (hroom : pending ≠ none → s.clients < maxConnectedClients)
    (hplaced : Placed { s with pending := pending, changed := changed, stop := stop, phase := phase }
      phase) :
    Counted { s with pending := pending, changed := changed, stop := stop, phase := phase } where
  leases := h.leases
  clients := h.clients.trans (by rw [hextra])
  bound := h.bound
  room := hroom
  ever := h.ever
  placed := hplaced

theorem Counted.readLeases (h : Counted s) (hphase : s.phase = .top) :
    Counted
      { s with workers := s.workers.filter (· ≠ .finished), phase := .leasesRead s.leases } := by
  have hclients := h.clients
  rw [hphase] at hclients
  constructor
  · rw [countP_unfinished rfl]
    exact h.leases
  · rw [countP_unfinished rfl]
    exact hclients
  · exact h.bound
  · exact h.room
  · intro w hw hgreeted
    exact h.ever w (List.mem_of_mem_filter hw) hgreeted
  · trivial

theorem Counted.count (h : Counted s) (hphase : s.phase = .taken) :
    Counted { s with clients := fetchAdd s.clients, phase := .counted } := by
  have hclients := h.clients
  have hplaced := h.placed
  rw [hphase] at hclients hplaced
  obtain ⟨hroom, hnone⟩ := hplaced
  have hadd := fetchAdd_eq hroom
  simp only [Phase.extra] at hclients
  constructor
  · exact h.leases
  · simp only [hadd, Phase.extra]
    omega
  · simp only [hadd]
    omega
  · intro hsome
    exact absurd hnone hsome
  · exact h.ever
  · trivial

theorem Counted.spawn (h : Counted s) (hphase : s.phase = .counted) :
    Counted { s with workers := s.workers ++ [.serving false], phase := .top } := by
  have hclients := h.clients
  rw [hphase] at hclients
  constructor
  · simpa [Worker.holdsLease] using h.leases
  · simpa [Worker.connected, Phase.extra] using hclients
  · exact h.bound
  · exact h.room
  · intro w hw hgreeted
    rcases List.mem_append.1 hw with hw | hw
    · exact h.ever w hw hgreeted
    · rw [List.mem_singleton.1 hw] at hgreeted
      simp [Worker.greeted] at hgreeted
  · trivial

theorem Counted.step {t : State} (h : Counted s) (hstep : Step s t) : Counted t := by
  have hplaced := h.placed
  cases hstep with
  | readLeases hphase => exact h.readLeases hphase
  | count hphase => exact h.count hphase
  | spawn hphase => exact h.spawn hphase
  | turn hw hturn => exact h.turn hw hturn
  | ignored => exact h
  | readClients hphase => exact h.moved (by rw [hphase]; rfl) h.room (le_refl _)
  | readHad hphase =>
    rw [hphase] at hplaced
    exact h.moved (by rw [hphase]; rfl) h.room ⟨hplaced, id⟩
  | idle hphase =>
    rw [hphase] at hplaced
    obtain ⟨hzero, hhad⟩ := hplaced
    exact h.moved (by rw [hphase]; rfl) h.room fun _ => ⟨hhad rfl, Nat.le_zero.1 hzero⟩
  | start accept hphase hbusy hroom =>
    rw [hphase] at hplaced
    exact h.moved (by rw [hphase]; rfl) (fun _ => lt_of_le_of_lt hplaced.1 hroom) trivial
  | pass hphase hbusy hfull => exact h.moved (by rw [hphase]; rfl) h.room trivial
  | startFailed hphase | stopped hphase | waitFailed hphase =>
    exact h.moved (by rw [hphase]; rfl) h.room fun hidle => by simp at hidle
  | taken hphase hstop haccept =>
    have hroom := h.room (by simp [haccept])
    exact h.moved (by rw [hphase]; rfl) (fun hsome => absurd rfl hsome) ⟨hroom, rfl⟩
  | finishFailed hphase =>
    exact h.moved (by rw [hphase]; rfl) (fun hsome => absurd rfl hsome) fun hidle => by simp at hidle
  | changed hphase hstop => exact h.moved (by rw [hphase]; rfl) h.room trivial
  | spawnFailed hphase =>
    exact h.moved (by rw [hphase]; rfl) h.room fun hidle => by simp at hidle
  | @close why hphase =>
    rw [hphase] at hplaced
    refine h.moved ?_ (fun hsome => absurd rfl hsome) ⟨rfl, rfl, hplaced⟩
    rw [hphase]
    cases why <;> rfl
  | @join why hphase hall =>
    rw [hphase] at hplaced
    obtain ⟨hstop, hnone, hwhy⟩ := hplaced
    refine h.moved ?_ h.room ⟨hstop, hnone, hall, hwhy⟩
    rw [hphase]
    cases why <;> rfl
  | connect hpending =>
    have hroom := h.room (by simp [hpending])
    refine h.moved rfl (fun _ => hroom) ?_
    cases hphase : s.phase with
    | taken | joining | returned => simp [hphase, Placed, hpending] at hplaced
    | top | leasesRead | waiting | counted => trivial
    | clientsRead | hadRead | ending =>
      rw [hphase] at hplaced
      exact hplaced
  | control =>
    refine h.moved rfl h.room ?_
    cases hphase : s.phase with
    | top | leasesRead | waiting | counted => trivial
    | clientsRead | hadRead | ending | taken =>
      rw [hphase] at hplaced
      exact hplaced
    | joining | returned =>
      rw [hphase] at hplaced
      exact ⟨rfl, hplaced.2⟩

theorem counted (h : service.Reachable s) : Counted s := by
  refine h.invariant ?_ ?_
  · constructor <;> simp [service, State.init, maxConnectedClients, Phase.extra, Placed]
  · intro s a t hs hstep
    exact hs.step (step_cases hstep)

end

/-! ## The wait -/

/-- Nothing is on its way to the main thread. -/
structure Quiet (s : State) : Prop where
  changed : s.changed = false
  workers : ∀ w ∈ s.workers, w.signalling = false

/-- The loop is to end. -/
def Idle (s : State) : Prop := s.everHadLease = true ∧ s.leases = 0 ∧ s.clients = 0

/-- What the main thread has read is so. A hello may have come in between, but then somebody is
served. -/
def Current (s : State) : Phase → Prop
  | .leasesRead leases => s.leases = leases
  | .clientsRead leases clients => s.leases = leases ∧ s.clients = clients
  | .hadRead leases clients hadLease =>
    s.leases = leases ∧ s.clients = clients ∧ (s.clients = 0 → s.everHadLease = hadLease)
  | .waiting => ¬Idle s ∧ (s.pending = none → maxConnectedClients ≤ s.clients)
  | _ => True

def Wakeful (s : State) : Prop := Quiet s → Current s s.phase

section

variable {s t : State} {i : Nat} {w w' : Worker} {f : State → State}

theorem quiet_iff : Quiet s ↔ s.changed = false ∧ s.workers.countP Worker.signalling = 0 := by
  rw [List.countP_eq_zero]
  constructor
  · intro h
    exact ⟨h.changed, fun w hw => by simp [h.workers w hw]⟩
  · intro h
    exact ⟨h.1, fun w hw => by simpa using h.2 w hw⟩

/-- A turn after which nothing is on its way changes no counter, and there was nothing on its way. -/
theorem Turn.quiet (hturn : Turn w w' f) (hw : s.workers[i]? = some w)
    (h : Quiet (f (s.setWorker i w'))) :
    Quiet s ∧ w.connected = true ∧ (f (s.setWorker i w')).leases = s.leases ∧
      (f (s.setWorker i w')).clients = s.clients := by
  have hset := countP_set_add (p := Worker.signalling) (b := w') hw
  rw [quiet_iff, hturn.workers] at h
  rw [quiet_iff]
  obtain ⟨hchanged, hzero⟩ := h
  cases hturn with
  | hello | idle =>
    simp [Worker.signalling] at hset
    exact ⟨⟨hchanged, hset.symm.trans hzero⟩, rfl, rfl, rfl⟩
  | add | subtract | uncount =>
    simp [Worker.signalling] at hset
    omega
  | acquired | dropped | finish => simp at hchanged

theorem Wakeful.turn (h : Wakeful s) (hcounted : Counted s) (hw : s.workers[i]? = some w)
    (hturn : Turn w w' f) : Wakeful (f (s.setWorker i w')) := by
  intro hquiet
  obtain ⟨hphase, hpending, -, -, -⟩ := hturn.quieter hw hcounted
  obtain ⟨hbefore, hconnected, hleases, hclients⟩ := hturn.quiet hw hquiet
  have hcurrent := h hbefore
  have hserved : 0 < s.clients := by
    have hpos : 0 < s.workers.countP Worker.connected :=
      List.countP_pos_iff.2 ⟨w, List.mem_of_getElem? hw, hconnected⟩
    rw [hcounted.clients]
    omega
  rw [hphase]
  cases hat : s.phase with
  | leasesRead leases =>
    rw [hat] at hcurrent
    exact hleases.trans hcurrent
  | clientsRead leases clients =>
    rw [hat] at hcurrent
    exact ⟨hleases.trans hcurrent.1, hclients.trans hcurrent.2⟩
  | hadRead leases clients hadLease =>
    rw [hat] at hcurrent
    refine ⟨hleases.trans hcurrent.1, hclients.trans hcurrent.2.1, fun hzero => ?_⟩
    omega
  | waiting =>
    rw [hat] at hcurrent
    refine ⟨fun hidle => ?_, fun hnone => ?_⟩
    · have hzero := hidle.2.2
      omega
    · rw [hclients]
      exact hcurrent.2 (hpending.symm.trans hnone)
  | top | taken | counted | ending | joining | returned => trivial

/-- Going to sleep is right by what has been read. -/
theorem Current.decided {leases clients : Nat} {hadLease : Bool}
    (h : Current s (.hadRead leases clients hadLease))
    (hbusy : ¬(hadLease = true ∧ leases = 0 ∧ clients = 0)) : ¬Idle s := by
  obtain ⟨hleases, hclients, hever⟩ := h
  rintro ⟨hhad, hnone, hnobody⟩
  refine hbusy ⟨(hever hnobody).symm.trans hhad, ?_, ?_⟩
  · exact hleases.symm.trans hnone
  · exact hclients.symm.trans hnobody

theorem Wakeful.step (h : Wakeful s) (hcounted : Counted s) (hstep : Step s t) : Wakeful t := by
  cases hstep with
  | turn hw hturn => exact h.turn hcounted hw hturn
  | ignored => exact h
  | readLeases hphase => exact fun _ => rfl
  | readClients hphase =>
    intro hquiet
    have hcurrent := h ⟨hquiet.changed, hquiet.workers⟩
    rw [hphase] at hcurrent
    exact ⟨hcurrent, rfl⟩
  | readHad hphase =>
    intro hquiet
    have hcurrent := h ⟨hquiet.changed, hquiet.workers⟩
    rw [hphase] at hcurrent
    exact ⟨hcurrent.1, hcurrent.2, fun _ => rfl⟩
  | start accept hphase hbusy hroom =>
    intro hquiet
    have hcurrent := h ⟨hquiet.changed, hquiet.workers⟩
    rw [hphase] at hcurrent
    exact ⟨hcurrent.decided hbusy, fun hnone => by simp at hnone⟩
  | pass hphase hbusy hfull =>
    intro hquiet
    have hcurrent := h ⟨hquiet.changed, hquiet.workers⟩
    rw [hphase] at hcurrent
    refine ⟨hcurrent.decided hbusy, fun hnone => ?_⟩
    exact le_of_le_of_eq (hfull hnone) hcurrent.2.1.symm
  | connect hpending =>
    intro hquiet
    have hcurrent := h ⟨hquiet.changed, hquiet.workers⟩
    cases hphase : s.phase with
    | waiting =>
      rw [hphase] at hcurrent
      exact ⟨hcurrent.1, fun hnone => by simp at hnone⟩
    | leasesRead | clientsRead | hadRead =>
      rw [hphase] at hcurrent
      exact hcurrent
    | top | taken | counted | ending | joining | returned => trivial
  | control =>
    intro hquiet
    have hcurrent := h ⟨hquiet.changed, hquiet.workers⟩
    cases hphase : s.phase <;> rw [hphase] at hcurrent <;> exact hcurrent
  | idle | startFailed | stopped | taken | finishFailed | changed | waitFailed | count | spawn
  | spawnFailed | close | join => exact fun _ => trivial

theorem wakeful (h : service.Reachable s) : Wakeful s := by
  have hboth : Counted s ∧ Wakeful s := by
    refine h.invariant (P := fun s => Counted s ∧ Wakeful s) ?_ ?_
    · refine ⟨counted .refl, fun _ => trivial⟩
    · rintro s a t ⟨hcounted, hwakeful⟩ hstep
      exact ⟨hcounted.step (step_cases hstep), hwakeful.step hcounted (step_cases hstep)⟩
  exact hboth.2

/-- The leases and the clients are counted, at most 64 clients; the loop ends by itself only after a lease
and with nobody connected; it returns only when every worker has ended; and while it sleeps, with no
event and no worker about to set one, it has no reason to end and a pipe to connect to, but for 64
clients. -/
theorem lifetimes_accounted (h : service.Reachable s) :
    s.leases = s.workers.countP Worker.holdsLease ∧
      s.clients = s.workers.countP Worker.connected + s.phase.extra ∧
      s.clients ≤ maxConnectedClients ∧
      (s.phase.ended = some .idle →
        s.everHadLease = true ∧ ∀ w ∈ s.workers, w.connected = false ∧ w.holdsLease = false) ∧
      (∀ why, s.phase = .returned why →
        s.stop = true ∧ s.pending = none ∧ ∀ w ∈ s.workers, w = .finished) ∧
      (s.phase = .waiting → (∀ signalled ∈ s.handles, signalled = false) →
        (∀ w ∈ s.workers, w.signalling = false) →
          ¬Idle s ∧ (s.pending = none → s.clients = maxConnectedClients)) := by
  have hcounted := counted h
  have hplaced := hcounted.placed
  refine ⟨hcounted.leases, hcounted.clients, hcounted.bound, ?_, ?_, ?_⟩
  · intro hidle
    have hwhy : s.everHadLease = true ∧ s.clients = 0 := by
      cases hphase : s.phase with
      | ending why =>
        rw [hphase] at hplaced hidle
        exact hplaced (Option.some.inj hidle)
      | joining why =>
        rw [hphase] at hplaced hidle
        exact hplaced.2.2 (Option.some.inj hidle)
      | returned why =>
        rw [hphase] at hplaced hidle
        exact hplaced.2.2.2 (Option.some.inj hidle)
      | _ => simp [hphase, Phase.ended] at hidle
    have hzero : s.workers.countP Worker.connected = 0 := by
      have hclients := hcounted.clients
      omega
    refine ⟨hwhy.1, fun w hw => ?_⟩
    have hconnected : w.connected = false := by simpa using List.countP_eq_zero.1 hzero w hw
    refine ⟨hconnected, ?_⟩
    by_contra hholds
    have := w.connected_of_holdsLease (by simpa using hholds)
    simp [hconnected] at this
  · intro why hphase
    rw [hphase] at hplaced
    exact ⟨hplaced.1, hplaced.2.1, hplaced.2.2.1⟩
  · intro hphase hhandles hworkers
    have hchanged : s.changed = false := by
      apply hhandles
      unfold State.handles
      split <;> simp
    have hcurrent := wakeful h ⟨hchanged, hworkers⟩
    rw [hphase] at hcurrent
    exact ⟨hcurrent.1, fun hnone => le_antisymm hcounted.bound (hcurrent.2 hnone)⟩

end

/-- One client comes, says hello and goes away, and then the broker ends. -/
def oneClient : List Action :=
  [.readLeases, .readClients, .readHad, .decide .pending, .connect, .wake true, .count, .spawn true,
    .request 0 (Request.simple .hello 1), .proceed 0, .proceed 0, .leave 0, .proceed 0, .proceed 0,
    .proceed 0, .readLeases, .readClients, .readHad, .decide .connected, .close, .join]

def State.idled : State := ⟨0, 0, true, true, true, none, [], .returned .idle⟩

theorem idled_reachable : service.Reachable State.idled := by
  have hrun : service.exec service.init oneClient = some State.idled := rfl
  exact .of_exec hrun

theorem lifetimes_accounted_idled :
    State.idled.leases = State.idled.workers.countP Worker.holdsLease ∧
      State.idled.clients =
        State.idled.workers.countP Worker.connected + State.idled.phase.extra ∧
      State.idled.clients ≤ maxConnectedClients ∧
      (State.idled.phase.ended = some .idle → State.idled.everHadLease = true ∧
        ∀ w ∈ State.idled.workers, w.connected = false ∧ w.holdsLease = false) ∧
      (∀ why, State.idled.phase = .returned why → State.idled.stop = true ∧
        State.idled.pending = none ∧ ∀ w ∈ State.idled.workers, w = .finished) ∧
      (State.idled.phase = .waiting → (∀ signalled ∈ State.idled.handles, signalled = false) →
        (∀ w ∈ State.idled.workers, w.signalling = false) →
          ¬Idle State.idled ∧
            (State.idled.pending = none → State.idled.clients = maxConnectedClients)) :=
  lifetimes_accounted idled_reachable

end Sunpack.Usn.Lifetimes
