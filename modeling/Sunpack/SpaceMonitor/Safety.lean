import Mathlib.Tactic
import Sunpack.SpaceMonitor.Model

/-!
# Sampling survives stale snapshots

The generation counts the blocked events, so the exchange of a tick that saw nothing blocked succeeds
only if no event took effect since the tick loaded the word.
-/

namespace Sunpack.SpaceMonitor

open Lib

variable {o : Options} {s t : State}

/-! ## What a step does -/

theorem enter_eq {i : Nat} {v : VolumeState} (h : s.enter i v = some t) :
    (s.notes i = .idle ∧ v.spaceGate = true) ∧
      t = { s.setNote i (.entered v) with blocked := s.blocked.insert v } := by
  rw [State.enter] at h
  split_ifs at h with hidle
  exact ⟨hidle, (Option.some.inj h).symm⟩

theorem load_eq {i : Nat} (h : s.load i = some t) :
    (s.notes i = .idle ∧ t = s.setNote i (.swapping none s.word)) ∨
      ∃ v, s.notes i = .entered v ∧ t = s.setNote i (.swapping (some v) s.word) := by
  rw [State.load] at h
  cases hp : s.notes i with
  | idle =>
    rw [hp] at h
    exact Or.inl ⟨rfl, (Option.some.inj h).symm⟩
  | entered v =>
    rw [hp] at h
    exact Or.inr ⟨v, rfl, (Option.some.inj h).symm⟩
  | swapping v expected =>
    rw [hp] at h
    cases h

theorem swap_eq {i : Nat} {spurious : Bool} (h : s.swap i spurious = some t) :
    ∃ v expected, s.notes i = .swapping v expected ∧
      (t = { s.setNote i .idle with word := raise s.word, events := s.events + 1 } ∨
        t = s.setNote i (.swapping v s.word)) := by
  rw [State.swap] at h
  cases hp : s.notes i with
  | idle =>
    rw [hp] at h
    cases h
  | entered v =>
    rw [hp] at h
    cases h
  | swapping v expected =>
    rw [hp] at h
    simp only at h
    refine ⟨v, expected, rfl, ?_⟩
    split_ifs at h with hsame
    · exact Or.inl (by rw [hsame.1, Option.some.inj h])
    · exact Or.inr (Option.some.inj h).symm

theorem begin_eq {k : Nat} {now : Int} (h : s.begin o k now = some t) :
    s.ticks k = .idle ∧
      (t = s ∨ s.word % 2 = 1 ∧ t = s.setTick k (.loaded now s.word s.events)) := by
  rw [State.begin] at h
  cases hp : s.ticks k with
  | idle =>
    rw [hp] at h
    simp only at h
    refine ⟨rfl, ?_⟩
    split_ifs at h with hword
    · exact Or.inl (Option.some.inj h).symm
    · exact Or.inl (Option.some.inj h).symm
    · rw [and_one_eq_zero] at hword
      exact Or.inr ⟨by omega, (Option.some.inj h).symm⟩
  | loaded => rw [hp] at h; cases h
  | answered => rw [hp] at h; cases h
  | clearing => rw [hp] at h; cases h

theorem snapshot_eq {k : Nat} (h : s.snapshot k = some t) :
    ∃ now generation seen, s.ticks k = .loaded now generation seen ∧
      t = s.setTick k (.answered now generation seen s.events s.blocked) := by
  rw [State.snapshot] at h
  cases hp : s.ticks k with
  | idle => rw [hp] at h; cases h
  | loaded now generation seen =>
    rw [hp] at h
    exact ⟨now, generation, seen, rfl, (Option.some.inj h).symm⟩
  | answered => rw [hp] at h; cases h
  | clearing => rw [hp] at h; cases h

theorem providerFails_eq {k : Nat} (h : s.providerFails k = some t) : t = s.setTick k .idle := by
  rw [State.providerFails] at h
  cases hp : s.ticks k with
  | idle => rw [hp] at h; cases h
  | loaded => rw [hp] at h; exact (Option.some.inj h).symm
  | answered => rw [hp] at h; cases h
  | clearing => rw [hp] at h; cases h

theorem rest_eq {k : Nat} (h : s.rest o k = some t) :
    ∃ now generation seen taken states,
      s.ticks k = .answered now generation seen taken states ∧
        (states = [] ∧
            t = { s.setTick k (.clearing generation seen taken states) with nextPollAt := 0 } ∨
          states ≠ [] ∧ s.due now = true ∧
            t = { s.setTick k .idle with
              nextPollAt := now + o.interval
              polled := s.polled ++ states.filter (·.spaceGate) } ∨
          states ≠ [] ∧ s.due now = false ∧ t = s.setTick k .idle) := by
  rw [State.rest] at h
  cases hp : s.ticks k with
  | idle => rw [hp] at h; cases h
  | loaded => rw [hp] at h; cases h
  | answered now generation seen taken states =>
    rw [hp] at h
    simp only [List.isEmpty_iff] at h
    refine ⟨now, generation, seen, taken, states, rfl, ?_⟩
    split_ifs at h with hempty hdue
    · exact Or.inl ⟨hempty, (Option.some.inj h).symm⟩
    · exact Or.inr (Or.inl ⟨hempty, hdue, (Option.some.inj h).symm⟩)
    · exact Or.inr (Or.inr ⟨hempty, by simpa using hdue, (Option.some.inj h).symm⟩)
  | clearing => rw [hp] at h; cases h

theorem clear_eq {k : Nat} (h : s.clear k = some t) :
    ∃ generation seen taken states, s.ticks k = .clearing generation seen taken states ∧
      (s.word = generation ∧ t = { s.setTick k .idle with word := lower s.word } ∨
        t = s.setTick k .idle) := by
  rw [State.clear] at h
  cases hp : s.ticks k with
  | idle => rw [hp] at h; cases h
  | loaded => rw [hp] at h; cases h
  | answered => rw [hp] at h; cases h
  | clearing generation seen taken states =>
    rw [hp] at h
    simp only at h
    refine ⟨generation, seen, taken, states, rfl, ?_⟩
    split_ifs at h with hsame
    · exact Or.inl ⟨hsame, by rw [hsame, Option.some.inj h]⟩
    · exact Or.inr (Option.some.inj h).symm

/-! ## The generation counts the events -/

/-- An odd word of the generation that this many events lead to. -/
def Stamp (generation seen : Nat) : Prop := generation % 2 = 1 ∧ generation / 2 = seen % 2 ^ 63

def TickPhase.Ok (events : Nat) : TickPhase → Prop
  | .idle => True
  | .loaded _ generation seen => Stamp generation seen ∧ seen ≤ events
  | .answered _ generation seen taken _ => Stamp generation seen ∧ seen ≤ taken ∧ taken ≤ events
  | .clearing generation seen taken states =>
    Stamp generation seen ∧ seen ≤ taken ∧ taken ≤ events ∧ states = []

theorem TickPhase.Ok.mono {events events' : Nat} {p : TickPhase} (h : p.Ok events)
    (hle : events ≤ events') : p.Ok events' := by
  cases p with
  | idle => trivial
  | loaded => exact ⟨h.1, le_trans h.2 hle⟩
  | answered => exact ⟨h.1, h.2.1, le_trans h.2.2 hle⟩
  | clearing => exact ⟨h.1, h.2.1, le_trans h.2.2.1 hle, h.2.2.2⟩

structure Counted (s : State) : Prop where
  word_lt : s.word < 2 ^ 64
  generation : s.word / 2 = s.events % 2 ^ 63
  ticks : ∀ k, (s.ticks k).Ok s.events

theorem Counted.init : Counted State.init where
  word_lt := by decide
  generation := by decide
  ticks _ := trivial

theorem ticks_setTick {P : TickPhase → Prop} {k : Nat} {p : TickPhase} (h : ∀ j, P (s.ticks j))
    (hp : P p) (j : Nat) : P ((s.setTick k p).ticks j) := by
  show P (Function.update s.ticks k p j)
  rw [Function.update_apply]
  split_ifs
  · exact hp
  · exact h j

theorem Counted.setTick (h : Counted s) (k : Nat) {p : TickPhase} (hp : p.Ok s.events) :
    Counted (s.setTick k p) where
  word_lt := h.word_lt
  generation := h.generation
  ticks := ticks_setTick h.ticks hp

theorem Counted.step {a : Action} (h : Counted s) (hstep : step o s a = some t) : Counted t := by
  cases a with
  | enter i v =>
    obtain ⟨_, rfl⟩ := enter_eq hstep
    exact ⟨h.word_lt, h.generation, h.ticks⟩
  | leave v =>
    obtain rfl := Option.some.inj hstep
    exact ⟨h.word_lt, h.generation, h.ticks⟩
  | load i =>
    rcases load_eq hstep with ⟨_, rfl⟩ | ⟨v, _, rfl⟩
    · exact ⟨h.word_lt, h.generation, h.ticks⟩
    · exact ⟨h.word_lt, h.generation, h.ticks⟩
  | swap i spurious =>
    obtain ⟨v, expected, _, rfl | rfl⟩ := swap_eq hstep
    · have hword := h.word_lt
      have hgeneration := h.generation
      refine ⟨?_, ?_, fun k => (h.ticks k).mono (Nat.le_succ _)⟩
      · show raise s.word < 2 ^ 64
        rw [raise_eq]
        omega
      · show raise s.word / 2 = (s.events + 1) % 2 ^ 63
        rw [raise_eq]
        omega
    · exact ⟨h.word_lt, h.generation, h.ticks⟩
  | begin k now =>
    obtain ⟨_, rfl | ⟨hodd, rfl⟩⟩ := begin_eq hstep
    · exact h
    · exact h.setTick k ⟨⟨hodd, h.generation⟩, le_rfl⟩
  | snapshot k =>
    obtain ⟨now, generation, seen, hphase, rfl⟩ := snapshot_eq hstep
    have hok := h.ticks k
    rw [hphase] at hok
    exact h.setTick k ⟨hok.1, hok.2, le_rfl⟩
  | providerFails k =>
    rw [providerFails_eq hstep]
    exact h.setTick k trivial
  | rest k =>
    obtain ⟨now, generation, seen, taken, states, hphase, hcases⟩ := rest_eq hstep
    have hok := h.ticks k
    rw [hphase] at hok
    rcases hcases with ⟨hempty, rfl⟩ | ⟨_, _, rfl⟩ | ⟨_, _, rfl⟩
    · have hset := h.setTick k (p := .clearing generation seen taken states)
        ⟨hok.1, hok.2.1, hok.2.2, hempty⟩
      exact ⟨hset.word_lt, hset.generation, hset.ticks⟩
    · have hset := h.setTick k (p := .idle) trivial
      exact ⟨hset.word_lt, hset.generation, hset.ticks⟩
    · exact h.setTick k trivial
  | clear k =>
    obtain ⟨generation, seen, taken, states, _, ⟨_, rfl⟩ | rfl⟩ := clear_eq hstep
    · have hset := h.setTick k (p := .idle) trivial
      have hword := h.word_lt
      have hgeneration := h.generation
      refine ⟨?_, ?_, hset.ticks⟩
      · show lower s.word < 2 ^ 64
        rw [lower_eq hword]
        omega
      · show lower s.word / 2 = s.events % 2 ^ 63
        rw [lower_eq hword]
        omega
    · exact h.setTick k trivial

theorem Counted.of_reachable (h : (monitor o).Reachable s) : Counted s :=
  h.invariant Counted.init fun _ _ _ hs hstep => hs.step hstep

/-- The exchange of a tick succeeds only if no event took effect since the tick began. -/
theorem Counted.events_eq {k generation seen taken : Nat} {states : List VolumeState}
    (h : Counted s) (hphase : s.ticks k = .clearing generation seen taken states)
    (hsame : s.word = generation) (hbrief : s.events < seen + 2 ^ 63) :
    seen = s.events ∧ taken = s.events ∧ states = [] := by
  have hok := h.ticks k
  rw [hphase] at hok
  obtain ⟨⟨_, hstamp⟩, hseen, htaken, hempty⟩ := hok
  have hgeneration := h.generation
  rw [hsame, hstamp] at hgeneration
  exact ⟨by omega, by omega, hempty⟩

/-! ## Blocked volumes keep the sampling on -/

/-- The blocked events the tick had seen, if it will switch the sampling off. -/
def TickPhase.stale : TickPhase → Option Nat
  | .answered _ _ seen _ [] => some seen
  | .clearing _ seen _ _ => some seen
  | _ => none

structure Reported (s : State) : Prop where
  /-- A volume whose call took effect keeps the sampling on. -/
  sampling : ∀ v ∈ s.blocked, ¬ s.Owes v → s.word % 2 = 1
  /-- While a tick that saw nothing blocked can still clear, the calls of all that is blocked are to
  come. -/
  stale : ∀ k, (s.ticks k).stale = some s.events → ∀ v ∈ s.blocked, s.Owes v

theorem Reported.init : Reported State.init where
  sampling v hv := by cases hv
  stale _ h := by cases h

/-- What a call still owes after one of them went on. -/
theorem owes_setNote {i : Nat} {p : NotePhase} {v : VolumeState}
    (hkeep : ∀ u, (s.notes i = .entered u ∨ ∃ e, s.notes i = .swapping (some u) e) →
      p = .entered u ∨ ∃ e, p = .swapping (some u) e)
    (h : s.Owes v) : (s.setNote i p).Owes v := by
  obtain ⟨j, hj⟩ := h
  refine ⟨j, ?_⟩
  show Function.update s.notes i p j = _ ∨ ∃ e, Function.update s.notes i p j = _
  rw [Function.update_apply]
  split_ifs with hij
  · subst hij
    exact hkeep v hj
  · exact hj

theorem Reported.setNote {i : Nat} {p : NotePhase} (h : Reported s)
    (hkeep : ∀ u, (s.notes i = .entered u ∨ ∃ e, s.notes i = .swapping (some u) e) →
      p = .entered u ∨ ∃ e, p = .swapping (some u) e) : Reported (s.setNote i p) where
  sampling v hv howes := h.sampling v hv fun ho => howes (owes_setNote hkeep ho)
  stale k hk v hv := owes_setNote hkeep (h.stale k hk v hv)

theorem Reported.setTick {k : Nat} {p : TickPhase} (h : Reported s)
    (hp : p.stale = some s.events → ∀ v ∈ s.blocked, s.Owes v) : Reported (s.setTick k p) where
  sampling := h.sampling
  stale := ticks_setTick (P := fun q => q.stale = some s.events → ∀ v ∈ s.blocked, s.Owes v)
    h.stale hp

theorem Reported.step {a : Action} (hcount : Counted s) (h : Reported s)
    (hstep : step o s a = some t) (hbrief : Brief s a) : Reported t := by
  cases a with
  | enter i v =>
    obtain ⟨⟨hidle, _⟩, rfl⟩ := enter_eq hstep
    have hset : Reported (s.setNote i (.entered v)) := by
      apply h.setNote
      intro u hu
      rw [hidle] at hu
      rcases hu with hu | ⟨e, hu⟩ <;> cases hu
    have howes : (s.setNote i (.entered v)).Owes v :=
      ⟨i, Or.inl (Function.update_self i _ _)⟩
    refine ⟨fun u hu hno => ?_, fun k hk u hu => ?_⟩
    · rcases List.mem_insert_iff.1 hu with rfl | hu
      · exact absurd howes hno
      · exact hset.sampling u hu hno
    · rcases List.mem_insert_iff.1 hu with rfl | hu
      · exact howes
      · exact hset.stale k hk u hu
  | leave v =>
    obtain rfl := Option.some.inj hstep
    exact ⟨fun u hu => h.sampling u (List.mem_of_mem_filter hu),
      fun k hk u hu => h.stale k hk u (List.mem_of_mem_filter hu)⟩
  | load i =>
    rcases load_eq hstep with ⟨hidle, rfl⟩ | ⟨v, hentered, rfl⟩
    · apply h.setNote
      intro u hu
      rw [hidle] at hu
      rcases hu with hu | ⟨e, hu⟩ <;> cases hu
    · apply h.setNote
      intro u hu
      rw [hentered] at hu
      rcases hu with hu | ⟨e, hu⟩
      · cases hu
        exact Or.inr ⟨s.word, rfl⟩
      · cases hu
  | swap i spurious =>
    obtain ⟨v, expected, hphase, rfl | rfl⟩ := swap_eq hstep
    · refine ⟨fun u _ _ => ?_, fun k hk => ?_⟩
      · show raise s.word % 2 = 1
        rw [raise_eq]
        omega
      · -- no tick has seen the event that has just taken effect
        exfalso
        have hok := hcount.ticks k
        have hstale : (s.ticks k).stale = some (s.events + 1) := hk
        cases hp : s.ticks k with
        | idle => rw [hp] at hstale; cases hstale
        | loaded => rw [hp] at hstale; cases hstale
        | answered now generation seen taken states =>
          rw [hp] at hstale hok
          obtain ⟨_, hseen, htaken⟩ := hok
          cases states with
          | nil =>
            have := Option.some.inj hstale
            omega
          | cons => cases hstale
        | clearing generation seen taken states =>
          rw [hp] at hstale hok
          obtain ⟨_, hseen, htaken, _⟩ := hok
          have := Option.some.inj hstale
          omega
    · apply h.setNote
      intro u hu
      rw [hphase] at hu
      rcases hu with hu | ⟨e, hu⟩
      · cases hu
      · cases hu
        exact Or.inr ⟨s.word, rfl⟩
  | begin k now =>
    obtain ⟨_, rfl | ⟨_, rfl⟩⟩ := begin_eq hstep
    · exact h
    · apply h.setTick
      intro hstale
      cases hstale
  | snapshot k =>
    obtain ⟨now, generation, seen, hphase, rfl⟩ := snapshot_eq hstep
    apply h.setTick
    intro hstale v hv
    cases hb : s.blocked with
    | nil => rw [hb] at hv; cases hv
    | cons => rw [hb] at hstale; cases hstale
  | providerFails k =>
    rw [providerFails_eq hstep]
    apply h.setTick
    intro hstale
    cases hstale
  | rest k =>
    obtain ⟨now, generation, seen, taken, states, hphase, hcases⟩ := rest_eq hstep
    have hidle : Reported (s.setTick k .idle) := by
      apply h.setTick
      intro hstale
      cases hstale
    rcases hcases with ⟨rfl, rfl⟩ | ⟨_, _, rfl⟩ | ⟨_, _, rfl⟩
    · have hset : Reported (s.setTick k (.clearing generation seen taken [])) := by
        apply h.setTick
        intro hstale
        exact h.stale k (by rw [hphase]; exact hstale)
      exact ⟨hset.sampling, hset.stale⟩
    · exact ⟨hidle.sampling, hidle.stale⟩
    · exact hidle
  | clear k =>
    obtain ⟨generation, seen, taken, states, hphase, hcases⟩ := clear_eq hstep
    have hidle : Reported (s.setTick k .idle) := by
      apply h.setTick
      intro hstale
      cases hstale
    rcases hcases with ⟨hsame, rfl⟩ | rfl
    · have hshort : s.events < seen + 2 ^ 63 := by
        have hb : s.events < (s.ticks k).seen + 2 ^ 63 := hbrief
        rwa [hphase] at hb
      obtain ⟨hseen, _, _⟩ := hcount.events_eq hphase hsame hshort
      have hall : ∀ v ∈ s.blocked, s.Owes v :=
        h.stale k (by rw [hphase]; exact congrArg some hseen)
      exact ⟨fun v hv hno => absurd (hall v hv) hno, hidle.stale⟩
    · exact hidle

theorem Reported.of_reachable (h : ((monitor o).restrict Brief).Reachable s) : Reported s := by
  have hboth : Counted s ∧ Reported s := by
    refine Machine.Reachable.invariant (P := fun s => Counted s ∧ Reported s)
      ⟨Counted.init, Reported.init⟩ ?_ h
    intro s a t hs hstep
    obtain ⟨hbrief, hgo⟩ := Machine.restrict_step.1 hstep
    exact ⟨hs.1.step hgo, hs.2.step hs.1 hgo hbrief⟩
  exact hboth.2

end Sunpack.SpaceMonitor
