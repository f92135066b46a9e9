import Sunpack.SpaceMonitor.Safety

/-!
# When the sampling stops, and who is polled

Over whole runs: what switches the sampling off, that a reported volume keeps it on, and that the
next tick that is due polls it.
-/

namespace Sunpack.SpaceMonitor

open Lib

variable {o : Options} {s t : State}

theorem sampling_iff (s : State) : s.sampling = true ↔ s.word % 2 = 1 := by
  rw [State.sampling, decide_eq_true_iff, Ne, and_one_eq_zero]
  omega

/-- The word changes with a blocked event and with the exchange of a tick. -/
theorem word_of_step {a : Action} (hstep : step o s a = some t) :
    t.word = s.word ∨ t.word = raise s.word ∨
      ∃ k generation seen taken states, a = .clear k ∧
        s.ticks k = .clearing generation seen taken states ∧ s.word = generation := by
  cases a with
  | enter i v => exact Or.inl (by rw [(enter_eq hstep).2]; rfl)
  | leave v => exact Or.inl (by rw [← Option.some.inj hstep])
  | load i => rcases load_eq hstep with ⟨_, rfl⟩ | ⟨v, _, rfl⟩ <;> exact Or.inl rfl
  | swap i spurious =>
    obtain ⟨v, expected, _, rfl | rfl⟩ := swap_eq hstep
    · exact Or.inr (Or.inl rfl)
    · exact Or.inl rfl
  | begin k now => obtain ⟨_, rfl | ⟨_, rfl⟩⟩ := begin_eq hstep <;> exact Or.inl rfl
  | snapshot k =>
    obtain ⟨now, generation, seen, _, rfl⟩ := snapshot_eq hstep
    exact Or.inl rfl
  | providerFails k => exact Or.inl (by rw [providerFails_eq hstep]; rfl)
  | rest k =>
    obtain ⟨now, generation, seen, taken, states, _, hcases⟩ := rest_eq hstep
    rcases hcases with ⟨_, rfl⟩ | ⟨_, _, rfl⟩ | ⟨_, _, rfl⟩ <;> exact Or.inl rfl
  | clear k =>
    obtain ⟨generation, seen, taken, states, hphase, ⟨hword, _⟩ | rfl⟩ := clear_eq hstep
    · exact Or.inr (Or.inr ⟨k, generation, seen, taken, states, rfl, hphase, hword⟩)
    · exact Or.inl rfl

/-- Only the exchange of a tick that saw nothing blocked switches the sampling off. -/
theorem switched_off {a : Action} (hcount : Counted s) (hstep : step o s a = some t)
    (hbrief : Brief s a) (hon : s.sampling = true) (hoff : t.sampling = false) :
    ∃ k generation seen taken, a = .clear k ∧
      s.ticks k = .clearing generation seen taken [] ∧ taken = s.events := by
  have hodd : t.word % 2 ≠ 1 := by
    intro hodd
    rw [(sampling_iff t).2 hodd] at hoff
    cases hoff
  rcases word_of_step hstep with hsame | hraise | ⟨k, generation, seen, taken, states, rfl, hphase,
      hword⟩
  · rw [hsame] at hodd
    exact absurd ((sampling_iff s).1 hon) hodd
  · rw [hraise, raise_eq] at hodd
    omega
  · have hshort : s.events < seen + 2 ^ 63 := by
      have hb : s.events < (s.ticks k).seen + 2 ^ 63 := hbrief
      rwa [hphase] at hb
    obtain ⟨_, htaken, rfl⟩ := hcount.events_eq hphase hword hshort
    exact ⟨k, generation, seen, taken, rfl, hphase, htaken⟩

/-! ## Ticks over runs -/

/-- The tick an action belongs to. -/
def Action.tick : Action → Option Nat
  | .begin k _ => some k
  | .snapshot k => some k
  | .providerFails k => some k
  | .rest k => some k
  | .clear k => some k
  | _ => none

theorem setTick_of_ne {j k : Nat} {p : TickPhase} (h : j ≠ k) :
    (s.setTick j p).ticks k = s.ticks k :=
  Function.update_of_ne (Ne.symm h) _ _

/-- The other ticks leave a tick where it is. -/
theorem ticks_of_step {a : Action} {k : Nat} (hstep : step o s a = some t)
    (hother : a.tick ≠ some k) : t.ticks k = s.ticks k := by
  have hne : ∀ j, a.tick = some j → j ≠ k := fun j hj hjk => hother (by rw [hj, hjk])
  cases a with
  | enter i v => rw [(enter_eq hstep).2]; rfl
  | leave v => rw [← Option.some.inj hstep]
  | load i => rcases load_eq hstep with ⟨_, rfl⟩ | ⟨v, _, rfl⟩ <;> rfl
  | swap i spurious => obtain ⟨v, expected, _, rfl | rfl⟩ := swap_eq hstep <;> rfl
  | begin j now =>
    obtain ⟨_, rfl | ⟨_, rfl⟩⟩ := begin_eq hstep
    · rfl
    · exact setTick_of_ne (hne j rfl)
  | snapshot j =>
    obtain ⟨now, generation, seen, _, rfl⟩ := snapshot_eq hstep
    exact setTick_of_ne (hne j rfl)
  | providerFails j =>
    rw [providerFails_eq hstep]
    exact setTick_of_ne (hne j rfl)
  | rest j =>
    obtain ⟨now, generation, seen, taken, states, _, hcases⟩ := rest_eq hstep
    rcases hcases with ⟨_, rfl⟩ | ⟨_, _, rfl⟩ | ⟨_, _, rfl⟩ <;> exact setTick_of_ne (hne j rfl)
  | clear j =>
    obtain ⟨generation, seen, taken, states, _, ⟨_, rfl⟩ | rfl⟩ := clear_eq hstep <;>
      exact setTick_of_ne (hne j rfl)

/-- The set changes when a volume enters and when one leaves. -/
theorem blocked_of_step {a : Action} (hstep : step o s a = some t) :
    t.blocked = s.blocked ∨
      (∃ i v, a = .enter i v ∧ v.spaceGate = true ∧ t.blocked = s.blocked.insert v) ∨
      ∃ v, a = .leave v ∧ t.blocked = s.blocked.filter (· ≠ v) := by
  cases a with
  | enter i v =>
    obtain ⟨⟨_, hgate⟩, rfl⟩ := enter_eq hstep
    exact Or.inr (Or.inl ⟨i, v, rfl, hgate, rfl⟩)
  | leave v => exact Or.inr (Or.inr ⟨v, rfl, by rw [← Option.some.inj hstep]⟩)
  | load i => rcases load_eq hstep with ⟨_, rfl⟩ | ⟨v, _, rfl⟩ <;> exact Or.inl rfl
  | swap i spurious => obtain ⟨v, expected, _, rfl | rfl⟩ := swap_eq hstep <;> exact Or.inl rfl
  | begin k now => obtain ⟨_, rfl | ⟨_, rfl⟩⟩ := begin_eq hstep <;> exact Or.inl rfl
  | snapshot k =>
    obtain ⟨now, generation, seen, _, rfl⟩ := snapshot_eq hstep
    exact Or.inl rfl
  | providerFails k => exact Or.inl (by rw [providerFails_eq hstep]; rfl)
  | rest k =>
    obtain ⟨now, generation, seen, taken, states, _, hcases⟩ := rest_eq hstep
    rcases hcases with ⟨_, rfl⟩ | ⟨_, _, rfl⟩ | ⟨_, _, rfl⟩ <;> exact Or.inl rfl
  | clear k =>
    obtain ⟨generation, seen, taken, states, _, ⟨_, rfl⟩ | rfl⟩ := clear_eq hstep <;>
      exact Or.inl rfl

theorem mem_blocked_of_step {a : Action} {v : VolumeState} (hstep : step o s a = some t)
    (hstays : a ≠ .leave v) (hv : v ∈ s.blocked) : v ∈ t.blocked := by
  rcases blocked_of_step hstep with hsame | ⟨i, u, _, _, henter⟩ | ⟨u, rfl, hleave⟩
  · rwa [hsame]
  · rw [henter]
    exact List.mem_insert_of_mem hv
  · have hne : v ≠ u := fun huv => hstays (by rw [huv])
    rw [hleave]
    exact List.mem_filter.2 ⟨hv, decide_eq_true hne⟩

theorem gated_of_reachable (h : (monitor o).Reachable s) : ∀ v ∈ s.blocked, v.spaceGate = true := by
  refine Machine.Reachable.invariant (P := fun s => ∀ v ∈ s.blocked, v.spaceGate = true)
    (fun v hv => absurd hv List.not_mem_nil) ?_ h
  intro s a t hs hstep v hv
  rcases blocked_of_step hstep with hsame | ⟨i, u, _, hgate, henter⟩ | ⟨u, _, hleave⟩
  · exact hs v (by rwa [hsame] at hv)
  · rw [henter] at hv
    rcases List.mem_insert_iff.1 hv with rfl | hv
    · exact hgate
    · exact hs v hv
  · rw [hleave] at hv
    exact hs v (List.mem_of_mem_filter hv)

theorem ticks_of_exec {as : List Action} {k : Nat} (h : (monitor o).exec s as = some t)
    (hother : ∀ a ∈ as, a.tick ≠ some k) : t.ticks k = s.ticks k := by
  induction as generalizing s with
  | nil => rw [← Option.some.inj h]
  | cons a as ih =>
    obtain ⟨r, hstep, hrest⟩ := Option.bind_eq_some_iff.1 h
    rw [ih hrest fun b hb => hother b (List.mem_cons_of_mem a hb),
      ticks_of_step hstep (hother a List.mem_cons_self)]

theorem mem_blocked_of_exec {as : List Action} {v : VolumeState}
    (h : (monitor o).exec s as = some t) (hstays : ∀ a ∈ as, a ≠ .leave v) (hv : v ∈ s.blocked) :
    v ∈ t.blocked := by
  induction as generalizing s with
  | nil => rwa [← Option.some.inj h]
  | cons a as ih =>
    obtain ⟨r, hstep, hrest⟩ := Option.bind_eq_some_iff.1 h
    exact ih hrest (fun b hb => hstays b (List.mem_cons_of_mem a hb))
      (mem_blocked_of_step hstep (hstays a List.mem_cons_self) hv)

/-- A tick that begins while the sampling is on, takes its snapshot while the volume is blocked and
is due polls the volume. -/
theorem tick_polls {k : Nat} {now : Int} {v : VolumeState} {as bs : List Action} {r u : State}
    (hreach : (monitor o).Reachable s) (hprovider : o.provider = true) (hon : s.word % 2 = 1)
    (hv : v ∈ s.blocked) (has : ∀ a ∈ as, a.tick ≠ some k ∧ a ≠ .leave v)
    (hbs : ∀ a ∈ bs, a.tick ≠ some k)
    (hrun : (monitor o).exec s (.begin k now :: (as ++ .snapshot k :: bs)) = some r)
    (hdue : r.due now = true) (hrest : (monitor o).step r (.rest k) = some u) :
    ∃ states, v ∈ states ∧ u.polled = r.polled ++ states := by
  obtain ⟨s₁, hbegin, hrun⟩ := Option.bind_eq_some_iff.1 hrun
  obtain ⟨s₂, hwait, hrun⟩ := Machine.exec_append hrun
  obtain ⟨s₃, hsnapshot, hrun⟩ := Option.bind_eq_some_iff.1 hrun
  have hgate := gated_of_reachable hreach v hv
  have hloaded : s₁ = s.setTick k (.loaded now s.word s.events) := by
    have hidle := (begin_eq hbegin).1
    have hset : s.begin o k now = some (s.setTick k (.loaded now s.word s.events)) := by
      rw [State.begin, hidle]
      show (if s.word &&& 1 = 0 then _ else if (!o.provider) = true then _ else _) = _
      rw [if_neg (by rw [and_one_eq_zero]; omega), if_neg (by rw [hprovider]; decide)]
    exact (Option.some.inj (hset.symm.trans hbegin)).symm
  have hphase₂ : s₂.ticks k = .loaded now s.word s.events := by
    rw [ticks_of_exec hwait fun a ha => (has a ha).1, hloaded]
    exact Function.update_self k _ _
  have hv₂ : v ∈ s₂.blocked := by
    apply mem_blocked_of_exec hwait fun a ha => (has a ha).2
    rw [hloaded]
    exact hv
  obtain ⟨now', generation, seen, hphase, rfl⟩ := snapshot_eq hsnapshot
  obtain ⟨rfl, rfl, rfl⟩ := TickPhase.loaded.inj (hphase₂.symm.trans hphase)
  have hphase₃ : r.ticks k = .answered now s.word s.events s₂.events s₂.blocked := by
    rw [ticks_of_exec hrun hbs]
    exact Function.update_self k _ _
  obtain ⟨now', generation, seen, taken, states, hanswered, hcases⟩ := rest_eq hrest
  obtain ⟨rfl, rfl, rfl, rfl, rfl⟩ := TickPhase.answered.inj (hphase₃.symm.trans hanswered)
  rcases hcases with ⟨hempty, _⟩ | ⟨_, _, rfl⟩ | ⟨_, hlate, _⟩
  · rw [hempty] at hv₂
    cases hv₂
  · exact ⟨_, List.mem_filter.2 ⟨hv₂, hgate⟩, rfl⟩
  · rw [hdue] at hlate
    cases hlate

/-! ## The monitor -/

/-- As long as the generation does not come round while a tick is under way, only a snapshot that is
empty and later than every blocked event switches the sampling off; a blocked volume whose call took
effect keeps it on, and the next tick that is due polls the volume. -/
theorem sampling_survives (o : Options) :
    (∀ s a t, ((monitor o).restrict Brief).Reachable s →
      ((monitor o).restrict Brief).step s a = some t → s.sampling = true → t.sampling = false →
        ∃ k generation seen taken, a = .clear k ∧
          s.ticks k = .clearing generation seen taken [] ∧ taken = s.events) ∧
      ∀ s, ((monitor o).restrict Brief).Reachable s → ∀ v ∈ s.blocked, ¬ s.Owes v →
        s.sampling = true ∧
          (o.provider = true → ∀ k now as bs r u, (∀ a ∈ as, a.tick ≠ some k ∧ a ≠ .leave v) →
            (∀ a ∈ bs, a.tick ≠ some k) →
            (monitor o).exec s (.begin k now :: (as ++ .snapshot k :: bs)) = some r →
            r.due now = true → (monitor o).step r (.rest k) = some u →
              ∃ states, v ∈ states ∧ u.polled = r.polled ++ states) := by
  constructor
  · intro s a t hreach hstep hon hoff
    obtain ⟨hbrief, hgo⟩ := Machine.restrict_step.1 hstep
    exact switched_off (Counted.of_reachable hreach.of_restrict) hgo hbrief hon hoff
  · intro s hreach v hv howes
    have hodd := (Reported.of_reachable hreach).sampling v hv howes
    refine ⟨(sampling_iff s).2 hodd, ?_⟩
    intro hprovider k now as bs r u has hbs hrun hdue hrest
    exact tick_polls hreach.of_restrict hprovider hodd hv has hbs hrun hdue hrest

/-! ## Where the sampling stops all the same -/

/-- One call of `note_blocked`, on behalf of no volume. -/
def call : List Action := [.load 0, .swap 0 false]

theorem exec_call (hidle : s.notes 0 = .idle) :
    (monitor o).exec s call = some { s with word := raise s.word, events := s.events + 1 } := by
  have hload : s.load 0 = some (s.setNote 0 (.swapping none s.word)) := by
    rw [State.load, hidle]
  have hphase : (s.setNote 0 (.swapping none s.word)).notes 0 = .swapping none s.word := by
    simp [State.setNote]
  have hback : Function.update (Function.update s.notes 0 (.swapping none s.word)) 0
      NotePhase.idle = s.notes := by
    funext i
    rw [Function.update_idem, Function.update_apply]
    split_ifs with hi
    · rw [hi, hidle]
    · rfl
  show (s.load 0).bind _ = _
  rw [hload]
  show ((s.setNote 0 (.swapping none s.word)).swap 0 false).bind _ = _
  have hswap : (s.setNote 0 (.swapping none s.word)).swap 0 false =
      some { s with word := raise s.word, events := s.events + 1 } := by
    rw [State.swap, hphase]
    refine (if_pos ⟨rfl, by decide⟩).trans ?_
    show some (State.mk _ _ _ (Function.update (Function.update s.notes 0 _) 0 _) _ _ _) = _
    rw [hback]
    rfl
  rw [hswap]
  rfl

/-- Any number of calls, one after another. -/
theorem steps_calls (n : Nat) (hidle : s.notes 0 = .idle) (hodd : s.word % 2 = 1)
    (hword : s.word < 2 ^ 64) :
    (monitor o).Steps s
      { s with word := (s.word + 2 * n) % 2 ^ 64, events := s.events + n } := by
  induction n with
  | zero =>
    rw [Nat.mul_zero, Nat.add_zero, Nat.add_zero, Nat.mod_eq_of_lt hword]
    exact .refl
  | succ n ih =>
    have hnext : raise ((s.word + 2 * n) % 2 ^ 64) = (s.word + 2 * (n + 1)) % 2 ^ 64 := by
      rw [raise_eq]
      omega
    have hcall := exec_call (o := o)
      (s := { s with word := (s.word + 2 * n) % 2 ^ 64, events := s.events + n }) hidle
    rw [hnext] at hcall
    exact ih.trans (Machine.steps_of_exec hcall)

/-- A volume with a gate. -/
def disk : VolumeState := ⟨"disk", true⟩

def options : Options := ⟨1000, true⟩

/-- A tick sees nothing blocked; before it clears, the volume enters and another tick samples it. -/
def overtaken : List Action :=
  call ++ [.begin 0 0, .snapshot 0, .rest 0, .enter 1 disk, .begin 1 0]

/-- A tick sees nothing blocked; before it clears, the volume enters and its call takes effect. -/
def behind : List Action :=
  call ++ [.begin 0 0, .snapshot 0, .rest 0, .enter 1 disk, .load 1, .swap 1 false]

/-- The tick of `behind` is about to clear the word of the first event. -/
theorem exec_behind : ∃ s, (monitor options).exec .init behind = some s ∧ s.word = 5 ∧
    s.events = 2 ∧ s.blocked = [disk] ∧ s.ticks 0 = .clearing 3 1 1 [] ∧
      ∀ i, s.notes i = .idle := by
  refine ⟨_, rfl, by decide, rfl, by decide, by decide, ?_⟩
  intro i
  match i with
  | 0 => rfl
  | 1 => rfl
  | i + 2 => rfl

/-- A blocked volume that was in the last snapshot has the sampling off before its call takes effect;
and when the generation comes round, a blocked volume whose call did take effect has it off. -/
theorem sampling_stops :
    (∃ s t, (monitor options).exec .init overtaken = some s ∧ disk ∈ s.blocked ∧
      (monitor options).exec s [.snapshot 1, .clear 0] = some t ∧
        t.ticks 1 = .answered 0 3 1 1 [disk] ∧ t.blocked = [disk] ∧ t.sampling = false) ∧
      ∃ s t, (monitor options).Reachable s ∧ (monitor options).step s (.clear 0) = some t ∧
        s.ticks 0 = .clearing 3 1 1 [] ∧ 1 < s.events ∧ s.blocked = [disk] ∧ ¬ s.Owes disk ∧
          s.sampling = true ∧ t.sampling = false := by
  constructor
  · exact ⟨_, _, rfl, by decide, rfl, by decide, by decide, by decide⟩
  · obtain ⟨s, hrun, hword, hevents, hblocked, htick, hnotes⟩ := exec_behind
    have hsteps := steps_calls (o := options) (2 ^ 63 - 1) (hnotes 0) (by rw [hword])
      (by rw [hword]; decide)
    have hround : (s.word + 2 * (2 ^ 63 - 1)) % 2 ^ 64 = 3 := by
      rw [hword]
      decide
    rw [hround] at hsteps
    obtain ⟨r, hr⟩ : ∃ r, r = { s with word := 3, events := s.events + (2 ^ 63 - 1) } := ⟨_, rfl⟩
    rw [← hr] at hsteps
    have hclear : r.clear 0 = some { r.setTick 0 .idle with word := lower 3 } := by
      rw [State.clear, hr, htick]
      rfl
    refine ⟨r, _, (Machine.Reachable.of_exec hrun).trans hsteps, hclear, by rw [hr, htick], ?_, ?_,
      ?_, ?_, ?_⟩
    · rw [hr]
      show 1 < s.events + (2 ^ 63 - 1)
      omega
    · rw [hr, hblocked]
    · rintro ⟨i, hi⟩
      have hidle : r.notes i = .idle := by rw [hr, hnotes]
      rw [hidle] at hi
      rcases hi with hi | ⟨e, hi⟩ <;> cases hi
    · have hodd : r.word = 3 := by rw [hr]
      exact (sampling_iff r).2 (by rw [hodd])
    · show decide (lower 3 &&& 1 ≠ 0) = false
      decide

end Sunpack.SpaceMonitor
