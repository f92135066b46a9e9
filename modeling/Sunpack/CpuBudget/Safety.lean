import Mathlib.Tactic
import Sunpack.CpuBudget.Model
import Sunpack.Lib.Holdings

/-!
# No credit is lost

The credits of the budget are the base credits, what the contexts record, and what is in flight; and
every step from a saturated budget to one with credit leaves a thread that calls the callback.
-/

namespace Sunpack.CpuBudget

open Lib

namespace Phase

variable {κ : Type}

/-- The credits that a thread carries between the budget and a context. -/
def inFlight : Phase κ → Nat
  | .granted _ grant => grant
  | .releasing count => count
  | .returning count _ => count
  | _ => 0

/-- Of these, what is on its way to a context. -/
def grantTo [DecidableEq κ] (c : κ) : Phase κ → Nat
  | .granted d grant => if d = c then grant else 0
  | _ => 0

def notifies : Phase κ → Nat
  | .notifying => 1
  | _ => 0

@[simp] theorem inFlight_releasePhase (count : Nat) :
    (State.releasePhase count : Phase κ).inFlight = count := by
  rw [State.releasePhase]
  split_ifs with h
  · exact h.symm
  · rfl

@[simp] theorem grantTo_releasePhase [DecidableEq κ] (c : κ) (count : Nat) :
    (State.releasePhase count : Phase κ).grantTo c = 0 := by
  rw [State.releasePhase]
  split_ifs <;> rfl

@[simp] theorem notifies_releasePhase (count : Nat) :
    (State.releasePhase count : Phase κ).notifies = 0 := by
  rw [State.releasePhase]
  split_ifs <;> rfl

end Phase

variable {ι κ : Type} [Fintype ι] [DecidableEq ι] {o : Options} {s t : State ι κ}

section Balance

variable [Fintype κ] [DecidableEq κ]

structure Balanced (o : Options) (s : State ι κ) : Prop where
  total : s.reserved = s.base + held id s.extra + held Phase.inFlight s.phase
  bound : s.reserved ≤ o.capacity
  accounts : ∀ c, s.extra c + s.returned c + held (Phase.grantTo c) s.phase = s.given c

omit [DecidableEq ι] in
theorem Balanced.init : Balanced o (State.init : State ι κ) where
  total := by
    have hextra : held id (State.init : State ι κ).extra = 0 := held_eq_zero fun _ => rfl
    have hflight : held Phase.inFlight (State.init : State ι κ).phase = 0 :=
      held_eq_zero fun _ => rfl
    rw [hextra, hflight]
    rfl
  bound := Nat.zero_le _
  accounts c := by
    have hgrant : held (Phase.grantTo c) (State.init : State ι κ).phase = 0 :=
      held_eq_zero fun _ => rfl
    rw [hgrant]
    rfl

omit [Fintype κ] [DecidableEq κ] in
theorem held_setPhase (w : Phase κ → Nat) (s : State ι κ) (i : ι) (p : Phase κ) :
    held w (s.setPhase i p).phase + w (s.phase i) = held w s.phase + w p :=
  held_update w s.phase i p

/-- A thread goes on with what it carries. -/
theorem Balanced.setPhase (h : Balanced o s) (i : ι) {p : Phase κ}
    (hflight : p.inFlight = (s.phase i).inFlight)
    (hgrant : ∀ c, p.grantTo c = (s.phase i).grantTo c) : Balanced o (s.setPhase i p) where
  total := by
    have hheld := held_setPhase Phase.inFlight s i p
    have htotal := h.total
    show s.reserved = s.base + held id s.extra + held Phase.inFlight (s.setPhase i p).phase
    omega
  bound := h.bound
  accounts c := by
    have hheld := held_setPhase (Phase.grantTo c) s i p
    have haccount := h.accounts c
    have hsame := hgrant c
    show s.extra c + s.returned c + held (Phase.grantTo c) (s.setPhase i p).phase = s.given c
    omega

/-! ## One lemma for each transfer -/

theorem Balanced.acquireUpTo (h : Balanced o s) {i : ι} (hidle : s.phase i = .idle)
    (who : Option κ) (wanted minimumGrant : Nat) :
    Balanced o (s.acquireUpTo i who wanted minimumGrant) := by
  rw [State.acquireUpTo]
  split_ifs
  · exact h
  · exact h
  · exact h.setPhase i (by rw [hidle]; rfl) fun c => by rw [hidle]; rfl

theorem Balanced.acquireRound (h : Balanced o s) {i : ι} {who : Option κ}
    {wanted minimumGrant reserved : Nat}
    (hphase : s.phase i = .acquiring who wanted minimumGrant reserved) (spurious : Bool) :
    Balanced o (s.acquireRound o i who wanted minimumGrant reserved spurious) := by
  have hkeep : ∀ p : Phase κ, p.inFlight = 0 → (∀ c, p.grantTo c = 0) →
      Balanced o (s.setPhase i p) := by
    intro p hflight hgrant
    exact h.setPhase i (by rw [hphase]; exact hflight) fun c => by rw [hphase]; exact hgrant c
  rw [State.acquireRound]
  split_ifs with hfull hsmall hswap
  · exact hkeep .idle rfl fun _ => rfl
  · exact hkeep .idle rfl fun _ => rfl
  · obtain ⟨grant, hg⟩ : ∃ n, n = min wanted (o.capacity - reserved) := ⟨_, rfl⟩
    have htotal := h.total
    have hsame := hswap.1
    rw [← hg]
    cases who with
    | none =>
      have hheld := held_setPhase Phase.inFlight s i .idle
      rw [hphase] at hheld
      simp only [Phase.inFlight] at hheld
      refine ⟨?_, ?_, (hkeep .idle rfl fun _ => rfl).accounts⟩
      · show reserved + grant =
          s.base + grant + held id s.extra + held Phase.inFlight (s.setPhase i .idle).phase
        omega
      · show reserved + grant ≤ o.capacity
        omega
    | some c =>
      have hheld := held_setPhase Phase.inFlight s i (.granted c grant)
      rw [hphase] at hheld
      simp only [Phase.inFlight] at hheld
      refine ⟨?_, ?_, fun d => ?_⟩
      · show reserved + grant =
          s.base + held id s.extra + held Phase.inFlight (s.setPhase i (.granted c grant)).phase
        omega
      · show reserved + grant ≤ o.capacity
        omega
      · have hto := held_setPhase (Phase.grantTo d) s i (.granted c grant)
        have haccount := h.accounts d
        rw [hphase] at hto
        simp only [Phase.grantTo] at hto
        show s.extra d + s.returned d +
          held (Phase.grantTo d) (s.setPhase i (.granted c grant)).phase =
            Function.update s.given c (s.given c + grant) d
        by_cases hd : d = c
        · subst hd
          rw [if_pos rfl] at hto
          rw [Function.update_self]
          omega
        · rw [if_neg (Ne.symm hd)] at hto
          rw [Function.update_of_ne hd]
          omega
  · exact hkeep _ rfl fun _ => rfl

theorem Balanced.addExtra (h : Balanced o s) {i : ι} {c : κ} {grant : Nat}
    (hphase : s.phase i = .granted c grant) : Balanced o (s.addExtra i c grant) := by
  have hheld := held_setPhase Phase.inFlight s i .idle
  have hextra := held_update id s.extra c (s.extra c + grant)
  have htotal := h.total
  rw [hphase] at hheld
  simp only [Phase.inFlight, id] at hheld hextra
  refine ⟨?_, h.bound, fun d => ?_⟩
  · show s.reserved = s.base + held id (Function.update s.extra c (s.extra c + grant)) +
      held Phase.inFlight (s.setPhase i .idle).phase
    omega
  · have hto := held_setPhase (Phase.grantTo d) s i .idle
    have haccount := h.accounts d
    rw [hphase] at hto
    simp only [Phase.grantTo] at hto
    show Function.update s.extra c (s.extra c + grant) d + s.returned d +
      held (Phase.grantTo d) (s.setPhase i .idle).phase = s.given d
    by_cases hd : d = c
    · subst hd
      rw [if_pos rfl] at hto
      rw [Function.update_self]
      omega
    · rw [if_neg (Ne.symm hd)] at hto
      rw [Function.update_of_ne hd]
      omega

theorem Balanced.giveBack (h : Balanced o s) {i : ι} (c : κ) {released : Nat}
    (hflight : (s.phase i).inFlight = 0) (hgrant : ∀ d, (s.phase i).grantTo d = 0)
    (hle : released ≤ s.extra c) : Balanced o (s.giveBack i c released) := by
  have hheld := held_setPhase Phase.inFlight s i (State.releasePhase released)
  have hextra := held_update id s.extra c (s.extra c - released)
  have htotal := h.total
  rw [Phase.inFlight_releasePhase] at hheld
  simp only [id] at hextra
  refine ⟨?_, h.bound, fun d => ?_⟩
  · show s.reserved = s.base + held id (Function.update s.extra c (s.extra c - released)) +
      held Phase.inFlight (s.setPhase i (State.releasePhase released)).phase
    omega
  · have hto := held_setPhase (Phase.grantTo d) s i (State.releasePhase released)
    have haccount := h.accounts d
    have hzero := hgrant d
    rw [Phase.grantTo_releasePhase] at hto
    show Function.update s.extra c (s.extra c - released) d +
      Function.update s.returned c (s.returned c + released) d +
        held (Phase.grantTo d) (s.setPhase i (State.releasePhase released)).phase = s.given d
    by_cases hd : d = c
    · subst hd
      rw [Function.update_self, Function.update_self]
      omega
    · rw [Function.update_of_ne hd, Function.update_of_ne hd]
      omega

/-- The phase after the exchange of `release`. -/
def afterReturn (κ : Type) (o : Options) (reserved next : Nat) : Phase κ :=
  if o.capacityAvailable ∧ reserved ≥ o.capacity ∧ next < o.capacity then .notifying else .idle

omit [Fintype κ] in
theorem afterReturn_carries (reserved next : Nat) :
    (afterReturn κ o reserved next).inFlight = 0 ∧
      ∀ c, (afterReturn κ o reserved next).grantTo c = 0 := by
  rw [afterReturn]
  split_ifs <;> exact ⟨rfl, fun _ => rfl⟩

omit [DecidableEq ι] in
/-- What is in flight was reserved, so the clamp of `release` takes nothing away. -/
theorem Balanced.count_le (h : Balanced o s) {i : ι} {count reserved : Nat}
    (hphase : s.phase i = .returning count reserved) : count ≤ s.reserved := by
  have hle := le_held Phase.inFlight s.phase i
  have htotal := h.total
  rw [hphase] at hle
  simp only [Phase.inFlight] at hle
  omega

theorem Balanced.returnRound (h : Balanced o s) {i : ι} {count reserved : Nat}
    (hphase : s.phase i = .returning count reserved) (spurious : Bool) :
    Balanced o (s.returnRound o i count reserved spurious) := by
  have hle := h.count_le hphase
  rw [State.returnRound]
  by_cases hswap : s.reserved = reserved ∧ (!spurious) = true
  · rw [if_pos hswap]
    obtain ⟨next, hn⟩ : ∃ n, n = if count ≥ reserved then 0 else reserved - count := ⟨_, rfl⟩
    have hnext : next + count = s.reserved := by
      have hsame := hswap.1
      split_ifs at hn <;> omega
    rw [← hn]
    obtain ⟨hflight, hgrant⟩ := afterReturn_carries (κ := κ) (o := o) reserved next
    have hheld := held_setPhase Phase.inFlight s i (afterReturn κ o reserved next)
    have htotal := h.total
    have hbound := h.bound
    rw [hphase, hflight] at hheld
    simp only [Phase.inFlight] at hheld
    refine ⟨?_, ?_, fun c => ?_⟩
    · show next = s.base + held id s.extra +
        held Phase.inFlight (s.setPhase i (afterReturn κ o reserved next)).phase
      omega
    · show next ≤ o.capacity
      omega
    · have hto := held_setPhase (Phase.grantTo c) s i (afterReturn κ o reserved next)
      have haccount := h.accounts c
      rw [hphase, hgrant] at hto
      simp only [Phase.grantTo] at hto
      show s.extra c + s.returned c +
        held (Phase.grantTo c) (s.setPhase i (afterReturn κ o reserved next)).phase = s.given c
      omega
  · rw [if_neg hswap]
    exact h.setPhase i (by rw [hphase]; rfl) fun c => by rw [hphase]; rfl

theorem Balanced.releaseBase (h : Balanced o s) {i : ι} (hidle : s.phase i = .idle)
    (hbase : 0 < s.base) :
    Balanced o { s.setPhase i (State.releasePhase 1) with base := s.base - 1 } := by
  have hheld := held_setPhase Phase.inFlight s i (State.releasePhase 1)
  have htotal := h.total
  rw [hidle, Phase.inFlight_releasePhase] at hheld
  simp only [Phase.inFlight] at hheld
  refine ⟨?_, h.bound, fun c => ?_⟩
  · show s.reserved = s.base - 1 + held id s.extra +
      held Phase.inFlight (s.setPhase i (State.releasePhase 1)).phase
    omega
  · have hto := held_setPhase (Phase.grantTo c) s i (State.releasePhase 1)
    have haccount := h.accounts c
    rw [hidle, Phase.grantTo_releasePhase] at hto
    simp only [Phase.grantTo] at hto
    show s.extra c + s.returned c +
      held (Phase.grantTo c) (s.setPhase i (State.releasePhase 1)).phase = s.given c
    omega

/-! ## What a step does -/

theorem of_guard {σ : Type} {p : Prop} [Decidable p] {x y : σ}
    (h : (if p then some x else none) = some y) : p ∧ y = x := by
  split_ifs at h with hp
  exact ⟨hp, (Option.some.inj h).symm⟩

omit [Fintype ι] [Fintype κ] in
/-- The next atomic operation of a thread, by its phase. -/
theorem go_cases {i : ι} {spurious : Bool} (h : step o s (.go i spurious) = some t) :
    (∃ who wanted minimumGrant reserved,
        s.phase i = .acquiring who wanted minimumGrant reserved ∧
          t = s.acquireRound o i who wanted minimumGrant reserved spurious) ∨
      (∃ c grant, s.phase i = .granted c grant ∧ t = s.addExtra i c grant) ∨
      (∃ c count current, s.phase i = .reducing c count current ∧
        t = s.reduceRound i c count current spurious) ∨
      (∃ c, s.phase i = .destroying c ∧ t = s.giveBack i c (s.extra c)) ∨
      (∃ count, s.phase i = .releasing count ∧ t = s.setPhase i (.returning count s.reserved)) ∨
      (∃ count reserved, s.phase i = .returning count reserved ∧
        t = s.returnRound o i count reserved spurious) ∨
      s.phase i = .notifying ∧ t = { s.setPhase i .idle with callbacks := s.callbacks + 1 } := by
  rw [step] at h
  cases hp : s.phase i with
  | idle => rw [hp] at h; cases h
  | acquiring who wanted minimumGrant reserved =>
    rw [hp] at h
    exact Or.inl ⟨_, _, _, _, rfl, (Option.some.inj h).symm⟩
  | granted c grant =>
    rw [hp] at h
    exact Or.inr (Or.inl ⟨_, _, rfl, (Option.some.inj h).symm⟩)
  | reducing c count current =>
    rw [hp] at h
    exact Or.inr (Or.inr (Or.inl ⟨_, _, _, rfl, (Option.some.inj h).symm⟩))
  | destroying c =>
    rw [hp] at h
    exact Or.inr (Or.inr (Or.inr (Or.inl ⟨_, rfl, (Option.some.inj h).symm⟩)))
  | releasing count =>
    rw [hp] at h
    exact Or.inr (Or.inr (Or.inr (Or.inr (Or.inl ⟨_, rfl, (Option.some.inj h).symm⟩))))
  | returning count reserved =>
    rw [hp] at h
    exact Or.inr (Or.inr (Or.inr (Or.inr (Or.inr
      (Or.inl ⟨_, _, rfl, (Option.some.inj h).symm⟩)))))
  | notifying =>
    rw [hp] at h
    exact Or.inr (Or.inr (Or.inr (Or.inr (Or.inr
      (Or.inr ⟨rfl, (Option.some.inj h).symm⟩)))))

theorem Balanced.step {a : Action ι κ} (h : Balanced o s) (hstep : step o s a = some t) :
    Balanced o t := by
  cases a with
  | tryAcquireBase i =>
    obtain ⟨hidle, rfl⟩ := of_guard hstep
    exact h.acquireUpTo hidle none 1 1
  | releaseBase i =>
    obtain ⟨⟨hidle, hbase⟩, rfl⟩ := of_guard hstep
    exact h.releaseBase hidle hbase
  | acquireExtra i c wanted minimumGrant =>
    obtain ⟨hidle, rfl⟩ := of_guard hstep
    exact h.acquireUpTo hidle (some c) wanted minimumGrant
  | acquireAllAvailable i c =>
    obtain ⟨hidle, rfl⟩ := of_guard hstep
    exact h.acquireUpTo hidle (some c) (2 ^ 64 - 1) 1
  | releaseExtra i c count =>
    obtain ⟨hidle, rfl⟩ := of_guard hstep
    split_ifs
    · exact h
    · exact h.setPhase i (by rw [hidle]; rfl) fun d => by rw [hidle]; rfl
  | destroy i c =>
    obtain ⟨hidle, rfl⟩ := of_guard hstep
    split_ifs
    · exact h
    · exact h.setPhase i (by rw [hidle]; rfl) fun d => by rw [hidle]; rfl
  | go i spurious =>
    rcases go_cases hstep with ⟨who, wanted, minimumGrant, reserved, hphase, rfl⟩ |
      ⟨c, grant, hphase, rfl⟩ | ⟨c, count, current, hphase, rfl⟩ | ⟨c, hphase, rfl⟩ |
      ⟨count, hphase, rfl⟩ | ⟨count, reserved, hphase, rfl⟩ | ⟨hphase, rfl⟩
    · exact h.acquireRound hphase spurious
    · exact h.addExtra hphase
    · rw [State.reduceRound]
      split_ifs with hswap
      · exact h.giveBack c (by rw [hphase]; rfl) (fun d => by rw [hphase]; rfl)
          (by rw [hswap.1]; exact min_le_right _ _)
      · exact h.setPhase i (by rw [hphase]; rfl) fun d => by rw [hphase]; rfl
    · exact h.giveBack c (by rw [hphase]; rfl) (fun d => by rw [hphase]; rfl) le_rfl
    · exact h.setPhase i (by rw [hphase]; rfl) fun d => by rw [hphase]; rfl
    · exact h.returnRound hphase spurious
    · have hset : Balanced o (s.setPhase i .idle) :=
        h.setPhase i (by rw [hphase]; rfl) fun d => by rw [hphase]; rfl
      exact ⟨hset.total, hset.bound, hset.accounts⟩

theorem Balanced.of_reachable (h : (budget ι κ o).Reachable s) : Balanced o s :=
  h.invariant Balanced.init fun _ _ _ hs hstep => hs.step hstep

end Balance

/-! ## The callback -/

section Callback

/-- The calls of the callback, made or about to be made. -/
def State.edges (s : State ι κ) : Nat := s.callbacks + held Phase.notifies s.phase

/-- Neither the callback nor a release: the budget gets no freer. -/
def Quiet (s t : State ι κ) : Prop := s.reserved ≤ t.reserved ∧ t.edges = s.edges

theorem quiet_of_phase {i : ι} {p : Phase κ} (hold : (s.phase i).notifies = 0)
    (hnew : p.notifies = 0) (hphase : t.phase = Function.update s.phase i p)
    (hcallbacks : t.callbacks = s.callbacks) (hreserved : s.reserved ≤ t.reserved) :
    Quiet s t := by
  have hheld := held_update Phase.notifies s.phase i p
  refine ⟨hreserved, ?_⟩
  rw [State.edges, State.edges, hcallbacks, hphase]
  omega

theorem quiet_setPhase {i : ι} {p : Phase κ} (hold : (s.phase i).notifies = 0)
    (hnew : p.notifies = 0) : Quiet s (s.setPhase i p) :=
  quiet_of_phase hold hnew rfl rfl le_rfl

theorem quiet_acquireUpTo {i : ι} (hidle : s.phase i = .idle) (who : Option κ)
    (wanted minimumGrant : Nat) : Quiet s (s.acquireUpTo i who wanted minimumGrant) := by
  rw [State.acquireUpTo]
  split_ifs
  · exact ⟨le_rfl, rfl⟩
  · exact ⟨le_rfl, rfl⟩
  · exact quiet_setPhase (by rw [hidle]; rfl) rfl

variable [DecidableEq κ]

theorem quiet_acquireRound {i : ι} {who : Option κ} {wanted minimumGrant reserved : Nat}
    (hphase : s.phase i = .acquiring who wanted minimumGrant reserved) (spurious : Bool) :
    Quiet s (s.acquireRound o i who wanted minimumGrant reserved spurious) := by
  have hzero : (s.phase i).notifies = 0 := by rw [hphase]; rfl
  rw [State.acquireRound]
  split_ifs with hfull hsmall hswap
  · exact quiet_setPhase hzero rfl
  · exact quiet_setPhase hzero rfl
  · have hgrown : s.reserved ≤ reserved + min wanted (o.capacity - reserved) := by
      rw [hswap.1]
      exact Nat.le_add_right _ _
    cases who with
    | none => exact quiet_of_phase hzero (p := .idle) rfl rfl rfl hgrown
    | some c => exact quiet_of_phase hzero (p := .granted c _) rfl rfl rfl hgrown
  · exact quiet_setPhase hzero rfl

/-- A step is quiet, a release, or a call of the callback. -/
theorem edge_cases {a : Action ι κ} (h : step o s a = some t) :
    Quiet s t ∨
      (∃ i spurious count, a = .go i spurious ∧ s.phase i = .returning count s.reserved ∧
        t = { s.setPhase i (afterReturn κ o s.reserved t.reserved) with reserved := t.reserved }) ∨
      ∃ i spurious, a = .go i spurious ∧ s.phase i = .notifying ∧
        t = { s.setPhase i .idle with callbacks := s.callbacks + 1 } := by
  cases a with
  | tryAcquireBase i =>
    obtain ⟨hidle, rfl⟩ := of_guard h
    exact Or.inl (quiet_acquireUpTo hidle none 1 1)
  | releaseBase i =>
    obtain ⟨⟨hidle, _⟩, rfl⟩ := of_guard h
    exact Or.inl (quiet_of_phase (by rw [hidle]; rfl) (Phase.notifies_releasePhase 1) rfl rfl
      le_rfl)
  | acquireExtra i c wanted minimumGrant =>
    obtain ⟨hidle, rfl⟩ := of_guard h
    exact Or.inl (quiet_acquireUpTo hidle (some c) wanted minimumGrant)
  | acquireAllAvailable i c =>
    obtain ⟨hidle, rfl⟩ := of_guard h
    exact Or.inl (quiet_acquireUpTo hidle (some c) (2 ^ 64 - 1) 1)
  | releaseExtra i c count =>
    obtain ⟨hidle, rfl⟩ := of_guard h
    split_ifs
    · exact Or.inl ⟨le_rfl, rfl⟩
    · exact Or.inl (quiet_setPhase (by rw [hidle]; rfl) rfl)
  | destroy i c =>
    obtain ⟨hidle, rfl⟩ := of_guard h
    split_ifs
    · exact Or.inl ⟨le_rfl, rfl⟩
    · exact Or.inl (quiet_setPhase (by rw [hidle]; rfl) rfl)
  | go i spurious =>
    rcases go_cases h with ⟨who, wanted, minimumGrant, reserved, hphase, rfl⟩ |
      ⟨c, grant, hphase, rfl⟩ | ⟨c, count, current, hphase, rfl⟩ | ⟨c, hphase, rfl⟩ |
      ⟨count, hphase, rfl⟩ | ⟨count, reserved, hphase, rfl⟩ | ⟨hphase, rfl⟩
    · exact Or.inl (quiet_acquireRound hphase spurious)
    · exact Or.inl (quiet_of_phase (by rw [hphase]; rfl) (p := .idle) rfl rfl rfl le_rfl)
    · rw [State.reduceRound]
      split_ifs with hswap
      · exact Or.inl (quiet_of_phase (by rw [hphase]; rfl) (Phase.notifies_releasePhase _) rfl rfl
          le_rfl)
      · exact Or.inl (quiet_setPhase (by rw [hphase]; rfl) rfl)
    · exact Or.inl (quiet_of_phase (by rw [hphase]; rfl) (Phase.notifies_releasePhase _) rfl rfl
        le_rfl)
    · exact Or.inl (quiet_setPhase (by rw [hphase]; rfl) rfl)
    · rw [State.returnRound]
      by_cases hswap : s.reserved = reserved ∧ (!spurious) = true
      · rw [if_pos hswap]
        obtain ⟨rfl, _⟩ := hswap
        exact Or.inr (Or.inl ⟨i, spurious, count, rfl, hphase, rfl⟩)
      · rw [if_neg hswap]
        exact Or.inl (quiet_setPhase (by rw [hphase]; rfl) rfl)
    · exact Or.inr (Or.inr ⟨i, spurious, rfl, hphase, rfl⟩)

/-- The budget goes from saturated to available. -/
def Frees (o : Options) (s t : State ι κ) : Prop :=
  o.capacity ≤ s.reserved ∧ t.reserved < o.capacity

instance (s t : State ι κ) : Decidable (Frees o s t) := inferInstanceAs (Decidable (_ ∧ _))

/-- Every step that frees the budget makes one call of the callback due, and no other step does. -/
theorem edges_of_step {a : Action ι κ} (hcallback : o.capacityAvailable = true)
    (h : step o s a = some t) : t.edges = s.edges + if Frees o s t then 1 else 0 := by
  rcases edge_cases h with ⟨hle, hedges⟩ | ⟨i, spurious, count, _, hphase, ht⟩ |
    ⟨i, spurious, _, hphase, rfl⟩
  · rw [if_neg (by rintro ⟨hfull, hfree⟩; omega), hedges]
    rfl
  · have hheld := held_setPhase Phase.notifies s i (afterReturn κ o s.reserved t.reserved)
    have hedges : t.edges = s.callbacks +
        held Phase.notifies (s.setPhase i (afterReturn κ o s.reserved t.reserved)).phase := by
      rw [ht]
      rfl
    have hnotifies : (afterReturn κ o s.reserved t.reserved).notifies =
        if Frees o s t then 1 else 0 := by
      rw [afterReturn]
      by_cases hfrees : Frees o s t
      · rw [if_pos ⟨hcallback, hfrees⟩, if_pos hfrees]
        rfl
      · rw [if_neg (fun hall => hfrees hall.2), if_neg hfrees]
        rfl
    rw [hphase, hnotifies] at hheld
    rw [hedges, State.edges]
    simp only [Phase.notifies] at hheld
    omega
  · have hheld := held_setPhase Phase.notifies s i .idle
    rw [hphase] at hheld
    simp only [Phase.notifies] at hheld
    rw [if_neg (by rintro ⟨hfull, hfree⟩; exact absurd hfree (not_lt.2 hfull))]
    show s.callbacks + 1 + held Phase.notifies (s.setPhase i .idle).phase =
      s.callbacks + held Phase.notifies s.phase + 0
    omega

/-- The releases that free the budget are those that go on to the callback. -/
theorem frees_iff {a : Action ι κ} (hcallback : o.capacityAvailable = true)
    (h : step o s a = some t) :
    Frees o s t ↔ ∃ i spurious count, a = .go i spurious ∧
      s.phase i = .returning count s.reserved ∧ t.phase i = .notifying := by
  constructor
  · intro hfrees
    rcases edge_cases h with ⟨hle, _⟩ | ⟨i, spurious, count, ha, hphase, ht⟩ | ⟨i, _, _, _, rfl⟩
    · exact absurd (lt_of_le_of_lt (le_trans hfrees.1 hle) hfrees.2) (lt_irrefl _)
    · refine ⟨i, spurious, count, ha, hphase, ?_⟩
      rw [ht]
      show Function.update s.phase i (afterReturn κ o s.reserved t.reserved) i = .notifying
      rw [Function.update_self, afterReturn, if_pos ⟨hcallback, hfrees⟩]
    · exact absurd hfrees.2 (not_lt.2 hfrees.1)
  · rintro ⟨i, spurious, count, rfl, hphase, hnotifying⟩
    have ht : t = s.returnRound o i count s.reserved spurious := by
      rw [step, hphase] at h
      exact (Option.some.inj h).symm
    rw [ht] at hnotifying ⊢
    revert hnotifying
    rw [State.returnRound]
    by_cases hswap : s.reserved = s.reserved ∧ (!spurious) = true
    · rw [if_pos hswap]
      show Function.update s.phase i (afterReturn κ o s.reserved _) i = .notifying → _
      rw [Function.update_self, afterReturn]
      intro hedge
      by_cases hall : o.capacityAvailable ∧ s.reserved ≥ o.capacity ∧
          (if count ≥ s.reserved then 0 else s.reserved - count) < o.capacity
      · exact hall.2
      · rw [if_neg hall] at hedge
        cases hedge
    · rw [if_neg hswap]
      show Function.update s.phase i _ i = .notifying → _
      rw [Function.update_self]
      intro hreturning
      cases hreturning

/-- How often a run frees the budget. -/
def freeings (o : Options) (s : State ι κ) : List (Action ι κ) → Nat
  | [] => 0
  | a :: as =>
    match step o s a with
    | none => 0
    | some t => (if Frees o s t then 1 else 0) + freeings o t as

theorem edges_of_exec (hcallback : o.capacityAvailable = true) {as : List (Action ι κ)}
    (h : (budget ι κ o).exec s as = some t) : t.edges = s.edges + freeings o s as := by
  induction as generalizing s with
  | nil => rw [← Option.some.inj h]; rfl
  | cons a as ih =>
    obtain ⟨r, hstep, hrest⟩ := Option.bind_eq_some_iff.1 h
    have hgo : step o s a = some r := hstep
    rw [freeings, hgo, ih hrest, edges_of_step hcallback hgo, Nat.add_assoc]

/-- Once the budget was saturated and has credit, a call of the callback that was not due before has
been made or is due. -/
theorem edges_lt_of_steps (hcallback : o.capacityAvailable = true) (h : (budget ι κ o).Steps s t)
    (hfull : o.capacity ≤ s.reserved) (hfree : t.reserved < o.capacity) : s.edges < t.edges := by
  have hinv : s.edges ≤ t.edges ∧ (t.reserved < o.capacity → s.edges < t.edges) := by
    clear hfree
    induction h with
    | refl => exact ⟨le_rfl, fun hfree => absurd hfree (not_lt.2 hfull)⟩
    | @tail r t a _ hstep ih =>
      have hedges := edges_of_step hcallback hstep
      refine ⟨by omega, fun hfree => ?_⟩
      rcases Nat.lt_or_ge r.reserved o.capacity with hr | hr
      · have hlt := ih.2 hr
        omega
      · rw [if_pos ⟨hr, hfree⟩] at hedges
        omega
  exact hinv.2 hfree

end Callback

/-! ## The budget -/

/-- The credits add up in every reachable state and no context gives back more than it was given. The
callback is called once for each release that frees the budget, so whoever saw it saturated is
followed by a call once credit is there. -/
theorem credits_balance (ι κ : Type) [Fintype ι] [Fintype κ] [DecidableEq ι] [DecidableEq κ]
    (o : Options) :
    (∀ s : State ι κ, (budget ι κ o).Reachable s →
      s.reserved ≤ o.capacity ∧
        s.reserved = s.base + ∑ c, s.extra c + ∑ i, (s.phase i).inFlight ∧
          ∀ c, s.returned c ≤ s.given c) ∧
      (o.capacityAvailable = true →
        (∀ (s t : State ι κ) a, (budget ι κ o).step s a = some t →
          (Frees o s t ↔ ∃ i spurious count, a = .go i spurious ∧
            s.phase i = .returning count s.reserved ∧ t.phase i = .notifying)) ∧
        (∀ (s : State ι κ) as, (budget ι κ o).exec .init as = some s →
          s.callbacks + ∑ i, (s.phase i).notifies = freeings o .init as) ∧
        ∀ s t : State ι κ, (budget ι κ o).Steps s t → o.capacity ≤ s.reserved →
          t.reserved < o.capacity →
            s.callbacks + ∑ i, (s.phase i).notifies < t.callbacks + ∑ i, (t.phase i).notifies) := by
  constructor
  · intro s hreach
    obtain ⟨htotal, hbound, haccounts⟩ := Balanced.of_reachable hreach
    refine ⟨hbound, htotal, fun c => ?_⟩
    have haccount := haccounts c
    omega
  · intro hcallback
    refine ⟨fun s t a hstep => frees_iff hcallback hstep, fun s as hrun => ?_,
      fun s t hsteps hfull hfree => edges_lt_of_steps hcallback hsteps hfull hfree⟩
    have hedges := edges_of_exec hcallback hrun
    have hzero : (State.init : State ι κ).edges = 0 := by
      rw [State.edges, held_eq_zero (fun _ => by rfl)]
      rfl
    rw [hzero, Nat.zero_add] at hedges
    exact hedges

end Sunpack.CpuBudget
