import Mathlib.Data.List.Basic

/-!
# Labelled machines and their runs

A `Machine` has one initial state and a partial step function: `step s a` is the state after action
`a`, or `none` where `a` is not enabled in `s`. All nondeterminism (scheduling, failures, what the
environment answers) is in the actions, so a run is a list of actions and can be evaluated.

`Steps` relates the ends of a run. The two rules used everywhere are `Steps.preserves` (what each
step keeps, a run keeps) and `Reachable.invariant` (what holds initially and is kept holds in every
reachable state).
-/

namespace Sunpack.Lib

universe u v

/-- A system with one initial state and a partial, deterministic step for each action. -/
structure Machine (σ : Type u) (α : Type v) where
  init : σ
  step : σ → α → Option σ

namespace Machine

variable {σ : Type u} {α : Type v} (m : Machine σ α)

/-- The state after the actions of a list, if every one of them was enabled. -/
def exec (s : σ) : List α → Option σ
  | [] => some s
  | a :: as => (m.step s a).bind fun s' => exec s' as

/-- `t` is reached from `s` by some run. -/
inductive Steps (s : σ) : σ → Prop
  | refl : Steps s s
  | tail {t t' : σ} (a : α) : Steps s t → m.step t a = some t' → Steps s t'

/-- A state reached from the initial one. -/
def Reachable (s : σ) : Prop := m.Steps m.init s

variable {m}

theorem Steps.trans {s t r : σ} (h₁ : m.Steps s t) (h₂ : m.Steps t r) : m.Steps s r := by
  induction h₂ with
  | refl => exact h₁
  | tail a _ hs ih => exact .tail a ih hs

theorem steps_of_exec {s t : σ} {as : List α} (h : m.exec s as = some t) : m.Steps s t := by
  induction as generalizing s with
  | nil =>
    simp only [exec, Option.some.injEq] at h
    exact h ▸ .refl
  | cons a as ih =>
    simp only [exec, Option.bind_eq_some_iff] at h
    obtain ⟨s', hs, h⟩ := h
    exact (Steps.refl.tail a hs).trans (ih h)

/-- A run through a list is a run through its parts. -/
theorem exec_append {s t : σ} {as bs : List α} (h : m.exec s (as ++ bs) = some t) :
    ∃ r, m.exec s as = some r ∧ m.exec r bs = some t := by
  induction as generalizing s with
  | nil => exact ⟨s, rfl, h⟩
  | cons a as ih =>
    rw [List.cons_append, exec, Option.bind_eq_some_iff] at h
    obtain ⟨s', hs, h⟩ := h
    obtain ⟨r, has, hbs⟩ := ih h
    exact ⟨r, by rw [exec, hs, Option.bind_some, has], hbs⟩

theorem Reachable.of_exec {t : σ} {as : List α} (h : m.exec m.init as = some t) :
    m.Reachable t :=
  steps_of_exec h

theorem Reachable.step {s t : σ} (a : α) (h : m.Reachable s) (hs : m.step s a = some t) :
    m.Reachable t :=
  Steps.tail a h hs

/-- What every step keeps, every run keeps. -/
theorem Steps.preserves {P : σ → Prop} (hstep : ∀ s a t, P s → m.step s a = some t → P t)
    {s t : σ} (h : m.Steps s t) (hs : P s) : P t := by
  induction h with
  | refl => exact hs
  | tail a _ ht ih => exact hstep _ a _ ih ht

/-- The invariant rule. -/
theorem Reachable.invariant {P : σ → Prop} (hinit : P m.init)
    (hstep : ∀ s a t, P s → m.step s a = some t → P t) {s : σ} (h : m.Reachable s) : P s :=
  Steps.preserves hstep h hinit

/-! ## Runs under a condition -/

open Classical in
/-- The runs whose steps all meet a condition. -/
noncomputable def restrict (m : Machine σ α) (guard : σ → α → Prop) : Machine σ α where
  init := m.init
  step s a := if guard s a then m.step s a else none

theorem restrict_step {guard : σ → α → Prop} {s t : σ} {a : α} :
    (m.restrict guard).step s a = some t ↔ guard s a ∧ m.step s a = some t := by
  simp only [restrict]
  split_ifs with h
  · simp only [h, true_and]
  · simp only [h, false_and]

theorem Reachable.of_restrict {guard : σ → α → Prop} {s : σ}
    (h : (m.restrict guard).Reachable s) : m.Reachable s := by
  refine h.invariant .refl ?_
  intro s a t hs hstep
  exact Reachable.step a hs (restrict_step.1 hstep).2

end Machine

end Sunpack.Lib
