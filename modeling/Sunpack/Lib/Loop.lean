import Mathlib.Tactic.Common

/-!
# Programs that read with checks

A program has a result or none: none if it would read outside of its data. `Gives post` says that it
has one, as it should be, and there is one rule for each way to put programs together.

`loop body n` makes at most `n` turns and has no result if they are not enough, so that a result means
the loop ended. `Ends` is the same loop without a bound: runs are built from its turns, and `loop_eq`
turns them into results.
-/

namespace Sunpack.Lib

universe u v

variable {α σ : Type u} {β ρ : Type u}

/-! ## Rules -/

def Gives (post : α → Prop) (program : Option α) : Prop := ∃ a, program = some a ∧ post a

namespace Gives

variable {post : α → Prop} {program : Option α}

theorem some {a : α} (h : post a) : Gives post (some a) :=
  ⟨a, rfl, h⟩

theorem mono {post' : α → Prop} (h : Gives post program) (hpost : ∀ a, post a → post' a) :
    Gives post' program := by
  obtain ⟨a, ha, hp⟩ := h
  exact ⟨a, ha, hpost a hp⟩

theorem bind {f : α → Option β} {post' : β → Prop} (h : Gives post program)
    (hf : ∀ a, post a → Gives post' (f a)) : Gives post' (program >>= f) := by
  obtain ⟨a, rfl, hp⟩ := h
  exact hf a hp

theorem ite {c : Prop} [Decidable c] {other : Option α} (h : c → Gives post program)
    (h' : ¬c → Gives post other) : Gives post (if c then program else other) := by
  split_ifs with hc
  · exact h hc
  · exact h' hc

/-- A program whose result is known. -/
theorem of_eq {program : Option α} {a : α} (h : program = .some a) :
    Gives (fun b => b = a) program := ⟨a, h, rfl⟩

/-- A read inside of the list. -/
theorem read {l : List α} {i : Nat} (h : i < l.length) : Gives (fun a => l[i]? = .some a) l[i]? :=
  ⟨_, List.getElem?_eq_getElem h, List.getElem?_eq_getElem h⟩

end Gives

/-! ## Loops -/

def loop (body : σ → Option (σ ⊕ ρ)) : Nat → σ → Option ρ
  | 0, _ => none
  | n + 1, s =>
    match body s with
    | none => none
    | some (.inl s') => loop body n s'
    | some (.inr r) => some r

variable {body : σ → Option (σ ⊕ ρ)}

theorem loop_next {s s' : σ} (h : body s = some (.inl s')) (n : Nat) :
    loop body (n + 1) s = loop body n s' := by
  rw [loop, h]

theorem loop_done {s : σ} {r : ρ} (h : body s = some (.inr r)) (n : Nat) :
    loop body (n + 1) s = some r := by
  rw [loop, h]

/-- Each turn keeps the invariant and makes the measure smaller, or ends as it should. -/
theorem Gives.loop (inv : σ → Prop) (measure : σ → Nat) {post : ρ → Prop}
    (hbody : ∀ s, inv s →
      Gives (Sum.elim (fun s' => inv s' ∧ measure s' < measure s) post) (body s)) :
    ∀ n s, inv s → measure s < n → Gives post (loop body n s) := by
  intro n
  induction n with
  | zero =>
    intro s _ hlt
    omega
  | succ n ih =>
    intro s hs hlt
    obtain ⟨turn, hturn, hafter⟩ := hbody s hs
    cases turn with
    | inl s' =>
      obtain ⟨hs', hdec⟩ := hafter
      rw [loop_next hturn]
      exact ih s' hs' (by omega)
    | inr r => exact ⟨r, loop_done hturn n, hafter⟩

/-- What each turn keeps holds of the result, if there is one. -/
theorem loop_inv (inv : σ → Prop) (post : ρ → Prop)
    (hbody : ∀ s t, inv s → body s = some t → Sum.elim inv post t) :
    ∀ n s r, inv s → loop body n s = some r → post r := by
  intro n
  induction n with
  | zero =>
    intro s r _ hloop
    exact absurd hloop (by simp [Lib.loop])
  | succ n ih =>
    intro s r hs hloop
    cases hturn : body s with
    | none =>
      rw [Lib.loop, hturn] at hloop
      exact absurd hloop (by simp)
    | some t =>
      have hafter := hbody s t hs hturn
      cases t with
      | inl s' =>
        rw [loop_next hturn] at hloop
        exact ih s' r hafter hloop
      | inr r' =>
        rw [loop_done hturn] at hloop
        rw [← Option.some.inj hloop]
        exact hafter

/-- Two loops whose turns correspond: what the second one ends with, the first one ends with too. -/
theorem loop_rel {σ' ρ' : Type v} {body' : σ' → Option (σ' ⊕ ρ')} (rel : σ → σ' → Prop)
    (post : ρ → ρ' → Prop)
    (hbody : ∀ s s', rel s s' →
      (∃ t t', body s = some (.inl t) ∧ body' s' = some (.inl t') ∧ rel t t') ∨
        ∃ r r', body s = some (.inr r) ∧ body' s' = some (.inr r') ∧ post r r') :
    ∀ n s s' r', rel s s' → loop body' n s' = some r' →
      Gives (fun r => post r r') (loop body n s) := by
  intro n
  induction n with
  | zero =>
    intro s s' r' _ hloop
    exact absurd hloop (by simp [Lib.loop])
  | succ n ih =>
    intro s s' r' hs hloop
    rcases hbody s s' hs with ⟨t, t', ht, ht', hrel⟩ | ⟨r, r'', hr, hr', hpost⟩
    · rw [loop_next ht'] at hloop
      rw [loop_next ht]
      exact ih t t' r' hrel hloop
    · rw [loop_done hr'] at hloop
      obtain rfl := Option.some.inj hloop
      exact ⟨r, loop_done hr n, hpost⟩

/-- From the state the loop ends with the result. -/
inductive Ends (body : σ → Option (σ ⊕ ρ)) : σ → ρ → Prop
  | done {s : σ} {r : ρ} : body s = some (.inr r) → Ends body s r
  | next {s s' : σ} {r : ρ} : body s = some (.inl s') → Ends body s' r → Ends body s r

theorem Ends.eq_of_loop {s : σ} {r r' : ρ} (h : Ends body s r) {n : Nat}
    (hloop : loop body n s = some r') : r = r' := by
  induction h generalizing n with
  | done hbody =>
    cases n with
    | zero => exact absurd hloop (by simp [loop])
    | succ n =>
      rw [loop_done hbody] at hloop
      exact Option.some.inj hloop
  | next hbody _ ih =>
    cases n with
    | zero => exact absurd hloop (by simp [loop])
    | succ n =>
      rw [loop_next hbody] at hloop
      exact ih hloop

/-- A loop that has a result has the one it ends with. -/
theorem loop_eq {s : σ} {r : ρ} {n : Nat} {post : ρ → Prop} (h : Ends body s r)
    (hgives : Gives post (loop body n s)) : loop body n s = some r := by
  obtain ⟨r', hr', _⟩ := hgives
  rw [hr', h.eq_of_loop hr']

end Sunpack.Lib
