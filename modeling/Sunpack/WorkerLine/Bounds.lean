import Sunpack.WorkerLine.Scanner
import Mathlib.Tactic.Common

/-!
# The scanner stays in its view

For every view and every start, a scanner has a result: its loop ends, and it reads inside of the view
only. What it returns is past its start and, from inside of the view, not past the end.
-/

namespace Sunpack.WorkerLine

open Lib

/-! ## Positions -/

/-- The result of a scanner that starts at a position. -/
def Past (json : Bytes) (start stop : Nat) : Prop :=
  start ≤ stop ∧ (start ≤ json.length → stop ≤ json.length)

theorem Past.refl (json : Bytes) (start : Nat) : Past json start start :=
  ⟨Nat.le_refl _, id⟩

theorem Past.trans {json : Bytes} {a b c : Nat} (h : Past json a b) (h' : Past json b c) :
    Past json a c :=
  ⟨Nat.le_trans h.1 h'.1, fun ha => h'.2 (h.2 ha)⟩

/-- One character inside of the view. -/
theorem Past.succ {json : Bytes} {pos : Nat} (h : pos < json.length) : Past json pos (pos + 1) :=
  ⟨Nat.le_succ _, fun _ => h⟩

theorem substr_gives {view : Bytes} {pos : Nat} (count : Nat) (h : pos ≤ view.length) :
    Gives (fun _ => True) (substr view pos count) :=
  ⟨_, if_pos h, trivial⟩

/-- A turn that goes on goes forward, from inside of the view. -/
def Forward {σ : Type} (json : Bytes) (pos : σ → Nat) (s s' : σ) : Prop :=
  pos s < pos s' ∧ pos s < json.length

/-- The rule for a loop over the positions of a view. -/
theorem scan_gives {σ ρ : Type} {body : σ → Option (σ ⊕ ρ)} {json : Bytes} (pos : σ → Nat)
    (inv : σ → Prop) {post : ρ → Prop}
    (hbody : ∀ s, inv s →
      Gives (Sum.elim (fun s' => inv s' ∧ Forward json pos s s') post) (body s))
    {s : σ} (hs : inv s) : Gives post (loop body (json.length + 1) s) := by
  apply Gives.loop inv (fun s => json.length - pos s) _ _ s hs (by omega)
  intro s hs
  apply (hbody s hs).mono
  rintro (s' | r) h
  · obtain ⟨hs', hlt, hin⟩ := h
    exact ⟨hs', by omega⟩
  · exact h

/-! ## Ends of values -/

theorem skipWs_gives (json : Bytes) (start : Nat) : Gives (Past json start) (skipWs json start) := by
  apply scan_gives id (Past json start) _ (Past.refl json start)
  intro pos hpos
  apply Gives.ite
  · intro hin
    apply Gives.bind (Gives.read hin)
    intro ch _
    apply Gives.some
    split_ifs
    · exact ⟨hpos.trans (Past.succ hin), Nat.lt_succ_self pos, hin⟩
    · exact hpos
  · intro _
    exact Gives.some hpos

/-- The rest of a string, from inside of the view. -/
theorem stringLoop_gives {json : Bytes} {start : Nat} (hstart : start ≤ json.length)
    (escaped : Bool) :
    Gives (Past json start) (loop (stringEndBody json) (json.length + 1) (start, escaped)) := by
  apply scan_gives Prod.fst (fun s => Past json start s.1) _ (Past.refl json start)
  intro s hs
  apply Gives.ite
  · intro hin
    have hnext := hs.trans (Past.succ hin)
    apply Gives.bind (Gives.read hin)
    intro ch _
    apply Gives.some
    split_ifs
    · exact ⟨hnext, Nat.lt_succ_self _, hin⟩
    · exact ⟨hnext, Nat.lt_succ_self _, hin⟩
    · exact hnext
    · exact ⟨hnext, Nat.lt_succ_self _, hin⟩
  · intro _
    exact Gives.some ⟨hstart, fun _ => Nat.le_refl _⟩

/-- A string is not empty: the end is past the quote. -/
theorem jsonStringEnd_gives (json : Bytes) (start : Nat) :
    Gives (fun stop => Past json start stop ∧ (json[start]? = some (byte '"') → start < stop))
      (jsonStringEnd json start) := by
  apply Gives.ite
  · intro hout
    apply Gives.some
    refine ⟨Past.refl json start, fun h => ?_⟩
    rw [List.getElem?_eq_none hout] at h
    exact absurd h (by simp)
  · intro hin
    apply Gives.bind (Gives.read (Nat.lt_of_not_le hin))
    intro ch hch
    apply Gives.ite
    · intro hquote
      apply Gives.some
      exact ⟨Past.refl json start, fun h => absurd (Option.some.inj (hch ▸ h)) hquote⟩
    · intro _
      have hstep := Past.succ (Nat.lt_of_not_le hin)
      apply (stringLoop_gives (Nat.lt_of_not_le hin) false).mono
      intro stop hstop
      exact ⟨hstep.trans hstop, fun _ => hstop.1⟩

theorem jsonCompositeEnd_gives {json : Bytes} {start : Nat} (hstart : start ≤ json.length) :
    Gives (Past json start) (jsonCompositeEnd json start) := by
  apply scan_gives Prod.fst (fun s => Past json start s.1) _ (Past.refl json start)
  intro s hs
  apply Gives.ite
  · intro hin
    apply Gives.bind (Gives.read hin)
    intro ch hch
    apply Gives.ite
    · intro hquote
      apply Gives.bind (jsonStringEnd_gives json s.1)
      intro pos hpos
      apply Gives.some
      exact ⟨hs.trans hpos.1, hpos.2 (hquote ▸ hch), hin⟩
    · intro _
      apply Gives.some
      split_ifs
      · exact hs.trans (Past.succ hin)
      · exact ⟨hs.trans (Past.succ hin), Nat.lt_succ_self _, hin⟩
  · intro _
    exact Gives.some ⟨hstart, fun _ => Nat.le_refl _⟩

theorem scalarLoop_gives (json : Bytes) (start : Nat) :
    Gives (Past json start) (loop (scalarEndBody json) (json.length + 1) start) := by
  apply scan_gives id (Past json start) _ (Past.refl json start)
  intro pos hpos
  apply Gives.ite
  · intro hin
    apply Gives.bind (Gives.read hin)
    intro ch _
    apply Gives.some
    split_ifs
    · exact hpos
    · exact ⟨hpos.trans (Past.succ hin), Nat.lt_succ_self pos, hin⟩
  · intro _
    exact Gives.some hpos

theorem jsonValueEnd_gives (json : Bytes) (start : Nat) :
    Gives (Past json start) (jsonValueEnd json start) := by
  apply Gives.bind (skipWs_gives json start)
  intro pos hpos
  apply Gives.ite
  · intro _
    exact Gives.some hpos
  · intro hin
    apply Gives.bind (Gives.read (Nat.lt_of_not_le hin))
    intro ch _
    apply Gives.ite
    · intro _
      exact (jsonStringEnd_gives json pos).mono fun stop hstop => hpos.trans hstop.1
    · intro _
      apply Gives.ite
      · intro _
        exact (jsonCompositeEnd_gives (Nat.le_of_not_le hin)).mono fun stop => hpos.trans
      · intro _
        exact (scalarLoop_gives json pos).mono fun stop => hpos.trans

/-! ## Strings and arrays -/

theorem decodeJsonString_gives (token : Bytes) : Gives (fun _ => True) (decodeJsonString token) := by
  apply Gives.ite
  · intro _
    exact Gives.some trivial
  · intro hlong
    apply Gives.bind (Gives.read (show 0 < token.length by omega))
    intro front _
    apply Gives.bind (Gives.read (show token.length - 1 < token.length by omega))
    intro back _
    apply Gives.ite
    · intro _
      exact Gives.some trivial
    · intro _
      refine scan_gives Prod.fst (fun _ => True) ?_ trivial
      intro s _
      apply Gives.ite
      · intro hin
        have hpos : s.1 < token.length := by omega
        apply Gives.bind (Gives.read hpos)
        intro ch _
        apply Gives.ite
        · intro _
          exact Gives.some ⟨trivial, Nat.lt_succ_self _, hpos⟩
        · intro _
          apply Gives.bind (Gives.read hin)
          intro escaped _
          exact Gives.some ⟨trivial, Nat.lt_add_of_pos_right (by omega), hpos⟩
      · intro _
        exact Gives.some trivial

end Sunpack.WorkerLine
