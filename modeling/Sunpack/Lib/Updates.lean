import Mathlib.Logic.Function.Basic
import Sunpack.Lib.Dict

/-!
# Updates of a function

The updates of a list, one after the other. The last one of a key counts; a function that is updated at
keys without repetition has the value of each. A dictionary that is written to is updated.
-/

namespace Sunpack.Lib

universe u v w

variable {K : Type u} {V : Type v} {E : Type w} [DecidableEq K]

def updates (key : E → K) (value : E → V) (f : K → V) (es : List E) : K → V :=
  es.foldl (fun f e => Function.update f (key e) (value e)) f

variable {key : E → K} {value : E → V} {f : K → V} {es : List E}

@[simp] theorem updates_nil : updates key value f [] = f := rfl

@[simp] theorem updates_cons (e : E) : updates key value f (e :: es) =
    updates key value (Function.update f (key e) (value e)) es := rfl

theorem updates_of_notMem {k : K} (h : k ∉ es.map key) : updates key value f es k = f k := by
  induction es generalizing f with
  | nil => simp
  | cons e es ih =>
    rw [List.map_cons, List.mem_cons, not_or] at h
    rw [updates_cons, ih h.2, Function.update_of_ne h.1]

theorem updates_of_mem (hnodup : (es.map key).Nodup) {e : E} (h : e ∈ es) :
    updates key value f es (key e) = value e := by
  induction es generalizing f with
  | nil => exact absurd h List.not_mem_nil
  | cons e' es ih =>
    rw [List.map_cons, List.nodup_cons] at hnodup
    rw [updates_cons]
    rcases List.mem_cons.1 h with rfl | h
    · rw [updates_of_notMem hnodup.1, Function.update_self]
    · exact ih hnodup.2 h

theorem Dict.get?_set_eq_update (d : Dict K V) (k : K) (v : V) :
    (d.set k v).get? = Function.update d.get? k (some v) := by
  funext k'
  rw [Dict.get?_set, Function.update_apply]

theorem Dict.get?_foldl_set (d : Dict K V) (es : List E) :
    (es.foldl (fun d e => d.set (key e) (value e)) d).get? =
      updates key (fun e => some (value e)) d.get? es := by
  induction es generalizing d with
  | nil => rfl
  | cons e es ih => rw [List.foldl_cons, ih, updates_cons, Dict.get?_set_eq_update]

theorem Dict.get?_foldl_erase (d : Dict K V) (ks : List K) (k : K) :
    (ks.foldl Dict.erase d).get? k = if k ∈ ks then none else d.get? k := by
  induction ks generalizing d with
  | nil => simp
  | cons k' ks ih =>
    rw [List.foldl_cons, ih, Dict.get?_erase]
    by_cases hk : k = k'
    · simp [hk]
    · simp [hk]

end Sunpack.Lib
