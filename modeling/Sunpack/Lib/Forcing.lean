import Mathlib.Data.Finset.Card
import Mathlib.Data.List.Pairwise
import Mathlib.Data.List.TakeWhile
import Sunpack.Lib.Loop

/-!
# Greedy assignment with forced moves

Rows are to be given numbers along edges. A row with one edge left takes it, if no other row with one
edge left wants the same number; when nothing is forced, the first number that still has edges goes
to the narrowest one. A claim takes all edges of its row and of its number away, edge by edge, and
each removal may put numbers on the list of those to look at again.

`run_gives` is what a finished run has done. `run_congr` says that the order in which the edges of a
number are listed does not matter where they belong to at most two rows.
-/

namespace Sunpack.Lib

/-- The element of a list of one. -/
def only {α : Type*} : List α → Option α
  | [a] => some a
  | _ => none

theorem only_eq_some {α : Type*} {l : List α} {a : α} : only l = some a ↔ l = [a] := by
  cases l with
  | nil => simp [only]
  | cons b l =>
    cases l with
    | nil => simp [only]
    | cons c l => simp [only]

theorem only_perm {α : Type*} {l l' : List α} (h : l.Perm l') : only l = only l' := by
  cases hl : only l with
  | none =>
    cases hl' : only l' with
    | none => rfl
    | some a =>
      rw [only_eq_some] at hl'
      subst hl'
      rw [List.perm_singleton.1 h] at hl
      exact absurd hl (by simp [only])
  | some a =>
    rw [only_eq_some] at hl
    subst hl
    rw [← List.singleton_perm.1 h]
    rfl

structure Forcing (E R N : Type*) where
  row : E → R
  number : E → N
  width : E → Nat
  required : R → Bool
  ofRow : R → List E
  ofNumber : N → List E

namespace Forcing

structure State (E N : Type*) where
  live : Finset E
  claims : List E := []
  pending : List N
  missing : Bool := false

inductive Failure
  | missing
  | ambiguous
deriving DecidableEq, Repr

variable {E R N : Type} [DecidableEq E] [DecidableEq R] (G : Forcing E R N)

/-! ## Moves -/

def taken (s : State E N) (r : R) : Bool := r ∈ s.claims.map G.row

/-- The edges a row has left. -/
def left (s : State E N) (r : R) : List E := (G.ofRow r).filter (· ∈ s.live)

/-- The edges a number has left. -/
def wanted (s : State E N) (n : N) : List E := (G.ofNumber n).filter (· ∈ s.live)

/-- The last edge of a row that has no number yet. -/
def lone (s : State E N) (e : E) : Bool :=
  e ∈ s.live && !G.taken s (G.row e) && (G.left s (G.row e)).length == 1

def loners (s : State E N) (n : N) : List E := (G.ofNumber n).filter (G.lone s)

/-- The number of a removed edge is looked at again if another row is alone with it now. -/
def again (s : State E N) (e : E) : List N :=
  if ((G.loners s (G.number e)).filter fun x => G.row x ≠ G.row e).length = 1 then [G.number e]
  else []

/-- A row without a number that has lost an edge: so is the number of its last edge, and a required
row that has none left is missing. -/
def wake (s : State E N) (r : R) : State E N :=
  if G.taken s r then s
  else
    match G.left s r with
    | [] => { s with missing := s.missing || G.required r }
    | [x] => { s with pending := s.pending ++ [G.number x] }
    | _ :: _ :: _ => s

def afterRemoval (s : State E N) (e : E) : State E N :=
  G.wake { s with pending := s.pending ++ G.again s e } (G.row e)

def remove (s : State E N) (e : E) : State E N :=
  if e ∈ s.live then G.afterRemoval { s with live := s.live.erase e } e else s

def claim (s : State E N) (e : E) : State E N :=
  let s := { s with claims := s.claims ++ [e] }
  (G.ofNumber (G.number e)).foldl G.remove ((G.ofRow (G.row e)).foldl G.remove s)

/-- The edges of a number with the least width. -/
def narrowest (s : State E N) (n : N) : List E :=
  (G.wanted s n).filter fun x => (G.wanted s n).all fun y => G.width x ≤ G.width y

/-! ## Runs -/

def propagateBody (s : State E N) : Option (State E N ⊕ State E N) :=
  match s.pending with
  | [] => some (.inr s)
  | n :: rest =>
    match only (G.loners { s with pending := rest } n) with
    | some x =>
      let s := G.claim { s with pending := rest } x
      some (if s.missing then .inr s else .inl s)
    | none => some (.inl { s with pending := rest })

/-- `bound` is at least the number of all edges. -/
def propagate (bound : Nat) (s : State E N) : Option (State E N) :=
  loop G.propagateBody (s.pending.length + 3 * bound + 1) s

/-- The state goes with the numbers that are not known to be done. -/
def runBody (bound : Nat) (s : State E N × List N) :
    Option ((State E N × List N) ⊕ Except Failure (List E)) := do
  let t ← G.propagate bound s.1
  if t.missing then some (.inr (.error .missing))
  else
    match s.2.dropWhile fun n => (G.wanted t n).isEmpty with
    | [] => some (.inr (.ok t.claims))
    | n :: rest =>
      match only (G.narrowest t n) with
      | some x => some (.inl (G.claim t x, n :: rest))
      | none => some (.inr (.error .ambiguous))

def run (bound : Nat) (s : State E N) (numbers : List N) : Option (Except Failure (List E)) :=
  if s.missing then some (.error .missing) else loop (G.runBody bound) (bound + 1) (s, numbers)

/-! ## One removal -/

/-- Edges are listed where they belong. -/
structure WF : Prop where
  row_eq : ∀ {e r}, e ∈ G.ofRow r → G.row e = r
  number_eq : ∀ {e n}, e ∈ G.ofNumber n → G.number e = n
  both : ∀ e, e ∈ G.ofRow (G.row e) ↔ e ∈ G.ofNumber (G.number e)

variable {G}

omit [DecidableEq R] in
theorem mem_left (hG : G.WF) {s : State E N} {r : R} {e : E} :
    e ∈ G.left s r ↔ e ∈ G.ofRow r ∧ G.row e = r ∧ e ∈ s.live := by
  rw [left, List.mem_filter, decide_eq_true_eq]
  exact ⟨fun h => ⟨h.1, hG.row_eq h.1, h.2⟩, fun h => ⟨h.1, h.2.2⟩⟩

theorem wake_live (s : State E N) (r : R) : (G.wake s r).live = s.live := by
  rw [wake]
  split
  · rfl
  · split <;> rfl

theorem wake_claims (s : State E N) (r : R) : (G.wake s r).claims = s.claims := by
  rw [wake]
  split
  · rfl
  · split <;> rfl

theorem wake_pending (s : State E N) (r : R) :
    (G.wake s r).pending.length ≤ s.pending.length + 1 := by
  rw [wake]
  split
  · exact Nat.le_succ _
  · split
    · exact Nat.le_succ _
    · rw [List.length_append, List.length_singleton]
    · exact Nat.le_succ _

theorem again_length (s : State E N) (e : E) : (G.again s e).length ≤ 1 := by
  rw [again]
  split_ifs
  · exact Nat.le_refl 1
  · exact Nat.zero_le 1

theorem remove_live (s : State E N) (e : E) : (G.remove s e).live = s.live.erase e := by
  rw [remove]
  split_ifs with h
  · rw [afterRemoval, wake_live]
  · rw [Finset.erase_eq_of_notMem h]

theorem remove_claims (s : State E N) (e : E) : (G.remove s e).claims = s.claims := by
  rw [remove]
  split_ifs
  · rw [afterRemoval, wake_claims]
  · rfl

/-- What a run uses up: entries of the list, and edges with the entries they may add. -/
def State.size (s : State E N) : Nat := s.pending.length + 3 * s.live.card

theorem remove_size (s : State E N) (e : E) : (G.remove s e).size ≤ s.size := by
  rw [remove]
  split_ifs with h
  · have hagain := G.again_length { s with live := s.live.erase e } e
    have hpending := G.wake_pending { s with
      live := s.live.erase e
      pending := s.pending ++ G.again { s with live := s.live.erase e } e } (G.row e)
    have hcard := Finset.card_erase_add_one h
    rw [State.size, State.size, afterRemoval, wake_live]
    rw [List.length_append] at hpending
    dsimp only at hpending ⊢
    omega
  · exact Nat.le_refl _

/-- As long as nothing is missing, a required row has a number or an edge left. -/
def Covered (G : Forcing E R N) (s : State E N) : Prop :=
  s.missing = false → ∀ r, G.required r = true →
    (∃ c ∈ s.claims, G.row c = r) ∨ ∃ e ∈ s.live, G.row e = r

omit [DecidableEq E] in
theorem taken_iff {s : State E N} {r : R} : G.taken s r = true ↔ ∃ c ∈ s.claims, G.row c = r := by
  rw [taken, decide_eq_true_eq, List.mem_map]

theorem remove_covered (hG : G.WF) {s : State E N} (h : G.Covered s) (e : E) :
    G.Covered (G.remove s e) := by
  intro hmissing r hr
  rw [remove_claims, remove_live]
  have hold : s.missing = false := by
    rw [remove] at hmissing
    split_ifs at hmissing with hlive
    · rw [afterRemoval, wake] at hmissing
      split at hmissing
      · exact hmissing
      · split at hmissing
        · exact (Bool.or_eq_false_iff.1 hmissing).1
        · exact hmissing
        · exact hmissing
    · exact hmissing
  rcases h hold r hr with hclaim | ⟨x, hx, hxr⟩
  · exact Or.inl hclaim
  · by_cases hxe : x = e
    · subst hxe hxr
      by_cases htaken : G.taken s (G.row x) = true
      · exact Or.inl (taken_iff.1 htaken)
      · rw [remove, if_pos hx, afterRemoval, wake, if_neg (by exact htaken)] at hmissing
        split at hmissing
        · rw [Bool.or_eq_false_iff] at hmissing
          rw [hr] at hmissing
          exact absurd hmissing.2 (by simp)
        · rename_i y hleft
          have hy := (mem_left hG).1 (hleft ▸ List.mem_singleton_self y)
          exact Or.inr ⟨y, hy.2.2, hy.2.1⟩
        · rename_i y z l hleft
          have hy := (mem_left hG).1 (hleft ▸ List.mem_cons_self)
          exact Or.inr ⟨y, hy.2.2, hy.2.1⟩
    · exact Or.inr ⟨x, Finset.mem_erase.2 ⟨hxe, hx⟩, hxr⟩

/-! ## Many removals -/

theorem mem_foldl_remove (l : List E) (s : State E N) (e : E) :
    e ∈ (l.foldl G.remove s).live ↔ e ∈ s.live ∧ e ∉ l := by
  induction l generalizing s with
  | nil => simp
  | cons x l ih =>
    rw [List.foldl_cons, ih, remove_live, Finset.mem_erase, List.mem_cons, not_or]
    constructor
    · rintro ⟨⟨hne, hlive⟩, hl⟩
      exact ⟨hlive, hne, hl⟩
    · rintro ⟨hlive, hne, hl⟩
      exact ⟨⟨hne, hlive⟩, hl⟩

theorem foldl_remove_claims (l : List E) (s : State E N) :
    (l.foldl G.remove s).claims = s.claims := by
  induction l generalizing s with
  | nil => rfl
  | cons x l ih => rw [List.foldl_cons, ih, remove_claims]

theorem foldl_remove_size (l : List E) (s : State E N) : (l.foldl G.remove s).size ≤ s.size := by
  induction l generalizing s with
  | nil => exact Nat.le_refl _
  | cons x l ih => exact Nat.le_trans (ih _) (remove_size s x)

theorem foldl_remove_covered (hG : G.WF) (l : List E) {s : State E N} (h : G.Covered s) :
    G.Covered (l.foldl G.remove s) := by
  induction l generalizing s with
  | nil => exact h
  | cons x l ih => exact ih (remove_covered hG h x)

/-! ## Claims -/

/-- Between claims: an edge is left unless its row or its number was claimed, and no row and no
number was claimed twice. -/
structure Settled (G : Forcing E R N) (s : State E N) : Prop where
  edge : ∀ e ∈ s.live, e ∈ G.ofRow (G.row e)
  claimed : ∀ c ∈ s.claims, c ∈ G.ofRow (G.row c)
  distinct : s.claims.Pairwise fun c d => G.row c ≠ G.row d ∧ G.number c ≠ G.number d
  open_iff : ∀ e ∈ G.ofRow (G.row e),
    e ∈ s.live ↔ ∀ c ∈ s.claims, G.row c ≠ G.row e ∧ G.number c ≠ G.number e
  covered : G.Covered s

theorem mem_claim (s : State E N) (e x : E) : x ∈ (G.claim s e).live ↔
    x ∈ s.live ∧ x ∉ G.ofRow (G.row e) ∧ x ∉ G.ofNumber (G.number e) := by
  rw [claim, mem_foldl_remove, mem_foldl_remove]
  exact and_assoc

theorem claim_claims (s : State E N) (e : E) : (G.claim s e).claims = s.claims ++ [e] := by
  rw [claim, foldl_remove_claims, foldl_remove_claims]

theorem claim_size (s : State E N) (e : E) : (G.claim s e).size ≤ s.size := by
  rw [claim]
  exact Nat.le_trans (foldl_remove_size _ _) (foldl_remove_size _ _)

theorem Settled.claim (hG : G.WF) {s : State E N} (h : G.Settled s) {e : E} (he : e ∈ s.live) :
    G.Settled (G.claim s e) := by
  have hedge := h.edge e he
  have hopen := (h.open_iff e hedge).1 he
  have hlisted {x : E} (hx : x ∈ G.ofRow (G.row x)) :
      (x ∉ G.ofRow (G.row e) ∧ x ∉ G.ofNumber (G.number e)) ↔
        G.row e ≠ G.row x ∧ G.number e ≠ G.number x := by
    refine and_congr (not_congr ?_) (not_congr ?_)
    · exact ⟨fun hmem => (hG.row_eq hmem).symm, fun heq => heq ▸ hx⟩
    · exact ⟨fun hmem => (hG.number_eq hmem).symm, fun heq => heq ▸ (hG.both x).1 hx⟩
  refine ⟨fun x hx => h.edge x ((mem_claim s e x).1 hx).1, fun c hc => ?_, ?_, fun x hx => ?_, ?_⟩
  · rw [claim_claims] at hc
    rcases List.mem_append.1 hc with hc | hc
    · exact h.claimed c hc
    · rw [List.mem_singleton.1 hc]
      exact hedge
  · rw [claim_claims, List.pairwise_append]
    refine ⟨h.distinct, List.pairwise_singleton _ _, fun c hc d hd => ?_⟩
    rw [List.mem_singleton.1 hd]
    exact hopen c hc
  · rw [mem_claim, claim_claims, h.open_iff x hx, hlisted hx]
    rw [List.forall_mem_append, List.forall_mem_singleton]
  · rw [Forcing.claim]
    apply foldl_remove_covered hG
    apply foldl_remove_covered hG
    intro hmissing r hr
    rcases h.covered hmissing r hr with ⟨c, hc, hcr⟩ | hlive
    · exact Or.inl ⟨c, List.mem_append_left _ hc, hcr⟩
    · exact Or.inr hlive

/-- A claim of an edge that is left uses it up. -/
theorem claim_card {s : State E N} (h : G.Settled s) {e : E} (he : e ∈ s.live) :
    (G.claim s e).live.card < s.live.card := by
  apply Finset.card_lt_card
  refine ⟨fun x hx => ((mem_claim s e x).1 hx).1, fun hsub => ?_⟩
  exact ((mem_claim s e e).1 (hsub he)).2.1 (h.edge e he)

omit [DecidableEq E] in
/-- An edge that is left belongs to a row without a number. -/
theorem Settled.not_taken {s : State E N} (h : G.Settled s) {e : E} (he : e ∈ s.live) :
    G.taken s (G.row e) = false := by
  rw [Bool.eq_false_iff]
  intro htaken
  obtain ⟨c, hc, hrow⟩ := taken_iff.1 htaken
  exact ((h.open_iff e (h.edge e he)).1 he c hc).1 hrow

/-! ## Runs end -/

omit [DecidableEq E] [DecidableEq R] in
theorem Settled.of_pending {s t : State E N} (h : G.Settled s) (hlive : t.live = s.live)
    (hclaims : t.claims = s.claims) (hmissing : t.missing = s.missing) : G.Settled t := by
  obtain ⟨hedge, hclaimed, hdistinct, hopen, hcovered⟩ := h
  refine ⟨?_, ?_, ?_, ?_, ?_⟩
  · rw [hlive]
    exact hedge
  · rw [hclaims]
    exact hclaimed
  · rw [hclaims]
    exact hdistinct
  · rw [hlive, hclaims]
    exact hopen
  · rw [Covered, hmissing, hclaims, hlive]
    exact hcovered

/-- Propagation ends, and has claimed edges that were left. -/
theorem propagate_gives (hG : G.WF) {bound : Nat} {s : State E N} (h : G.Settled s)
    (hbound : s.live.card ≤ bound) :
    Gives (fun t => G.Settled t ∧ t.live ⊆ s.live) (G.propagate bound s) := by
  apply Gives.loop (fun t => G.Settled t ∧ t.live ⊆ s.live) State.size _ _ s
    ⟨h, Finset.Subset.refl _⟩
  · rw [State.size]
    omega
  · intro t ht
    rw [propagateBody]
    split
    · exact Gives.some ht
    · rename_i n rest hpending
      have hpop : G.Settled { t with pending := rest } := ht.1.of_pending rfl rfl rfl
      have hsize : State.size { t with pending := rest } < t.size := by
        rw [State.size, State.size, hpending, List.length_cons]
        dsimp only
        omega
      split
      · rename_i x hx
        have hmem : x ∈ G.loners { t with pending := rest } n :=
          only_eq_some.1 hx ▸ List.mem_singleton_self x
        have hlive : x ∈ t.live := by
          have hlone := (List.mem_filter.1 hmem).2
          simp only [lone, Bool.and_eq_true, decide_eq_true_eq] at hlone
          exact hlone.1.1
        have hnext : G.Settled (G.claim { t with pending := rest } x) ∧
            (G.claim { t with pending := rest } x).live ⊆ s.live :=
          ⟨hpop.claim hG hlive, fun y hy => ht.2 ((mem_claim _ _ _).1 hy).1⟩
        apply Gives.some
        split_ifs
        · exact hnext
        · exact ⟨hnext, Nat.lt_of_le_of_lt (claim_size _ _) hsize⟩
      · exact Gives.some ⟨⟨hpop, ht.2⟩, hsize⟩

/-- A finished assignment: no row and no number twice, no required row without a number, and a row
without one has all its numbers taken. -/
structure Assigned (G : Forcing E R N) (claims : List E) : Prop where
  claimed : ∀ c ∈ claims, c ∈ G.ofRow (G.row c)
  distinct : claims.Pairwise fun c d => G.row c ≠ G.row d ∧ G.number c ≠ G.number d
  required : ∀ r, G.required r = true → ∃ c ∈ claims, G.row c = r
  left : ∀ e ∈ G.ofRow (G.row e), ∃ c ∈ claims, G.row c = G.row e ∨ G.number c = G.number e

omit [DecidableEq E] [DecidableEq R] in
theorem Settled.assigned {s : State E N} (h : G.Settled s) (hmissing : s.missing = false)
    (hlive : s.live = ∅) : G.Assigned s.claims := by
  refine ⟨h.claimed, h.distinct, fun r hr => ?_, fun e he => ?_⟩
  · rcases h.covered hmissing r hr with hclaim | ⟨e, he, _⟩
    · exact hclaim
    · simp [hlive] at he
  · by_contra hnone
    have hopen : e ∈ s.live := by
      rw [h.open_iff e he]
      intro c hc
      exact ⟨fun hrow => hnone ⟨c, hc, Or.inl hrow⟩, fun hnum => hnone ⟨c, hc, Or.inr hnum⟩⟩
    simp [hlive] at hopen

omit [DecidableEq R] in
theorem mem_wanted (hG : G.WF) {s : State E N} {n : N} {e : E} :
    e ∈ G.wanted s n ↔ e ∈ G.ofNumber n ∧ G.number e = n ∧ e ∈ s.live := by
  rw [wanted, List.mem_filter, decide_eq_true_eq]
  exact ⟨fun h => ⟨h.1, hG.number_eq h.1, h.2⟩, fun h => ⟨h.1, h.2.2⟩⟩

/-- A run ends, with a finished assignment or with a failure. -/
theorem run_gives (hG : G.WF) {bound : Nat} {s : State E N} {numbers : List N} (h : G.Settled s)
    (hbound : s.live.card ≤ bound) (hnumbers : ∀ e ∈ s.live, G.number e ∈ numbers) :
    Gives (fun result => ∀ claims, result = .ok claims → G.Assigned claims)
      (G.run bound s numbers) := by
  apply Gives.ite
  · intro _
    exact Gives.some fun claims heq => absurd heq (by simp)
  · intro _
    apply Gives.loop
      (fun t => G.Settled t.1 ∧ t.1.live.card ≤ bound ∧ ∀ e ∈ t.1.live, G.number e ∈ t.2)
      (fun t => t.1.live.card) _ _ (s, numbers) ⟨h, hbound, hnumbers⟩ (Nat.lt_succ_of_le hbound)
    rintro ⟨s, numbers⟩ ⟨hs, hcard, hin⟩
    apply Gives.bind (propagate_gives hG hs hcard)
    intro t ⟨ht, hsub⟩
    apply Gives.ite
    · intro _
      exact Gives.some fun claims heq => absurd heq (by simp)
    · intro hmissing
      have hdropped : ∀ e ∈ t.live,
          G.number e ∈ numbers.dropWhile fun n => (G.wanted t n).isEmpty := by
        intro e he
        have hmem := hin e (hsub he)
        rw [← List.takeWhile_append_dropWhile (p := fun n => (G.wanted t n).isEmpty)
          (l := numbers), List.mem_append] at hmem
        rcases hmem with hmem | hmem
        · have hempty := List.mem_takeWhile_imp hmem
          rw [List.isEmpty_iff] at hempty
          have hwanted := (mem_wanted hG (n := G.number e)).2
            ⟨(hG.both e).1 (ht.edge e he), rfl, he⟩
          rw [hempty] at hwanted
          exact absurd hwanted (by simp)
        · exact hmem
      dsimp only
      split
      · rename_i hnil
        apply Gives.some
        intro claims heq
        obtain rfl := Except.ok.inj heq
        apply ht.assigned (by simpa using hmissing)
        rw [Finset.eq_empty_iff_forall_notMem]
        intro e he
        have := hdropped e he
        rw [hnil] at this
        exact absurd this (by simp)
      · rename_i n rest hrest
        split
        · rename_i x hx
          have hmem : x ∈ G.narrowest t n := only_eq_some.1 hx ▸ List.mem_singleton_self x
          have hlive := ((mem_wanted hG).1 (List.mem_filter.1 hmem).1).2.2
          apply Gives.some
          have hlt := claim_card ht hlive
          have hle : t.live.card ≤ s.live.card := Finset.card_le_card hsub
          have hall : s.live.card ≤ bound := hcard
          refine ⟨⟨ht.claim hG hlive, ?_, fun e he => ?_⟩, Nat.lt_of_lt_of_le hlt hle⟩
          · dsimp only
            omega
          · rw [← hrest]
            exact hdropped e ((mem_claim t x e).1 he).1
        · exact Gives.some fun claims heq => absurd heq (by simp)

/-! ## Other orders -/

/-- The edges of a number in another order: each row keeps the order of its own, and the order is the
same unless there are two rows at most. -/
structure Reordered (G : Forcing E R N) (f : N → List E) : Prop where
  perm : ∀ n, (f n).Perm (G.ofNumber n)
  rows : ∀ n r, (f n).filter (G.row · = r) = (G.ofNumber n).filter (G.row · = r)
  few : ∀ n, f n = G.ofNumber n ∨ ∃ r₁ r₂, ∀ e ∈ G.ofNumber n, G.row e = r₁ ∨ G.row e = r₂

/-- Removals that find nothing can be left out. -/
theorem foldl_remove_filter (p : E → Bool) (l : List E) (s : State E N)
    (h : ∀ e ∈ l, p e = false → e ∉ s.live) :
    l.foldl G.remove s = (l.filter p).foldl G.remove s := by
  induction l generalizing s with
  | nil => rfl
  | cons e l ih =>
    have hrest : ∀ x ∈ l, p x = false → x ∉ (G.remove s e).live := by
      intro x hx hpx hlive
      rw [remove_live] at hlive
      exact h x (List.mem_cons_of_mem _ hx) hpx (Finset.mem_of_mem_erase hlive)
    rw [List.foldl_cons, ih _ hrest]
    cases hp : p e with
    | true => rw [List.filter_cons_of_pos hp, List.foldl_cons]
    | false =>
      rw [List.filter_cons_of_neg (by simp [hp]), Forcing.remove,
        if_neg (h e List.mem_cons_self hp)]

variable {f : N → List E} (hf : G.Reordered f)
include hf

theorem Reordered.remove (s : State E N) (e : E) :
    ({ G with ofNumber := f } : Forcing E R N).remove s e = G.remove s e := by
  have hlone : ∀ s : State E N, ({ G with ofNumber := f } : Forcing E R N).lone s = G.lone s :=
    fun s => rfl
  have hcount : ∀ s : State E N,
      ((({ G with ofNumber := f } : Forcing E R N).loners s (G.number e)).filter
        fun x => G.row x ≠ G.row e).length =
      ((G.loners s (G.number e)).filter fun x => G.row x ≠ G.row e).length := by
    intro s
    rw [loners, loners, hlone]
    exact (((hf.perm _).filter _).filter _).length_eq
  rw [Forcing.remove, Forcing.remove]
  split_ifs
  · rw [afterRemoval, afterRemoval, again, again, hcount]
    rfl
  · rfl

theorem Reordered.claim (hG : G.WF) (s : State E N) {e : E} (he : e ∈ G.ofRow (G.row e)) :
    ({ G with ofNumber := f } : Forcing E R N).claim s e = G.claim s e := by
  have hremove : ({ G with ofNumber := f } : Forcing E R N).remove = G.remove :=
    funext fun s => funext fun x => hf.remove s x
  rw [Forcing.claim, Forcing.claim, hremove]
  dsimp only
  rcases hf.few (G.number e) with heq | ⟨r₁, r₂, hrows⟩
  · rw [heq]
  · generalize ht : (G.ofRow (G.row e)).foldl G.remove { s with claims := s.claims ++ [e] } = t
    -- the edges of the row itself are gone, so only one row is left
    have hgone : ∀ x ∈ G.ofNumber (G.number e), G.row x = G.row e → x ∉ t.live := by
      intro x hx hrow hlive
      rw [← ht, mem_foldl_remove] at hlive
      have hmem := (hG.both x).2 ((hG.number_eq hx).symm ▸ hx)
      exact hlive.2 (hrow ▸ hmem)
    obtain ⟨r, hother⟩ : ∃ r, ∀ x ∈ G.ofNumber (G.number e), G.row x ≠ G.row e → G.row x = r := by
      rcases hrows e ((hG.both e).1 he) with h₁ | h₂
      · exact ⟨r₂, fun x hx hne => (hrows x hx).resolve_left (h₁ ▸ hne)⟩
      · exact ⟨r₁, fun x hx hne => (hrows x hx).resolve_right (h₂ ▸ hne)⟩
    have hdead : ∀ x ∈ G.ofNumber (G.number e), decide (G.row x = r) = false → x ∉ t.live := by
      intro x hx hne
      apply hgone x hx
      by_contra hrow
      simp [hother x hx hrow] at hne
    rw [foldl_remove_filter (G.row · = r) (G.ofNumber _) t hdead,
      foldl_remove_filter (G.row · = r) (f _) t
        fun x hx => hdead x ((hf.perm _).mem_iff.1 hx), hf.rows]

theorem Reordered.propagate (hG : G.WF) {bound : Nat} {s : State E N} (h : G.Settled s)
    (hbound : s.live.card ≤ bound) :
    ({ G with ofNumber := f } : Forcing E R N).propagate bound s = G.propagate bound s := by
  obtain ⟨t, ht, _⟩ := propagate_gives hG h hbound
  have hsame : Gives (fun r => r = t)
      (({ G with ofNumber := f } : Forcing E R N).propagate bound s) := by
    apply loop_rel (fun a b => a = b ∧ G.Settled a) (fun a b => a = b) _ _ s s t ⟨rfl, h⟩ ht
    rintro a b ⟨rfl, ha⟩
    have hloners : ∀ n rest, only (({ G with ofNumber := f } : Forcing E R N).loners
        { a with pending := rest } n) = only (G.loners { a with pending := rest } n) :=
      fun n rest => only_perm ((hf.perm n).filter _)
    rw [propagateBody, propagateBody]
    cases hpending : a.pending with
    | nil => exact Or.inr ⟨a, a, rfl, rfl, rfl⟩
    | cons n rest =>
      have hpop : G.Settled { a with pending := rest } := ha.of_pending rfl rfl rfl
      dsimp only
      rw [hloners]
      cases hx : only (G.loners { a with pending := rest } n) with
      | none => exact Or.inl ⟨_, _, rfl, rfl, rfl, hpop⟩
      | some x =>
        have hmem : x ∈ G.loners { a with pending := rest } n :=
          only_eq_some.1 hx ▸ List.mem_singleton_self x
        have hlive : x ∈ a.live := by
          have hlone := (List.mem_filter.1 hmem).2
          simp only [lone, Bool.and_eq_true, decide_eq_true_eq] at hlone
          exact hlone.1.1
        dsimp only
        rw [hf.claim hG _ (ha.edge x hlive)]
        split_ifs
        · exact Or.inr ⟨_, _, rfl, rfl, rfl⟩
        · exact Or.inl ⟨_, _, rfl, rfl, rfl, hpop.claim hG hlive⟩
  obtain ⟨t', ht', rfl⟩ := hsame
  rw [ht', ht]

/-- A run does not depend on the order of the edges of a number that two rows list at most. -/
theorem Reordered.run (hG : G.WF) {bound : Nat} {s : State E N} {numbers : List N}
    (h : G.Settled s) (hbound : s.live.card ≤ bound)
    (hnumbers : ∀ e ∈ s.live, G.number e ∈ numbers) :
    ({ G with ofNumber := f } : Forcing E R N).run bound s numbers = G.run bound s numbers := by
  obtain ⟨result, hresult, _⟩ := run_gives hG h hbound hnumbers
  rw [hresult]
  rw [Forcing.run] at hresult ⊢
  split_ifs at hresult ⊢
  · exact hresult
  · have hsame : Gives (fun r => r = result)
        (loop (({ G with ofNumber := f } : Forcing E R N).runBody bound) (bound + 1)
          (s, numbers)) := by
      apply loop_rel (fun a b => a = b ∧ G.Settled a.1 ∧ a.1.live.card ≤ bound) (fun a b => a = b)
        _ _ (s, numbers) (s, numbers) result ⟨rfl, h, hbound⟩ hresult
      rintro ⟨a, numbers⟩ b ⟨rfl, ha, hcard⟩
      obtain ⟨t, ht, hst, hsub⟩ := propagate_gives hG ha hcard
      rw [runBody, runBody, hf.propagate hG ha hcard]
      simp only [ht, Option.bind_eq_bind, Option.bind_some]
      have hempty : ∀ n, (({ G with ofNumber := f } : Forcing E R N).wanted t n).isEmpty =
          (G.wanted t n).isEmpty := fun n => ((hf.perm n).filter _).isEmpty_eq
      have hnarrow : ∀ n, only (({ G with ofNumber := f } : Forcing E R N).narrowest t n) =
          only (G.narrowest t n) := by
        intro n
        have hperm := (hf.perm n).filter (· ∈ t.live)
        apply only_perm
        rw [narrowest, narrowest]
        refine (hperm.filter _).trans (List.Perm.of_eq (List.filter_congr fun x _ => ?_))
        exact hperm.all_eq
      simp only [hempty, hnarrow]
      split_ifs
      · exact Or.inr ⟨_, _, rfl, rfl, rfl⟩
      · split
        · exact Or.inr ⟨_, _, rfl, rfl, rfl⟩
        · rename_i n rest _
          split
          · rename_i x hx
            have hmem : x ∈ G.narrowest t n := only_eq_some.1 hx ▸ List.mem_singleton_self x
            have hlive := ((mem_wanted hG).1 (List.mem_filter.1 hmem).1).2.2
            rw [hf.claim hG t (hst.edge x hlive)]
            refine Or.inl ⟨_, _, rfl, rfl, rfl, hst.claim hG hlive, ?_⟩
            exact Nat.le_trans (Nat.le_of_lt (claim_card hst hlive))
              (Nat.le_trans (Finset.card_le_card hsub) hcard)
          · exact Or.inr ⟨_, _, rfl, rfl, rfl⟩
    obtain ⟨r, hr, rfl⟩ := hsame
    exact hr

end Forcing

end Sunpack.Lib
