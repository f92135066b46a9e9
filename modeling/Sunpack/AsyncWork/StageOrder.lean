import Mathlib.Data.List.MinMax
import Mathlib.Data.Prod.Lex
import Sunpack.AsyncWork.StageQueue

/-!
# The order in which stage jobs leave

The broker numbers its jobs when it queues them. With growing numbers the oldest job of a bucket is
its head, so the best head is the best job of the queue: every run of a `_StageWorkQueue` answers as
the plain list of the queued jobs does.
-/

namespace Sunpack.AsyncWork

open Lib

namespace StageWorkQueue

/-! ## Ranks -/

/-- A job is better with a greater aged priority, and among equal ones if it is older. -/
def rank (currentSequence : Nat) (head : Nat × Nat) : Nat ×ₗ Natᵒᵈ :=
  toLex (aged currentSequence head, OrderDual.toDual head.2)

def itemRank (lower : Text → Text) (currentSequence : Nat) (item : WorkItem) : Nat ×ₗ Natᵒᵈ :=
  rank currentSequence (priority lower item, item.sequence)

theorem outranks_eq (currentSequence : Nat) (head other : Nat × Nat) :
    outranks currentSequence head other =
      decide (rank currentSequence other < rank currentSequence head) := by
  rw [Bool.eq_iff_iff, decide_eq_true_eq, rank, rank, Prod.Lex.toLex_lt_toLex, OrderDual.toDual_lt_toDual]
  unfold outranks
  simp only [Bool.or_eq_true, Bool.and_eq_true, decide_eq_true_eq]
  exact or_congr_right (and_congr_left' eq_comm)

theorem sequence_of_rank {lower : Text → Text} {currentSequence : Nat} {item other : WorkItem}
    (h : itemRank lower currentSequence item = itemRank lower currentSequence other) :
    item.sequence = other.sequence :=
  OrderDual.toDual_inj.1 (Prod.ext_iff.1 (toLex_inj.1 h)).2

/-- An older job of the same priority is at least as good. -/
theorem rank_le_rank (currentSequence p : Nat) {old new : Nat} (h : old ≤ new) :
    rank currentSequence (p, new) ≤ rank currentSequence (p, old) := by
  rw [rank, rank, Prod.Lex.toLex_le_toLex]
  unfold aged
  have hage : (currentSequence - new) / 32 ≤ (currentSequence - old) / 32 :=
    Nat.div_le_div_right (by omega)
  rcases Nat.lt_or_ge (p + (currentSequence - new) / 32) (p + (currentSequence - old) / 32)
    with hlt | hge
  · exact .inl hlt
  · exact .inr ⟨by dsimp only; omega, OrderDual.toDual_le_toDual.2 h⟩

theorem best_greatest {α β : Type} [LinearOrder β] (key : α → β) {as : List α} {a : α}
    (h : best (fun a b => decide (key b < key a)) as = some a) :
    a ∈ as ∧ ∀ b ∈ as, key b ≤ key a := by
  have hfold (as : List α) (b : α) :
      key b ≤ key (as.foldl (fun best a => if decide (key best < key a) then a else best) b) ∧
        ∀ c ∈ as, key c ≤
          key (as.foldl (fun best a => if decide (key best < key a) then a else best) b) := by
    induction as generalizing b with
    | nil => exact ⟨le_rfl, fun c hc => absurd hc List.not_mem_nil⟩
    | cons a as ih =>
      rw [List.foldl_cons]
      obtain ⟨hle, hall⟩ := ih (if decide (key b < key a) then a else b)
      have hstep : key b ≤ key (if decide (key b < key a) then a else b) ∧
          key a ≤ key (if decide (key b < key a) then a else b) := by
        split_ifs with hlt
        · exact ⟨(of_decide_eq_true hlt).le, le_rfl⟩
        · exact ⟨le_rfl, le_of_not_gt fun hgt => hlt (decide_eq_true hgt)⟩
      refine ⟨hstep.1.trans hle, fun c hc => ?_⟩
      rcases List.mem_cons.1 hc with rfl | hc
      · exact hstep.2.trans hle
      · exact hall c hc
  cases as with
  | nil => exact absurd h (by simp [best])
  | cons a' as =>
    obtain ⟨x, hx, hbest⟩ := best_mem (fun a b => decide (key b < key a)) (List.cons_ne_nil a' as)
    obtain rfl := Option.some.inj (hbest.symm.trans h)
    refine ⟨hx, fun b hb => ?_⟩
    obtain ⟨hle, hall⟩ := hfold as a'
    have heq : x = as.foldl (fun best a => if decide (key best < key a) then a else best) a' :=
      (Option.some.inj hbest).symm
    rw [heq]
    rcases List.mem_cons.1 hb with rfl | hb
    · exact hle
    · exact hall b hb

/-! ## Buckets in order -/

variable {lower : Text → Text} {q : StageWorkQueue} {item : WorkItem}

structure Ordered (lower : Text → Text) (q : StageWorkQueue) : Prop where
  valid : q.Valid lower
  sorted : ∀ p jobs, q.stages.get? p = some jobs → jobs.keys.Pairwise (· < ·)

theorem ordered_empty : Ordered lower {} := ⟨valid_empty, fun _ _ h => absurd h (by simp)⟩

theorem Ordered.setBucket_sorted (h : q.Ordered lower) {p : Nat} {jobs : Dict Nat WorkItem}
    (hjobs : jobs.keys.Pairwise (· < ·)) :
    ∀ p' jobs', (setBucket q.stages p jobs).get? p' = some jobs' → jobs'.keys.Pairwise (· < ·) := by
  intro p' jobs' hget
  unfold setBucket at hget
  split_ifs at hget with hempty
  · rw [Dict.get?_erase] at hget
    split_ifs at hget
    exact h.sorted p' jobs' hget
  · rw [Dict.get?_set] at hget
    split_ifs at hget
    · exact Option.some.inj hget ▸ hjobs
    · exact h.sorted p' jobs' hget

theorem keys_erase_sorted {jobs : Dict Nat WorkItem} (h : jobs.keys.Pairwise (· < ·)) (k : Nat) :
    (jobs.erase k).keys.Pairwise (· < ·) :=
  h.sublist ((Dict.drop_sublist k jobs.entries).map Prod.fst)

/-- The head of a bucket is its oldest job. -/
theorem Ordered.head_oldest (h : q.Ordered lower) {p : Nat} {jobs : Dict Nat WorkItem}
    (hp : q.stages.get? p = some jobs) {e : Nat × WorkItem} {rest : List (Nat × WorkItem)}
    (he : jobs.entries = e :: rest) {sequence : Nat} {x : WorkItem}
    (hx : jobs.get? sequence = some x) : e.1 ≤ sequence := by
  have hsorted := h.sorted p jobs hp
  rw [Dict.keys, he, List.map_cons, List.pairwise_cons] at hsorted
  have hmem := Dict.mem_entries.2 hx
  rw [he] at hmem
  rcases List.mem_cons.1 hmem with rfl | hmem
  · exact le_rfl
  · exact (hsorted.1 sequence (List.mem_map_of_mem hmem)).le

/-- A bucket has one head. -/
theorem heads_unique {head head' : Nat × Nat} (h : head ∈ q.heads) (h' : head' ∈ q.heads)
    (hp : head.1 = head'.1) : head = head' := by
  obtain ⟨e, he, heq⟩ := List.mem_filterMap.1 h
  obtain ⟨e', he', heq'⟩ := List.mem_filterMap.1 h'
  obtain ⟨k, hk, rfl⟩ := Option.map_eq_some_iff.1 heq
  obtain ⟨k', hk', rfl⟩ := Option.map_eq_some_iff.1 heq'
  obtain ⟨p, jobs⟩ := e
  obtain ⟨p', jobs'⟩ := e'
  dsimp only at hp hk hk' ⊢
  subst hp
  obtain rfl := Option.some.inj ((Dict.mem_entries.1 he).symm.trans (Dict.mem_entries.1 he'))
  rw [Option.some.inj (hk.symm.trans hk')]

/-- Every job of a queue with buckets is at most as good as the head of its bucket. -/
theorem Ordered.exists_head (h : q.Ordered lower) (hfirst : q.first = none) {x : WorkItem}
    (hx : x ∈ q.items) : ∃ head ∈ q.heads, head.1 = priority lower x ∧ head.2 ≤ x.sequence := by
  rw [items, hfirst, Option.toList_none, List.nil_append] at hx
  obtain ⟨p, jobs, sequence, hp, hget⟩ := mem_bucketItems.1 hx
  obtain ⟨rfl, rfl⟩ := (h.valid.bucket p jobs hp).2 sequence x hget
  obtain ⟨e, rest, he⟩ := List.exists_cons_of_ne_nil (h.valid.bucket _ jobs hp).1
  refine ⟨(priority lower x, e.1), List.mem_filterMap.2 ⟨(_, jobs), Dict.mem_entries.2 hp, ?_⟩, rfl,
    h.head_oldest hp he hget⟩
  simp only [Dict.keys, he, List.map_cons, List.head?_cons, Option.map_some]

/-- Taking the head of a bucket. -/
theorem Ordered.pop (h : q.Ordered lower) (hfirst : q.first = none) {head : Nat × Nat}
    (hhead : head ∈ q.heads) :
    ∃ item q', q.pop head.1 = some (item, q') ∧ q'.Ordered lower ∧ q.items.Perm (item :: q'.items) ∧
      (priority lower item, item.sequence) = head := by
  obtain ⟨⟨p, jobs⟩, hmem, heq⟩ := List.mem_filterMap.1 hhead
  obtain ⟨sequence, hsequence, rfl⟩ := Option.map_eq_some_iff.1 heq
  have hp : q.stages.get? p = some jobs := Dict.mem_entries.1 hmem
  obtain ⟨e, rest, he⟩ := List.exists_cons_of_ne_nil (h.valid.bucket p jobs hp).1
  obtain rfl : e.1 = sequence := by
    rw [Dict.keys, he] at hsequence
    exact Option.some.inj hsequence
  have hget : jobs.get? e.1 = some e.2 := Dict.mem_entries.1 (by rw [he]; exact List.mem_cons_self)
  obtain ⟨hsame, hpriority⟩ := (h.valid.bucket p jobs hp).2 e.1 e.2 hget
  obtain ⟨hvalid, hperm⟩ := h.valid.take hfirst hp hget
  refine ⟨e.2, _, ?_, ⟨hvalid, h.setBucket_sorted (keys_erase_sorted (h.sorted p jobs hp) e.1)⟩,
    hperm, by rw [hsame, hpriority]⟩
  rw [StageWorkQueue.pop, hp]
  simp only [Option.bind_some, he, List.head?_cons, Option.map_some]

/-! ## The operations -/

theorem items_ne_nil (h : q.Valid lower) : q.items ≠ [] ↔ q.size ≠ 0 := by
  rw [h.size, ne_eq, ne_eq, List.length_eq_zero_iff]

theorem Ordered.empty (h : q.Ordered lower) (hitems : q.items = []) :
    q.first = none ∧ q.stages.entries = [] := by
  refine ⟨?_, h.valid.no_buckets hitems⟩
  cases hfirst : q.first with
  | none => rfl
  | some first =>
    rw [items, hfirst] at hitems
    exact absurd hitems (by simp)

theorem Ordered.take_first (h : q.Ordered lower) (hfirst : q.first = some item) :
    Ordered lower { q with first := none, size := 0 } ∧
      q.items = item :: items { q with first := none, size := 0 } ∧
      items { q with first := none, size := 0 } = [] := by
  obtain ⟨hvalid, hitems⟩ := h.valid.take_first hfirst
  refine ⟨⟨hvalid, h.sorted⟩, hitems, ?_⟩
  rw [items, bucketItems, (h.valid.first item hfirst).1]
  rfl

/-- A head that is best by a key that is older in each bucket gives the best job. -/
theorem Ordered.pop_best (h : q.Ordered lower) (hfirst : q.first = none) (hne : q.items ≠ [])
    {β : Type} [LinearOrder β] (key : Nat × Nat → β)
    (hkey : ∀ p old new, old ≤ new → key (p, new) ≤ key (p, old)) :
    ∃ item q', ((best (fun head other => decide (key other < key head)) q.heads).bind
        fun head => q.pop head.1) = some (item, q') ∧ q'.Ordered lower ∧
      q.items.Perm (item :: q'.items) ∧
      ∀ other ∈ q.items, key (priority lower other, other.sequence) ≤
        key (priority lower item, item.sequence) := by
  have hheads := (h.valid.heads hfirst ((items_ne_nil h.valid).1 hne)).1
  obtain ⟨head, -, hbest⟩ := best_mem (fun head other => decide (key other < key head)) hheads
  obtain ⟨hmem, hgreatest⟩ := best_greatest key hbest
  obtain ⟨item, q', hpop, hordered, hperm, hitem⟩ := h.pop hfirst hmem
  refine ⟨item, q', by rw [hbest, Option.bind_some, hpop], hordered, hperm, fun other hother => ?_⟩
  obtain ⟨head', hhead', hpriority, hle⟩ := h.exists_head hfirst hother
  rw [hitem, ← hpriority]
  exact (hkey head'.1 head'.2 other.sequence hle).trans (hgreatest head' hhead')

/-- What `take_prioritized` takes is greatest. -/
theorem Ordered.takePrioritized (h : q.Ordered lower) (hne : q.items ≠ []) (currentSequence : Nat) :
    ∃ item q', q.takePrioritized currentSequence = some (item, q') ∧ q'.Ordered lower ∧
      q.items.Perm (item :: q'.items) ∧
      ∀ other ∈ q.items, itemRank lower currentSequence other ≤
        itemRank lower currentSequence item := by
  unfold StageWorkQueue.takePrioritized
  cases hfirst : q.first with
  | some item =>
    obtain ⟨hordered, hitems, hnone⟩ := h.take_first hfirst
    refine ⟨item, _, rfl, hordered, by rw [hitems], fun other hother => ?_⟩
    rw [hitems, hnone, List.mem_singleton] at hother
    rw [hother]
  | none =>
    have houtranks : outranks currentSequence = fun head other =>
        decide (rank currentSequence other < rank currentSequence head) := by
      funext head other
      exact outranks_eq currentSequence head other
    dsimp only
    split
    · -- the only bucket
      rename_i p hkeys
      obtain ⟨x, hx⟩ := List.exists_mem_of_ne_nil _ hne
      have honly (head : Nat × Nat) (hhead : head ∈ q.heads) : head.1 = p := by
        have hstages := (h.valid.heads hfirst ((items_ne_nil h.valid).1 hne)).2 head hhead
        have hmem := Dict.mem_keys.2 hstages
        rw [hkeys] at hmem
        exact List.mem_singleton.1 hmem
      obtain ⟨head, hhead, -, -⟩ := h.exists_head hfirst hx
      obtain ⟨item, q', hpop, hordered, hperm, hitem⟩ := h.pop hfirst hhead
      rw [honly head hhead] at hpop
      refine ⟨item, q', hpop, hordered, hperm, fun other hother => ?_⟩
      obtain ⟨head', hhead', hpriority, hle⟩ := h.exists_head hfirst hother
      have hsame : head' = head :=
        heads_unique hhead' hhead ((honly head' hhead').trans (honly head hhead).symm)
      rw [itemRank, itemRank, hitem, ← hpriority, ← hsame]
      exact rank_le_rank currentSequence head'.1 hle
    · rw [houtranks]
      exact h.pop_best hfirst hne (rank currentSequence) fun p old new => rank_le_rank currentSequence p

theorem Ordered.popleft (h : q.Ordered lower) (hne : q.items ≠ []) :
    ∃ item q', q.popleft = some (item, q') ∧ q'.Ordered lower ∧ q.items.Perm (item :: q'.items) ∧
      ∀ other ∈ q.items, item.sequence ≤ other.sequence := by
  unfold StageWorkQueue.popleft
  cases hfirst : q.first with
  | some item =>
    obtain ⟨hordered, hitems, hnone⟩ := h.take_first hfirst
    refine ⟨item, _, rfl, hordered, by rw [hitems], fun other hother => ?_⟩
    rw [hitems, hnone, List.mem_singleton] at hother
    rw [hother]
  | none =>
    exact h.pop_best hfirst hne (fun head => OrderDual.toDual head.2)
      fun p old new hle => OrderDual.toDual_le_toDual.2 hle

theorem insert_sorted {stages : Dict Nat (Dict Nat WorkItem)}
    (hsorted : ∀ p jobs, stages.get? p = some jobs → jobs.keys.Pairwise (· < ·))
    (hless : ∀ p jobs, stages.get? p = some jobs → ∀ k ∈ jobs.keys, k < item.sequence) (p : Nat) :
    ∀ p' jobs', (stages.set p (((stages.get? p).getD ∅).set item.sequence item)).get? p' =
      some jobs' → jobs'.keys.Pairwise (· < ·) := by
  intro p' jobs' hget
  rw [Dict.get?_set] at hget
  split_ifs at hget
  · obtain rfl := Option.some.inj hget
    cases hp : stages.get? p with
    | none => exact List.pairwise_singleton _ _
    | some jobs =>
      have habsent : jobs.get? item.sequence = none := by
        rw [Dict.get?_eq_none]
        exact fun hmem => (hless p jobs hp _ hmem).false
      rw [Option.getD_some, Dict.keys_set_new habsent, List.pairwise_append]
      refine ⟨hsorted p jobs hp, List.pairwise_singleton _ _, fun k hk k' hk' => ?_⟩
      rw [List.mem_singleton.1 hk']
      exact hless p jobs hp k hk
  · exact hsorted p' jobs' hget

theorem Ordered.append (h : q.Ordered lower) (hnew : ∀ x ∈ q.items, x.sequence < item.sequence) :
    (q.append lower item).Ordered lower ∧ (q.append lower item).items.Perm (item :: q.items) := by
  obtain ⟨hvalid, hperm⟩ := h.valid.append fun x hx => (hnew x hx).ne
  refine ⟨⟨hvalid, ?_⟩, hperm⟩
  have hless : ∀ p jobs, q.stages.get? p = some jobs → ∀ k ∈ jobs.keys, k < item.sequence := by
    intro p jobs hp k hk
    obtain ⟨x, hx⟩ := Option.ne_none_iff_exists'.1 (Dict.mem_keys.1 hk)
    rw [← ((h.valid.bucket p jobs hp).2 k x hx).1]
    exact hnew x (List.mem_append_right _ (mem_bucketItems.2 ⟨p, jobs, k, hp, hx⟩))
  unfold StageWorkQueue.append
  split_ifs with hsize
  · exact h.sorted
  cases hfirst : q.first with
  | none => exact insert_sorted h.sorted hless _
  | some first =>
    refine insert_sorted (fun p jobs hp => ?_) (fun p jobs hp k hk => ?_) _
    · rw [Dict.get?_set] at hp
      split_ifs at hp
      · obtain rfl := Option.some.inj hp
        exact List.pairwise_singleton _ _
      · exact h.sorted p jobs hp
    · rw [Dict.get?_set] at hp
      split_ifs at hp
      · obtain rfl := Option.some.inj hp
        obtain rfl : k = first.sequence := List.mem_singleton.1 hk
        exact hnew first (by rw [items, hfirst]; exact List.mem_cons_self)
      · exact hless p jobs hp k hk

theorem Ordered.remove (h : q.Ordered lower)
    (hunique : ∀ x ∈ q.items, x.sequence = item.sequence → x = item) :
    (item ∈ q.items ∧ ∃ q', q.remove lower item = (true, q') ∧ q'.Ordered lower ∧
      q.items.Perm (item :: q'.items)) ∨ (item ∉ q.items ∧ q.remove lower item = (false, q)) := by
  rcases h.valid.remove hunique with ⟨hin, q', hremove, hvalid, hperm⟩ | hout
  · refine .inl ⟨hin, q', hremove, ⟨hvalid, ?_⟩, hperm⟩
    unfold StageWorkQueue.remove at hremove
    split_ifs at hremove
    · obtain rfl := (Prod.mk.inj hremove).2
      exact h.sorted
    · cases hp : q.stages.get? (priority lower item) with
      | none => simp [hp] at hremove
      | some jobs =>
        cases hget : jobs.get? item.sequence with
        | none => simp [hp, hget] at hremove
        | some x =>
          simp only [hp, hget, Prod.mk.injEq, true_and] at hremove
          rw [← hremove]
          exact h.setBucket_sorted (keys_erase_sorted (h.sorted _ jobs hp) item.sequence)
  · exact .inr hout

/-! ## Runs -/

inductive Call
  | append (item : WorkItem)
  | remove (item : WorkItem)
  | takePrioritized (currentSequence : Nat)
  | popleft

inductive Answer
  | appended
  | removed (found : Bool)
  | taken (item : Option WorkItem)
deriving DecidableEq

/-- A queue without jobs raises when a job is taken, and is left as it was. -/
def step (lower : Text → Text) (q : StageWorkQueue) : Call → Answer × StageWorkQueue
  | .append item => (.appended, q.append lower item)
  | .remove item => (.removed (q.remove lower item).1, (q.remove lower item).2)
  | .takePrioritized currentSequence =>
    match q.takePrioritized currentSequence with
    | some taken => (.taken (some taken.1), taken.2)
    | none => (.taken none, q)
  | .popleft =>
    match q.popleft with
    | some taken => (.taken (some taken.1), taken.2)
    | none => (.taken none, q)

/-- The answers of a run, each with the number of jobs after it. -/
def answers (lower : Text → Text) (q : StageWorkQueue) : List Call → List (Answer × Nat)
  | [] => []
  | c :: cs => ((q.step lower c).1, (q.step lower c).2.size) :: answers lower (q.step lower c).2 cs

/-- The jobs that calls append. -/
def appended (calls : List Call) : List WorkItem :=
  calls.filterMap fun
    | .append item => some item
    | _ => none

/-- The calls of a broker: it numbers its jobs when it appends them, and cancels jobs of its own. -/
structure Numbered (calls : List Call) : Prop where
  growing : (appended calls).Pairwise fun a b => a.sequence < b.sequence
  removed : ∀ item, Call.remove item ∈ calls → item ∈ appended calls

end StageWorkQueue

/-! ## The plain list -/

namespace StageList

open StageWorkQueue (Answer itemRank)

/-- The best queued job is taken: the greatest aged priority, and of equal ones the oldest. -/
def step (lower : Text → Text) (jobs : List WorkItem) : StageWorkQueue.Call → Answer × List WorkItem
  | .append item => (.appended, jobs ++ [item])
  | .remove item => (.removed (decide (item ∈ jobs)), jobs.erase item)
  | .takePrioritized currentSequence =>
    let taken := jobs.argmax (itemRank lower currentSequence)
    (.taken taken, taken.elim jobs jobs.erase)
  | .popleft =>
    let taken := jobs.argmin (·.sequence)
    (.taken taken, taken.elim jobs jobs.erase)

def answers (lower : Text → Text) (jobs : List WorkItem) :
    List StageWorkQueue.Call → List (Answer × Nat)
  | [] => []
  | c :: cs =>
    ((step lower jobs c).1, (step lower jobs c).2.length) :: answers lower (step lower jobs c).2 cs

end StageList

namespace StageWorkQueue

variable {lower : Text → Text} {q : StageWorkQueue} {item : WorkItem} {jobs : List WorkItem}

/-- The queue holds the jobs of the list. -/
structure Holds (lower : Text → Text) (q : StageWorkQueue) (jobs : List WorkItem) : Prop where
  ordered : q.Ordered lower
  items : q.items.Perm jobs
  unique : ∀ a ∈ jobs, ∀ b ∈ jobs, a.sequence = b.sequence → a = b

theorem Holds.size (h : Holds lower q jobs) : q.size = jobs.length := by
  rw [h.ordered.valid.size, h.items.length_eq]

/-- Taking the job that both sides choose. -/
theorem Holds.erase (h : Holds lower q jobs) {q' : StageWorkQueue} (hordered : q'.Ordered lower)
    (hperm : q.items.Perm (item :: q'.items)) : Holds lower q' (jobs.erase item) where
  ordered := hordered
  items := by
    have := (hperm.symm.trans h.items).erase item
    rwa [List.erase_cons_head] at this
  unique a ha b hb := h.unique a (List.mem_of_mem_erase ha) b (List.mem_of_mem_erase hb)

theorem Holds.argmax (h : Holds lower q jobs) {β : Type} [LinearOrder β] {key : WorkItem → β}
    (hkey : ∀ a b, key a = key b → a.sequence = b.sequence) (hitem : item ∈ q.items)
    (hgreatest : ∀ other ∈ q.items, key other ≤ key item) : jobs.argmax key = some item := by
  rw [← Option.mem_def, List.mem_argmax_iff]
  have hin := h.items.mem_iff.1 hitem
  refine ⟨hin, fun a ha => hgreatest a (h.items.mem_iff.2 ha), fun a ha hle => ?_⟩
  have heq := le_antisymm (hgreatest a (h.items.mem_iff.2 ha)) hle
  rw [h.unique a ha item hin (hkey a item heq)]

/-- One call: the same answer, and the queue holds the jobs that are left. -/
theorem Holds.step (h : Holds lower q jobs) (c : Call)
    (happend : ∀ item, c = .append item → ∀ x ∈ jobs, x.sequence < item.sequence)
    (hremove : ∀ item, c = .remove item → ∀ x ∈ jobs, x.sequence = item.sequence → x = item) :
    (q.step lower c).1 = (StageList.step lower jobs c).1 ∧
      Holds lower (q.step lower c).2 (StageList.step lower jobs c).2 := by
  cases c with
  | append item =>
    have hless := happend item rfl
    obtain ⟨hordered, hperm⟩ := h.ordered.append fun x hx => hless x (h.items.mem_iff.1 hx)
    refine ⟨rfl, hordered, hperm.trans ?_, fun a ha b hb heq => ?_⟩
    · exact (h.items.cons item).trans (List.perm_append_singleton item jobs).symm
    · rcases List.mem_append.1 ha with ha | ha <;> rcases List.mem_append.1 hb with hb | hb
      · exact h.unique a ha b hb heq
      · rw [List.mem_singleton.1 hb] at heq
        exact absurd heq (hless a ha).ne
      · rw [List.mem_singleton.1 ha] at heq
        exact absurd heq (hless b hb).ne'
      · rw [List.mem_singleton.1 ha, List.mem_singleton.1 hb]
  | remove item =>
    have hunique := hremove item rfl
    show Answer.removed (q.remove lower item).1 = .removed (decide (item ∈ jobs)) ∧
      Holds lower (q.remove lower item).2 (jobs.erase item)
    rcases h.ordered.remove fun x hx => hunique x (h.items.mem_iff.1 hx) with
      ⟨hin, q', heq, hordered, hperm⟩ | ⟨hout, heq⟩
    · rw [heq, decide_eq_true (h.items.mem_iff.1 hin)]
      exact ⟨rfl, h.erase hordered hperm⟩
    · have hnot : item ∉ jobs := fun hin => hout (h.items.mem_iff.2 hin)
      rw [heq, decide_eq_false hnot, List.erase_of_not_mem hnot]
      exact ⟨rfl, h⟩
  | takePrioritized currentSequence =>
    by_cases hne : q.items = []
    · have hjobs : jobs = [] := List.nil_perm.1 (hne ▸ h.items)
      have hnone : q.takePrioritized currentSequence = none := by
        obtain ⟨hfirst, hbuckets⟩ := h.ordered.empty hne
        simp only [StageWorkQueue.takePrioritized, hfirst, Dict.keys, heads, hbuckets]
        rfl
      subst hjobs
      rw [StageWorkQueue.step, hnone]
      exact ⟨rfl, h⟩
    · obtain ⟨item, q', htake, hordered, hperm, hgreatest⟩ :=
        h.ordered.takePrioritized hne currentSequence
      have hmax := h.argmax (fun a b => sequence_of_rank) (hperm.mem_iff.2 List.mem_cons_self)
        hgreatest
      rw [StageWorkQueue.step, StageList.step, htake, hmax]
      exact ⟨rfl, h.erase hordered hperm⟩
  | popleft =>
    by_cases hne : q.items = []
    · have hjobs : jobs = [] := List.nil_perm.1 (hne ▸ h.items)
      have hnone : q.popleft = none := by
        obtain ⟨hfirst, hbuckets⟩ := h.ordered.empty hne
        simp only [StageWorkQueue.popleft, hfirst, heads, hbuckets]
        rfl
      subst hjobs
      rw [StageWorkQueue.step, hnone]
      exact ⟨rfl, h⟩
    · obtain ⟨item, q', htake, hordered, hperm, holdest⟩ := h.ordered.popleft hne
      have hmin : jobs.argmin (·.sequence) = some item := by
        show jobs.argmax (fun x => OrderDual.toDual x.sequence) = some item
        exact h.argmax (fun a b heq => OrderDual.toDual_inj.1 heq)
          (hperm.mem_iff.2 List.mem_cons_self) holdest
      rw [StageWorkQueue.step, StageList.step, htake, hmin]
      exact ⟨rfl, h.erase hordered hperm⟩

theorem holds_empty : Holds lower {} [] :=
  ⟨ordered_empty, List.Perm.refl _, fun _ h => absurd h List.not_mem_nil⟩

/-- From a queue that holds a list on, both give the same answers. -/
theorem Holds.answers {all : List WorkItem} {calls : List Call} (h : Holds lower q jobs)
    (hgrowing : (jobs ++ appended calls).Pairwise fun a b => a.sequence < b.sequence)
    (hall : ∀ a ∈ all, ∀ b ∈ all, a.sequence = b.sequence → a = b) (hjobs : ∀ x ∈ jobs, x ∈ all)
    (happended : ∀ x ∈ appended calls, x ∈ all) (hremoved : ∀ x, Call.remove x ∈ calls → x ∈ all) :
    q.answers lower calls = StageList.answers lower jobs calls := by
  induction calls generalizing q jobs with
  | nil => rfl
  | cons c calls ih =>
    have hstep := h.step c
      (by
        rintro item rfl x hx
        exact (List.pairwise_append.1 hgrowing).2.2 x hx item List.mem_cons_self)
      (by
        rintro item rfl x hx
        exact hall x (hjobs x hx) item (hremoved item List.mem_cons_self))
    -- the jobs that stay were there, or the call appends them
    have hsub : ∃ new, (StageList.step lower jobs c).2.Sublist (jobs ++ new) ∧
        appended (c :: calls) = new ++ appended calls := by
      cases c with
      | append item => exact ⟨[item], List.Sublist.refl _, rfl⟩
      | remove item => exact ⟨[], by rw [List.append_nil]; exact List.erase_sublist, rfl⟩
      | takePrioritized currentSequence =>
        refine ⟨[], ?_, rfl⟩
        rw [List.append_nil, StageList.step]
        cases jobs.argmax (itemRank lower currentSequence) with
        | none => exact List.Sublist.refl _
        | some item => exact List.erase_sublist
      | popleft =>
        refine ⟨[], ?_, rfl⟩
        rw [List.append_nil, StageList.step]
        cases jobs.argmin (·.sequence) with
        | none => exact List.Sublist.refl _
        | some item => exact List.erase_sublist
    obtain ⟨new, hsub, hnew⟩ := hsub
    rw [hnew] at hgrowing happended
    have hrest := ih hstep.2
      (hgrowing.sublist (by rw [← List.append_assoc]; exact hsub.append_right _))
      (fun x hx => (List.mem_append.1 (hsub.subset hx)).elim (hjobs x) fun hx =>
        happended x (List.mem_append_left _ hx))
      (fun x hx => happended x (List.mem_append_right _ hx))
      (fun x hx => hremoved x (List.mem_cons_of_mem _ hx))
    show _ :: _ = _ :: _
    rw [hstep.1, hstep.2.size, hrest]

/-- Every run of a `_StageWorkQueue` with numbered jobs answers as the plain list does. -/
theorem answers_eq (lower : Text → Text) {calls : List Call} (h : Numbered calls) :
    answers lower {} calls = StageList.answers lower [] calls := by
  refine holds_empty.answers h.growing (fun a ha b hb heq => ?_)
    (fun x hx => absurd hx List.not_mem_nil) (fun x hx => hx) h.removed
  obtain ⟨i, hi, rfl⟩ := List.mem_iff_getElem.1 ha
  obtain ⟨j, hj, rfl⟩ := List.mem_iff_getElem.1 hb
  have hless := List.pairwise_iff_getElem.1 h.growing
  rcases Nat.lt_trichotomy i j with hlt | hij | hgt
  · exact absurd heq (hless i j hi hj hlt).ne
  · simp only [hij]
  · exact absurd heq (hless j i hj hi hgt).ne'

end StageWorkQueue

end Sunpack.AsyncWork
