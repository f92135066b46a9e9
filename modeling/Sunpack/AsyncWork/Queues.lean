import Sunpack.AsyncWork.Jobs

/-!
# Queues, order and jobs

The queues of the requests hold the queued jobs, each in the queue of its request; a request has a
queue as long as it has queued jobs, and stands in the order just then.
-/

namespace Sunpack.AsyncWork

open Lib RequestOrder

variable {α ε : Type}

structure Queued (lower : Text → Text) (queues : Dict Text RequestQueue) (order : RequestOrder)
    (jobs : Dict Nat (Job α ε)) : Prop where
  valid : ∀ key q, queues.get? key = some q →
    q.jobs.Valid lower ∧ q.jobs.items ≠ [] ∧ q.jobs.items.Nodup
  unlisted : ∀ key, queues.get? key = none → order.listing key = unlisted
  listed : ∀ key q, queues.get? key = some q → Listed (order.listing key) q.origin
  mem : ∀ key q item, queues.get? key = some q → item ∈ q.jobs.items →
    item.context.requestId = key ∧
      ∃ j, jobs.get? item.sequence = some j ∧ j.item = item ∧ j.place = .queued
  held : ∀ sequence j, jobs.get? sequence = some j → j.place = .queued →
    ∃ q, queues.get? j.item.context.requestId = some q ∧ j.item ∈ q.jobs.items

namespace Queued

variable {lower : Text → Text} {queues : Dict Text RequestQueue} {order : RequestOrder}
  {jobs : Dict Nat (Job α ε)} {key : Text} {q : RequestQueue} {item : WorkItem}

theorem empty {jobs : Dict Nat (Job α ε)}
    (hnone : ∀ sequence j, jobs.get? sequence = some j → j.place ≠ .queued) :
    Queued lower ∅ {} jobs where
  valid _ _ h := absurd h (by simp)
  unlisted _ _ := rfl
  listed _ _ h := absurd h (by simp)
  mem _ _ _ h := absurd h (by simp)
  held sequence j hget hplace := absurd hplace (hnone sequence j hget)

theorem proper (h : Queued lower queues order jobs) (key : Text) : Proper (order.listing key) := by
  cases hq : queues.get? key with
  | none => exact .inl (h.unlisted key hq)
  | some q => exact .inr ⟨q.origin, h.listed key q hq⟩

/-- A job that stays queued, or stays out of the queues. -/
theorem congr (h : Queued lower queues order jobs) {sequence : Nat} {j j' : Job α ε}
    (hget : jobs.get? sequence = some j) (hitem : j'.item = j.item)
    (hplace : j'.place = .queued ↔ j.place = .queued) :
    Queued lower queues order (jobs.set sequence j') where
  valid := h.valid
  unlisted := h.unlisted
  listed := h.listed
  mem key q x hq hx := by
    obtain ⟨hkey, jx, hjx, hjitem, hjplace⟩ := h.mem key q x hq hx
    refine ⟨hkey, ?_⟩
    rw [Dict.get?_set]
    split_ifs with heq
    · rw [heq, hget] at hjx
      obtain rfl := Option.some.inj hjx
      exact ⟨j', rfl, hitem.trans hjitem, hplace.2 hjplace⟩
    · exact ⟨jx, hjx, hjitem, hjplace⟩
  held s js hs hqueued := by
    rw [Dict.get?_set] at hs
    split_ifs at hs with heq
    · obtain rfl := Option.some.inj hs
      rw [hitem]
      exact h.held sequence j hget (hplace.1 hqueued)
    · exact h.held s js hs hqueued

/-- Two items of queues with one sequence are one item. -/
theorem unique (h : Queued lower queues order jobs) {key' : Text} {q' : RequestQueue}
    {item' : WorkItem} (hq : queues.get? key = some q) (hitem : item ∈ q.jobs.items)
    (hq' : queues.get? key' = some q') (hitem' : item' ∈ q'.jobs.items)
    (heq : item'.sequence = item.sequence) : item' = item := by
  obtain ⟨_, j, hj, hjitem, _⟩ := h.mem key q item hq hitem
  obtain ⟨_, j', hj', hjitem', _⟩ := h.mem key' q' item' hq' hitem'
  rw [heq, hj] at hj'
  obtain rfl := Option.some.inj hj'
  exact hjitem'.symm.trans hjitem

/-- An item is taken out of its queue and is queued no more. -/
theorem take (h : Queued lower queues order jobs)
    (hsequence : ∀ s j, jobs.get? s = some j → j.item.sequence = s) (hq : queues.get? key = some q)
    {rest : StageWorkQueue} (hrest : rest.Valid lower)
    (hperm : q.jobs.items.Perm (item :: rest.items)) {j' : Job α ε}
    (hplace : j'.place ≠ .queued) {queues' : Dict Text RequestQueue} {order' : RequestOrder}
    (hqueues : ∀ k, queues'.get? k =
      if k = key then if rest.size = 0 then none else some { q with jobs := rest }
      else queues.get? k)
    (horder : ∀ k ≠ key, order'.listing k = order.listing k)
    (hkey : if rest.size = 0 then order'.listing key = RequestOrder.unlisted
      else Listed (order'.listing key) q.origin) :
    Queued lower queues' order' (jobs.set item.sequence j') := by
  obtain ⟨_, _, hnodup⟩ := h.valid key q hq
  have hitem : item ∈ q.jobs.items := hperm.mem_iff.2 List.mem_cons_self
  obtain ⟨hitemNot, hrestNodup⟩ := List.nodup_cons.1 (hperm.nodup_iff.1 hnodup)
  have hsub (x : WorkItem) (hx : x ∈ rest.items) : x ∈ q.jobs.items :=
    hperm.mem_iff.2 (List.mem_cons_of_mem item hx)
  refine ⟨fun k qk hk => ?_, fun k hk => ?_, fun k qk hk => ?_, fun k qk x hk hx => ?_,
    fun s js hs hqueued => ?_⟩
  · rw [hqueues] at hk
    split_ifs at hk with heq hsize
    · obtain rfl := Option.some.inj hk
      refine ⟨hrest, fun hnil => hsize ?_, hrestNodup⟩
      rw [hrest.size, hnil, List.length_nil]
    · exact h.valid k qk hk
  · rw [hqueues] at hk
    split_ifs at hk with heq hsize
    · rw [heq]
      rwa [if_pos hsize] at hkey
    · rw [horder k heq]
      exact h.unlisted k hk
  · rw [hqueues] at hk
    split_ifs at hk with heq hsize
    · obtain rfl := Option.some.inj hk
      rw [heq]
      rwa [if_neg hsize] at hkey
    · rw [horder k heq]
      exact h.listed k qk hk
  · have hold : ∃ q', queues.get? k = some q' ∧ x ∈ q'.jobs.items ∧ x ≠ item := by
      rw [hqueues] at hk
      split_ifs at hk with heq hsize
      · obtain rfl := Option.some.inj hk
        refine ⟨q, heq ▸ hq, hsub x hx, ?_⟩
        rintro rfl
        exact hitemNot hx
      · refine ⟨qk, hk, hx, ?_⟩
        rintro rfl
        have h1 := (h.mem k qk x hk hx).1
        have h2 := (h.mem key q x hq hitem).1
        exact heq (h1.symm.trans h2)
    obtain ⟨q', hq', hx', hne⟩ := hold
    obtain ⟨hxkey, jx, hjx, hjitem, hjplace⟩ := h.mem k q' x hq' hx'
    refine ⟨hxkey, jx, ?_, hjitem, hjplace⟩
    rw [Dict.get?_set_of_ne _ fun hs => hne (h.unique hq hitem hq' hx' hs)]
    exact hjx
  · rw [Dict.get?_set] at hs
    split_ifs at hs with heq
    · obtain rfl := Option.some.inj hs
      exact absurd hqueued hplace
    · obtain ⟨q', hq', hin⟩ := h.held s js hs hqueued
      have hne : js.item ≠ item := by
        intro hsame
        exact heq ((hsequence s js hs).symm.trans (by rw [hsame]))
      rw [hqueues]
      by_cases hk : js.item.context.requestId = key
      · rw [hk, hq] at hq'
        obtain rfl := Option.some.inj hq'
        have hleft := (List.mem_cons.1 (hperm.mem_iff.1 hin)).resolve_left hne
        have hsize : rest.size ≠ 0 := by
          rw [hrest.size]
          exact Nat.ne_of_gt (List.length_pos_of_mem hleft)
        rw [if_pos hk, if_neg hsize]
        exact ⟨_, rfl, hleft⟩
      · rw [if_neg hk]
        exact ⟨q', hq', hin⟩

/-- The jobs of a request, as a queue. -/
def jobsOf (queues : Dict Text RequestQueue) (key : Text) : StageWorkQueue :=
  ((queues.get? key).map (·.jobs)).getD {}

theorem jobsOf_valid (h : Queued lower queues order jobs) (key : Text) :
    (jobsOf queues key).Valid lower ∧ (jobsOf queues key).items.Nodup := by
  unfold jobsOf
  cases hq : queues.get? key with
  | none => exact ⟨StageWorkQueue.valid_empty, List.nodup_nil⟩
  | some q =>
    obtain ⟨hvalid, _, hnodup⟩ := h.valid key q hq
    exact ⟨hvalid, hnodup⟩

theorem mem_jobsOf : item ∈ (jobsOf queues key).items ↔
    ∃ q, queues.get? key = some q ∧ item ∈ q.jobs.items := by
  unfold jobsOf
  cases hq : queues.get? key with
  | none =>
    constructor
    · intro hin
      exact absurd hin List.not_mem_nil
    · rintro ⟨q, hq', _⟩
      exact absurd hq' (by simp)
  | some q => simp

/-- A new item is put into the queue of its request. -/
theorem enqueue (h : Queued lower queues order jobs) {queue : RequestQueue}
    (hqueue : queue.jobs = jobsOf queues key) {order' : RequestOrder}
    (horder : ∀ k ≠ key, order'.listing k = order.listing k)
    (hkey : Listed (order'.listing key) queue.origin) {j : Job α ε}
    (hid : j.item.context.requestId = key) (hnew : jobs.get? j.item.sequence = none)
    (hplace : j.place = .queued) :
    Queued lower (queues.set key { queue with jobs := queue.jobs.append lower j.item }) order'
      (jobs.set j.item.sequence j) := by
  obtain ⟨hvalid, hnodup⟩ := h.jobsOf_valid key
  have hother (x : WorkItem) (hx : x ∈ (jobsOf queues key).items) :
      x.sequence ≠ j.item.sequence := by
    obtain ⟨q, hq, hin⟩ := mem_jobsOf.1 hx
    obtain ⟨_, jx, hjx, _⟩ := h.mem key q x hq hin
    intro heq
    rw [heq, hnew] at hjx
    exact absurd hjx (by simp)
  rw [← hqueue] at hvalid hnodup hother
  obtain ⟨happend, hperm⟩ := hvalid.append hother
  refine ⟨fun k qk hk => ?_, fun k hk => ?_, fun k qk hk => ?_, fun k qk x hk hx => ?_,
    fun s js hs hqueued => ?_⟩
  · rw [Dict.get?_set] at hk
    split_ifs at hk with heq
    · obtain rfl := Option.some.inj hk
      refine ⟨happend, fun hnil => ?_, ?_⟩
      · rw [hnil] at hperm
        exact absurd hperm.length_eq (by simp)
      · refine hperm.nodup_iff.2 (List.nodup_cons.2 ⟨fun hin => hother _ hin rfl, hnodup⟩)
    · exact h.valid k qk hk
  · rw [Dict.get?_set] at hk
    split_ifs at hk with heq
    rw [horder k heq]
    exact h.unlisted k hk
  · rw [Dict.get?_set] at hk
    split_ifs at hk with heq
    · obtain rfl := Option.some.inj hk
      rw [heq]
      exact hkey
    · rw [horder k heq]
      exact h.listed k qk hk
  · have hcases : x = j.item ∧ k = key ∨ ∃ q', queues.get? k = some q' ∧ x ∈ q'.jobs.items := by
      rw [Dict.get?_set] at hk
      split_ifs at hk with heq
      · obtain rfl := Option.some.inj hk
        rcases List.mem_cons.1 (hperm.mem_iff.1 hx) with hself | hold
        · exact .inl ⟨hself, heq⟩
        · rw [hqueue] at hold
          exact .inr (heq ▸ mem_jobsOf.1 hold)
      · exact .inr ⟨qk, hk, hx⟩
    rcases hcases with ⟨rfl, rfl⟩ | ⟨q', hq', hin⟩
    · exact ⟨hid, j, Dict.get?_set_self _ _ _, rfl, hplace⟩
    · obtain ⟨hxkey, jx, hjx, hjitem, hjplace⟩ := h.mem k q' x hq' hin
      refine ⟨hxkey, jx, ?_, hjitem, hjplace⟩
      rw [Dict.get?_set_of_ne _ ?_]
      · exact hjx
      · intro heq
        rw [heq, hnew] at hjx
        exact absurd hjx (by simp)
  · rw [Dict.get?_set] at hs
    have hmem (x : WorkItem) (hkey' : x.context.requestId = key)
        (hx : x ∈ (queue.jobs.append lower j.item).items) :
        ∃ q, (queues.set key { queue with jobs := queue.jobs.append lower j.item }).get?
          x.context.requestId = some q ∧ x ∈ q.jobs.items := by
      rw [hkey', Dict.get?_set_self]
      exact ⟨_, rfl, hx⟩
    split_ifs at hs with heq
    · obtain rfl := Option.some.inj hs
      exact hmem j.item hid (hperm.mem_iff.2 List.mem_cons_self)
    · obtain ⟨q', hq', hin⟩ := h.held s js hs hqueued
      by_cases hk : js.item.context.requestId = key
      · refine hmem js.item hk (hperm.mem_iff.2 (List.mem_cons_of_mem _ ?_))
        rw [hqueue]
        exact mem_jobsOf.2 ⟨q', hk ▸ hq', hin⟩
      · rw [Dict.get?_set_of_ne _ hk]
        exact ⟨q', hq', hin⟩

/-! ## All queued items -/

/-- The items of all queues. -/
def allItems (queues : Dict Text RequestQueue) : List WorkItem :=
  queues.entries.flatMap fun e => e.2.jobs.items

theorem mem_allItems : item ∈ allItems queues ↔
    ∃ key q, queues.get? key = some q ∧ item ∈ q.jobs.items := by
  simp only [allItems, List.mem_flatMap, Prod.exists, Dict.mem_entries]

theorem allItems_nodup (h : Queued lower queues order jobs) :
    ((allItems queues).map (·.sequence)).Nodup := by
  have hitems : (allItems queues).Nodup := by
    refine List.nodup_flatMap.2 ⟨fun e he => ?_, ?_⟩
    · exact (h.valid e.1 e.2 (Dict.mem_entries.1 he)).2.2
    · have hkeys : queues.entries.Pairwise fun e e' => e.1 ≠ e'.1 :=
        List.pairwise_map.1 queues.nodup
      refine hkeys.imp_of_mem fun he he' hne x hx hx' => hne ?_
      have h1 := (h.mem _ _ x (Dict.mem_entries.1 he) hx).1
      have h2 := (h.mem _ _ x (Dict.mem_entries.1 he') hx').1
      exact h1.symm.trans h2
  refine hitems.map_on fun x hx y hy heq => ?_
  obtain ⟨key, q, hq, hxq⟩ := mem_allItems.1 hx
  obtain ⟨key', q', hq', hyq⟩ := mem_allItems.1 hy
  exact h.unique hq' hyq hq hxq heq

/-- There are as many queued items as queued jobs. -/
theorem length_allItems (h : Queued lower queues order jobs)
    (hsequence : ∀ s j, jobs.get? s = some j → j.item.sequence = s) :
    (allItems queues).length = jobs.count fun _ j => j.place = .queued := by
  have hperm : ((allItems queues).map (·.sequence)).Perm
      ((jobs.entries.filter fun e => e.2.place = .queued).map Prod.fst) := by
    refine (List.perm_ext_iff_of_nodup h.allItems_nodup
      (jobs.nodup.sublist (List.filter_sublist.map _))).2 fun s => ?_
    rw [List.mem_map, List.mem_map]
    constructor
    · rintro ⟨x, hx, rfl⟩
      obtain ⟨key, q, hq, hxq⟩ := mem_allItems.1 hx
      obtain ⟨_, j, hj, _, hplace⟩ := h.mem key q x hq hxq
      exact ⟨(x.sequence, j), List.mem_filter.2 ⟨Dict.mem_entries.2 hj, by simp [hplace]⟩, rfl⟩
    · rintro ⟨⟨s', j⟩, hj, rfl⟩
      obtain ⟨hmem, hplace⟩ := List.mem_filter.1 hj
      have hget := Dict.mem_entries.1 hmem
      obtain ⟨q, hq, hin⟩ := h.held s' j hget (by simpa using hplace)
      exact ⟨j.item, mem_allItems.2 ⟨_, q, hq, hin⟩, hsequence s' j hget⟩
  have hlength := hperm.length_eq
  rw [List.length_map, List.length_map, ← List.countP_eq_length_filter] at hlength
  exact hlength

/-- The sum of the lengths of the queues. -/
def queueLengths (queues : Dict Text RequestQueue) : Nat :=
  (queues.entries.map fun e => e.2.jobs.size).sum

theorem queueLengths_eq (h : Queued lower queues order jobs) :
    queueLengths queues = (allItems queues).length := by
  rw [queueLengths, allItems, List.length_flatMap]
  congr 1
  refine List.map_congr_left fun e he => ?_
  exact (h.valid e.1 e.2 (Dict.mem_entries.1 he)).1.size

end Queued

end Sunpack.AsyncWork
