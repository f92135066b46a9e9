import Sunpack.DisplayStore.Record

/-!
# The runs of the history

A run holds its records in the order of their times. `append` writes behind the last run or starts
another one, and `expire` drops whole runs and cuts the front off the others, found by halving.
-/

namespace Sunpack.DisplayStore

open Sunpack.Lib

variable {V : Type} (c : Codec V)

/-! ## Kept records -/

/-- The slots of a run from its head on hold these records, in the order of their times. -/
structure Kept (f : RunFiles) (run : Run) (records : List (Int × V)) : Prop where
  length : f.index.length = run.count
  count : run.head + records.length = run.count
  fresh : records = [] → run.count = 0
  sorted : records.Pairwise fun a b => a.1 ≤ b.1
  first : ∀ r ∈ records.head?, run.first = r.1
  last : ∀ r ∈ records.getLast?, run.last = r.1
  whole : List.Forall₂ (fun e r => Whole c f.data e r.1 r.2) (f.index.drop run.head) records
  ordered : (f.index.drop run.head).Pairwise fun a b => a.offset ≤ b.offset
  stop : ∀ e ∈ (f.index.drop run.head).getLast?, ∀ r ∈ records.getLast?,
    f.data.length = e.offset + (recordBytes c r.2).length

theorem kept_empty (run : Run) (hhead : run.head = 0) (hcount : run.count = 0) :
    Kept c .empty run [] where
  length := hcount.symm
  count := by rw [hhead, hcount, List.length_nil]
  fresh _ := hcount
  sorted := .nil
  first r hr := by cases hr
  last r hr := by cases hr
  whole := by
    rw [hhead]
    exact .nil
  ordered := by
    rw [hhead]
    exact .nil
  stop e he r hr := by cases hr

variable {c} {f : RunFiles} {run : Run} {records : List (Int × V)}

theorem writeRecord_index (h : f.index.length = run.count) (value : V) (ts : Int) :
    (writeRecord c f run value ts).1.index =
      f.index ++ [recordEntry c value ts f.data.length run.count] :=
  writeSlot_end h _

/-- A record that is no older than the last one. -/
theorem Kept.write (h : Kept c f run records) {ts : Int} (hts : ∀ r ∈ records.getLast?, r.1 ≤ ts)
    (value : V) : Kept c (writeRecord c f run value ts).1 (writeRecord c f run value ts).2.1
      (records ++ [(ts, value)]) := by
  have hcount := h.count
  have hlength := h.length
  have hindex : (writeRecord c f run value ts).1.index.drop run.head =
      f.index.drop run.head ++ [recordEntry c value ts f.data.length run.count] := by
    rw [writeRecord_index h.length, List.drop_append_of_le_length (by omega)]
  constructor
  · rw [writeRecord_index h.length, List.length_append, h.length]
    rfl
  · show run.head + _ = run.count + 1
    rw [List.length_append, List.length_singleton]
    omega
  · intro hnil
    simp at hnil
  · rw [List.pairwise_append]
    refine ⟨h.sorted, List.pairwise_singleton _ _, fun a ha b hb => ?_⟩
    obtain rfl := List.mem_singleton.1 hb
    have hne : records ≠ [] := List.ne_nil_of_mem ha
    have hlast := hts _ (List.getLast?_eq_some_getLast hne)
    have hsorted := h.sorted
    rw [← List.dropLast_append_getLast hne] at hsorted ha
    rcases List.mem_append.1 ha with ha | ha
    · exact le_trans ((List.pairwise_append.1 hsorted).2.2 a ha _ (List.mem_singleton_self _)) hlast
    · rw [List.mem_singleton.1 ha]
      exact hlast
  · intro r hr
    show (if run.count = 0 then ts else run.first) = r.1
    cases records with
    | nil =>
      rw [if_pos (h.fresh rfl)]
      obtain rfl := Option.some.inj hr
      rfl
    | cons a records =>
      rw [List.length_cons] at hcount
      rw [if_neg (by omega)]
      exact h.first r hr
  · intro r hr
    rw [List.getLast?_concat] at hr
    obtain rfl := Option.some.inj hr
    rfl
  · show List.Forall₂ _ ((writeRecord c f run value ts).1.index.drop run.head) _
    rw [hindex]
    refine List.rel_append (h.whole.imp fun e r hwhole => hwhole.append _) ?_
    exact .cons (whole_written f.data value ts run.count) .nil
  · show ((writeRecord c f run value ts).1.index.drop run.head).Pairwise _
    rw [hindex, List.pairwise_append]
    refine ⟨h.ordered, List.pairwise_singleton _ _, fun a ha b hb => ?_⟩
    obtain rfl := List.mem_singleton.1 hb
    obtain ⟨i, hi⟩ := List.mem_iff_getElem?.1 ha
    obtain ⟨r, -, hwhole⟩ := forall₂_getElem?_left h.whole hi
    have hle := hwhole.le_length
    show a.offset ≤ f.data.length
    omega
  · intro e he r hr
    change e ∈ ((writeRecord c f run value ts).1.index.drop run.head).getLast? at he
    rw [hindex, List.getLast?_concat] at he
    rw [List.getLast?_concat] at hr
    obtain rfl := Option.some.inj he
    obtain rfl := Option.some.inj hr
    show (f.data ++ recordBytes c value).length = f.data.length + _
    exact List.length_append

/-! ## Trimming -/

/-- The part of `expire` for a run that is older in front only. -/
def trimRun (cutoff : Int) (f : RunFiles) (run : Run) : Option (RunFiles × Run) := do
  let lo ← bisect (fun e => decide (e.stamp ≤ cutoff)) f.index run.head run.count
  let first ← f.index[lo]?
  let start ← f.index[run.head]?
  some (⟨hole 0 start.offset first.offset f.data, hole Entry.zero run.head lo f.index⟩,
    { run with head := lo, first := first.stamp })

theorem Kept.entry (h : Kept c f run records) {j : Nat} {r : Int × V} (hr : records[j]? = some r) :
    ∃ e, f.index[run.head + j]? = some e ∧ Whole c f.data e r.1 r.2 := by
  obtain ⟨e, he, hwhole⟩ := forall₂_getElem?_right h.whole hr
  rw [List.getElem?_drop] at he
  exact ⟨e, he, hwhole⟩

theorem Kept.record (h : Kept c f run records) {i : Nat} {e : Entry} (hi : run.head ≤ i)
    (he : f.index[i]? = some e) : ∃ r, records[i - run.head]? = some r ∧ Whole c f.data e r.1 r.2 := by
  have hget : (f.index.drop run.head)[i - run.head]? = some e := by
    rw [List.getElem?_drop, Nat.add_sub_cancel' hi]
    exact he
  exact forall₂_getElem?_left h.whole hget

theorem Kept.stamp_le (h : Kept c f run records) {i j : Nat} {a b : Entry} (hi : run.head ≤ i)
    (hij : i ≤ j) (ha : f.index[i]? = some a) (hb : f.index[j]? = some b) : a.stamp ≤ b.stamp := by
  obtain ⟨r, hr, hwhole⟩ := h.record hi ha
  obtain ⟨r', hr', hwhole'⟩ := h.record (le_trans hi hij) hb
  rw [hwhole.stamp, hwhole'.stamp]
  obtain ⟨hlt, rfl⟩ := List.getElem?_eq_some_iff.1 hr
  obtain ⟨hlt', rfl⟩ := List.getElem?_eq_some_iff.1 hr'
  rcases Nat.lt_or_ge (i - run.head) (j - run.head) with hlt'' | hge
  · exact List.pairwise_iff_getElem.1 h.sorted _ _ hlt hlt' hlt''
  · have heq : i - run.head = j - run.head := by omega
    simp only [heq]
    exact le_rfl

/-- Halving finds the first record that is newer. -/
theorem Kept.bisect (h : Kept c f run records) {cutoff : Int} (hne : records ≠ [])
    (hlast : cutoff < run.last) :
    ∃ k, bisect (fun e => decide (e.stamp ≤ cutoff)) f.index run.head run.count = some k ∧
      run.head ≤ k ∧ k < run.count ∧
      records.filter (cutoff < ·.1) = records.drop (k - run.head) := by
  have hcount := h.count
  have hlength := h.length
  have hpos := List.length_pos_iff.2 hne
  obtain ⟨k, hk, hlo, hhi, hbefore, hafter⟩ := @bisect_spec _
    (fun e : Entry => decide (e.stamp ≤ cutoff)) f.index run.head
    (fun i j a b hi hij ha hb hp => decide_eq_true (le_trans (h.stamp_le hi hij ha hb)
      (of_decide_eq_true hp))) run.head run.count le_rfl (by omega) (by omega)
    (fun i a h1 h2 _ => absurd h1 (by omega))
    (fun i a h1 hget => absurd (List.getElem?_eq_some_iff.1 hget).1 (by omega))
  refine ⟨k, hk, hlo, ?_, ?_⟩
  · have hlastRecord := h.last _ (List.getLast?_eq_some_getLast hne)
    rw [List.getLast_eq_getElem] at hlastRecord
    by_contra hge
    obtain ⟨e, he, hwhole⟩ := h.entry (List.getElem?_eq_getElem
      (show records.length - 1 < records.length by omega))
    have hold := of_decide_eq_true (hbefore _ e (by omega) (by omega) he)
    rw [hwhole.stamp] at hold
    omega
  · apply filter_eq_drop
    · intro r hr
      obtain ⟨j, hj⟩ := List.mem_iff_getElem?.1 hr
      rw [List.getElem?_take] at hj
      split_ifs at hj with hlt
      obtain ⟨e, he, hwhole⟩ := h.entry hj
      have hold := of_decide_eq_true (hbefore _ e (by omega) (by omega) he)
      rw [hwhole.stamp] at hold
      exact decide_eq_false (by omega)
    · intro r hr
      obtain ⟨j, hj⟩ := List.mem_iff_getElem?.1 hr
      rw [List.getElem?_drop] at hj
      obtain ⟨e, he, hwhole⟩ := h.entry hj
      have hnew := of_decide_eq_false (hafter _ e (by omega) he)
      rw [hwhole.stamp] at hnew
      exact decide_eq_true (by omega)

/-- The front of a run is cut off: slots and data in front of a record are zeroed. -/
theorem Kept.cut (h : Kept c f run records) {k : Nat} {first : Entry} (hlo : run.head ≤ k)
    (hfirst : f.index[k]? = some first) (start : Nat) :
    Kept c ⟨hole 0 start first.offset f.data, hole Entry.zero run.head k f.index⟩
      { run with head := k, first := first.stamp } (records.drop (k - run.head)) := by
  have hcount := h.count
  have hlength := h.length
  have hlt := (List.getElem?_eq_some_iff.1 hfirst).1
  have hdrop : (f.index.drop run.head).drop (k - run.head) = f.index.drop k := by
    rw [List.drop_drop, Nat.add_sub_cancel' hlo]
  have hcons : f.index.drop k = first :: f.index.drop (k + 1) := by
    obtain ⟨hlt, rfl⟩ := List.getElem?_eq_some_iff.1 hfirst
    exact List.drop_eq_getElem_cons hlt
  have hholed : (hole Entry.zero run.head k f.index).drop k = f.index.drop k := drop_hole le_rfl _
  have hordered := h.ordered.sublist (List.drop_sublist (k - run.head) _)
  rw [hdrop] at hordered
  have hbehind : ∀ e ∈ f.index.drop k, first.offset ≤ e.offset := by
    intro e he
    rw [hcons] at he hordered
    rcases List.mem_cons.1 he with rfl | he
    · exact le_rfl
    · exact (List.pairwise_cons.1 hordered).1 e he
  have hwhole := List.forall₂_drop (k - run.head) h.whole
  rw [hdrop] at hwhole
  constructor
  · rw [length_hole]
    exact h.length
  · show k + _ = run.count
    rw [List.length_drop]
    omega
  · intro hnil
    rw [List.drop_eq_nil_iff] at hnil
    omega
  · exact h.sorted.sublist (List.drop_sublist _ _)
  · intro r hr
    rw [Option.mem_def, List.head?_drop] at hr
    obtain ⟨e, he, hwhole⟩ := h.entry hr
    rw [Nat.add_sub_cancel' hlo, hfirst] at he
    obtain rfl := Option.some.inj he
    exact hwhole.stamp
  · intro r hr
    rw [Option.mem_def, List.getLast?_drop, if_neg (by omega)] at hr
    exact h.last r hr
  · show List.Forall₂ _ ((hole Entry.zero run.head k f.index).drop k) _
    rw [hholed]
    have hboth := (List.forall₂_and_left _ _).2 ⟨hbehind, hwhole⟩
    exact hboth.imp fun e r he => he.2.hole (.inl he.1)
  · show ((hole Entry.zero run.head k f.index).drop k).Pairwise _
    rw [hholed]
    exact hordered
  · intro e he r hr
    change e ∈ ((hole Entry.zero run.head k f.index).drop k).getLast? at he
    rw [hholed, Option.mem_def, List.getLast?_drop, if_neg (by omega)] at he
    rw [Option.mem_def, List.getLast?_drop, if_neg (by omega)] at hr
    rw [length_hole]
    refine h.stop e ?_ r hr
    rw [Option.mem_def, List.getLast?_drop, if_neg (by omega)]
    exact he

/-- What is not newer goes, and nothing else. -/
theorem Kept.trim (h : Kept c f run records) {cutoff : Int} (hne : records ≠ [])
    (hlast : cutoff < run.last) :
    ∃ f' run', trimRun cutoff f run = some (f', run') ∧ run'.name = run.name ∧
      records.filter (cutoff < ·.1) ≠ [] ∧ Kept c f' run' (records.filter (cutoff < ·.1)) := by
  have hcount := h.count
  have hlength := h.length
  have hpos := List.length_pos_iff.2 hne
  obtain ⟨k, hk, hlo, hlt, hfilter⟩ := h.bisect hne hlast
  obtain ⟨first, hfirst⟩ : ∃ first, f.index[k]? = some first :=
    ⟨_, List.getElem?_eq_getElem (by omega)⟩
  obtain ⟨start, hstart⟩ : ∃ start, f.index[run.head]? = some start :=
    ⟨_, List.getElem?_eq_getElem (by omega)⟩
  rw [hfilter]
  refine ⟨_, { run with head := k, first := first.stamp }, ?_, rfl, ?_,
    h.cut hlo hfirst start.offset⟩
  · unfold trimRun
    rw [hk, Option.bind_eq_bind, Option.bind_some, hfirst, Option.bind_eq_bind, Option.bind_some,
      hstart]
    rfl
  · rw [ne_eq, List.drop_eq_nil_iff]
    omega

theorem Kept.between (h : Kept c f run records) {r : Int × V} (hr : r ∈ records) :
    run.first ≤ r.1 ∧ r.1 ≤ run.last := by
  have hne : records ≠ [] := List.ne_nil_of_mem hr
  have hsorted := h.sorted
  constructor
  · obtain ⟨a, rest, rfl⟩ := List.exists_cons_of_ne_nil hne
    rw [h.first a rfl]
    rcases List.mem_cons.1 hr with rfl | hr
    · exact le_rfl
    · exact (List.pairwise_cons.1 hsorted).1 r hr
  · rw [h.last _ (List.getLast?_eq_some_getLast hne)]
    rw [← List.dropLast_append_getLast hne] at hsorted hr
    rcases List.mem_append.1 hr with hr | hr
    · exact (List.pairwise_append.1 hsorted).2.2 r hr _ (List.mem_singleton_self _)
    · rw [List.mem_singleton.1 hr]

theorem Kept.newer (h : Kept c f run records) {cutoff : Int} (hfirst : cutoff < run.first) :
    records.filter (cutoff < ·.1) = records := by
  rw [List.filter_eq_self]
  intro r hr
  exact decide_eq_true (lt_of_lt_of_le hfirst (h.between hr).1)

theorem Kept.older (h : Kept c f run records) {cutoff : Int} (hlast : run.last ≤ cutoff) :
    records.filter (cutoff < ·.1) = [] := by
  rw [List.filter_eq_nil_iff]
  intro r hr
  have hle := (h.between hr).2
  rw [decide_eq_true_eq]
  omega

/-! ## The sweep over the runs -/

structure Sweep where
  next : Option Int
  retained : List Run
  taskRevision : Nat
  current : Option RunName
  obsolete : List RunName
  files : RunName → RunFiles

/-- `next.map_or(ts, |v| v.min(ts))` -/
def minNext (next : Option Int) (ts : Int) : Option Int :=
  some (match next with
    | none => ts
    | some v => min v ts)

def Sweep.retain (w : Sweep) (run : Run) : Sweep :=
  { w with next := minNext w.next run.first, retained := w.retained ++ [run] }

/-- One turn of the loop of `expire`. -/
def expireRun (cutoff : Int) (w : Sweep) (run : Run) : Option Sweep :=
  if cutoff < run.first then some (w.retain run)
  else
    let touched : Sweep :=
      { w with
        taskRevision := w.taskRevision + 1
        current := if w.current = some run.name then none else w.current }
    if run.last ≤ cutoff then some { touched with obsolete := w.obsolete ++ [run.name] }
    else (trimRun cutoff (w.files run.name) run).map fun out =>
      Sweep.retain { touched with files := Function.update w.files run.name out.1 } out.2

/-- A run of the manifest and its records. -/
def Holds (c : Codec V) (files : RunName → RunFiles) (run : Run) (records : List (Int × V)) : Prop :=
  records ≠ [] ∧ Kept c (files run.name) run records

/-- What is left of a history. -/
def newerRecords (cutoff : Int) (history : List (List (Int × V))) : List (List (Int × V)) :=
  (history.map fun records => records.filter (cutoff < ·.1)).filter fun records => !records.isEmpty

/-- The sweep over these runs, with these records. -/
structure Swept (c : Codec V) (cutoff : Int) (start : Sweep) (runs : List Run)
    (history : List (List (Int × V))) (w : Sweep) : Prop where
  holds : List.Forall₂ (Holds c w.files) w.retained (newerRecords cutoff history)
  names : ∃ dropped, w.obsolete = start.obsolete ++ dropped ∧
    (dropped ++ w.retained.map Run.name).Perm (runs.map Run.name)
  others : ∀ n ∉ runs.map Run.name, w.files n = start.files n
  current : w.current = none ∨ w.current = start.current
  last : ∀ run ∈ runs.getLast?, w.current = some run.name → w.retained.getLast? = some run
  least : ∀ t ∈ w.next, (∃ run ∈ w.retained, run.first = t) ∧ ∀ run ∈ w.retained, t ≤ run.first
  nothing : w.next = none → w.retained = []

theorem newerRecords_concat (cutoff : Int) (history : List (List (Int × V)))
    (records : List (Int × V)) : newerRecords cutoff (history ++ [records]) =
      newerRecords cutoff history ++
        if records.filter (cutoff < ·.1) = [] then [] else [records.filter (cutoff < ·.1)] := by
  unfold newerRecords
  rw [List.map_append, List.filter_append, List.map_singleton, List.filter_singleton]
  by_cases hnil : records.filter (cutoff < ·.1) = []
  · rw [if_pos hnil, hnil]
    rfl
  · have hsome := List.isEmpty_eq_false_iff.2 hnil
    rw [if_neg hnil, hsome]
    rfl

theorem minNext_least {w : Sweep} {run : Run}
    (h : ∀ t ∈ w.next, (∃ r ∈ w.retained, r.first = t) ∧ ∀ r ∈ w.retained, t ≤ r.first)
    (hnothing : w.next = none → w.retained = []) :
    ∀ t ∈ minNext w.next run.first, (∃ r ∈ w.retained ++ [run], r.first = t) ∧
      ∀ r ∈ w.retained ++ [run], t ≤ r.first := by
  intro t ht
  cases hnext : w.next with
  | none =>
    rw [hnext] at ht
    obtain rfl : run.first = t := Option.some.inj ht
    rw [hnothing hnext]
    exact ⟨⟨run, List.mem_singleton_self run, rfl⟩, fun r hr => (List.mem_singleton.1 hr) ▸ le_rfl⟩
  | some v =>
    rw [hnext] at ht
    obtain rfl : min v run.first = t := Option.some.inj ht
    obtain ⟨⟨r, hr, hfirst⟩, hleast⟩ := h v hnext
    refine ⟨?_, fun r hr => ?_⟩
    · rcases le_total v run.first with hle | hle
      · exact ⟨r, List.mem_append_left _ hr, by rw [min_eq_left hle, hfirst]⟩
      · exact ⟨run, List.mem_append_right _ (List.mem_singleton_self run), by rw [min_eq_right hle]⟩
    · rcases List.mem_append.1 hr with hr | hr
      · exact le_trans (min_le_left _ _) (hleast r hr)
      · rw [List.mem_singleton.1 hr]
        exact min_le_right _ _

variable {cutoff : Int} {start w : Sweep} {runs : List Run} {history : List (List (Int × V))}

theorem swept_nil (hstart : start.retained = []) (hnext : start.next = none) :
    Swept c cutoff start [] [] start where
  holds := by
    rw [hstart]
    exact .nil
  names := ⟨[], by rw [List.append_nil], by rw [hstart]; rfl⟩
  others n _ := rfl
  current := .inr rfl
  last run hrun := by cases hrun
  least t ht := by
    rw [hnext] at ht
    cases ht
  nothing _ := hstart

theorem Swept.name_mem (h : Swept c cutoff start runs history w) {run : Run}
    (hrun : run ∈ w.retained) : run.name ∈ runs.map Run.name := by
  obtain ⟨dropped, -, hperm⟩ := h.names
  exact hperm.subset (List.mem_append_right _ (List.mem_map_of_mem hrun))

theorem forall₂_holds_congr {files files' : RunName → RunFiles} {runs : List Run}
    {history : List (List (Int × V))} (h : List.Forall₂ (Holds c files) runs history)
    (hsame : ∀ run ∈ runs, files' run.name = files run.name) :
    List.Forall₂ (Holds c files') runs history := by
  have hboth := (List.forall₂_and_left _ _).2 ⟨hsame, h⟩
  refine hboth.imp fun run records hrun => ?_
  unfold Holds
  rw [hrun.1]
  exact hrun.2

/-- A run that stays, as it is or without its front. -/
theorem Swept.retain (h : Swept c cutoff start runs history w) {w' : Sweep} {run run' : Run}
    {records : List (Int × V)} (hnew : run.name ∉ runs.map Run.name) (hname : run'.name = run.name)
    (hfiles : ∀ n, n ≠ run.name → w'.files n = w.files n)
    (hobsolete : w'.obsolete = w.obsolete)
    (hretained : w'.retained = w.retained ++ [run'])
    (hnext : w'.next = minNext w.next run'.first)
    (hcurrent : w'.current = w.current ∧ run' = run ∨
      w'.current = if w.current = some run.name then none else w.current)
    (hkept : Holds c w'.files run' (records.filter (cutoff < ·.1))) :
    Swept c cutoff start (runs ++ [run]) (history ++ [records]) w' := by
  constructor
  · rw [hretained, newerRecords_concat, if_neg hkept.1]
    refine List.rel_append (forall₂_holds_congr h.holds fun r hr => hfiles _ ?_)
      (.cons hkept .nil)
    intro heq
    exact hnew (heq ▸ h.name_mem hr)
  · obtain ⟨dropped, hdropped, hperm⟩ := h.names
    refine ⟨dropped, hobsolete.trans hdropped, ?_⟩
    rw [hretained, List.map_append, List.map_append, ← List.append_assoc, List.map_singleton, hname]
    exact hperm.append_right _
  · intro n hn
    rw [List.map_append, List.mem_append, not_or] at hn
    rw [hfiles n fun heq => hn.2 (heq ▸ List.mem_singleton_self _)]
    exact h.others n hn.1
  · rcases hcurrent with ⟨hsame, -⟩ | hsame
    · rw [hsame]
      exact h.current
    · rw [hsame]
      split_ifs
      · exact .inl rfl
      · exact h.current
  · intro r hr hr'
    rw [List.getLast?_concat] at hr
    obtain rfl := Option.some.inj hr
    rcases hcurrent with ⟨-, rfl⟩ | hsame
    · rw [hretained, List.getLast?_concat]
    · rw [hsame] at hr'
      split_ifs at hr' with hif
      exact absurd hr' hif
  · rw [hnext, hretained]
    exact minNext_least h.least h.nothing
  · intro hnone
    rw [hnext] at hnone
    cases hnone

/-- A run that goes. -/
theorem Swept.drop (h : Swept c cutoff start runs history w) {run : Run}
    {records : List (Int × V)} (hnil : records.filter (cutoff < ·.1) = []) :
    Swept c cutoff start (runs ++ [run]) (history ++ [records])
      { w with
        taskRevision := w.taskRevision + 1
        current := if w.current = some run.name then none else w.current
        obsolete := w.obsolete ++ [run.name] } := by
  constructor
  · rw [newerRecords_concat, if_pos hnil, List.append_nil]
    exact h.holds
  · obtain ⟨dropped, hdropped, hperm⟩ := h.names
    refine ⟨dropped ++ [run.name], by rw [hdropped, List.append_assoc], ?_⟩
    rw [List.map_append, List.map_singleton, List.append_assoc]
    have hmiddle : (dropped ++ ([run.name] ++ w.retained.map Run.name)).Perm
        (dropped ++ w.retained.map Run.name ++ [run.name]) := by
      rw [List.append_assoc]
      exact List.perm_append_comm.append_left dropped
    exact hmiddle.trans (hperm.append_right _)
  · intro n hn
    rw [List.map_append, List.mem_append, not_or] at hn
    exact h.others n hn.1
  · show (if w.current = some run.name then none else w.current) = none ∨ _
    split_ifs
    · exact .inl rfl
    · exact h.current
  · intro r hr hr'
    rw [List.getLast?_concat] at hr
    obtain rfl := Option.some.inj hr
    change (if w.current = some run.name then none else w.current) = some run.name at hr'
    split_ifs at hr' with hif
    exact absurd hr' hif
  · exact h.least
  · exact h.nothing

/-- One turn of the loop. -/
theorem Swept.step (h : Swept c cutoff start runs history w) {run : Run}
    {records : List (Int × V)} (hrun : Holds c start.files run records)
    (hnew : run.name ∉ runs.map Run.name) :
    ∃ w', expireRun cutoff w run = some w' ∧
      Swept c cutoff start (runs ++ [run]) (history ++ [records]) w' := by
  have hfile := h.others run.name hnew
  obtain ⟨hne, hkept⟩ := hrun
  rw [← hfile] at hkept
  unfold expireRun
  by_cases hfirst : cutoff < run.first
  · rw [if_pos hfirst]
    refine ⟨_, rfl, h.retain hnew rfl (fun _ _ => rfl) rfl rfl rfl (.inl ⟨rfl, rfl⟩) ?_⟩
    rw [hkept.newer hfirst]
    exact ⟨hne, hkept⟩
  · rw [if_neg hfirst]
    by_cases hlast : run.last ≤ cutoff
    · simp only [if_pos hlast]
      exact ⟨_, rfl, h.drop (hkept.older hlast)⟩
    · obtain ⟨f, run', htrim, hname, hrest, hkept'⟩ := hkept.trim hne (not_le.1 hlast)
      simp only [if_neg hlast, htrim, Option.map_some]
      refine ⟨_, rfl, h.retain hnew hname (fun n hn => Function.update_of_ne hn _ _) rfl rfl rfl
        (.inr rfl) ⟨hrest, ?_⟩⟩
      show Kept c (Function.update w.files run.name f run'.name) run' _
      rw [hname, Function.update_self]
      exact hkept'

/-- The loop of `expire`, from any point on. -/
theorem Swept.steps {todo : List Run} {rest : List (List (Int × V))}
    (htodo : List.Forall₂ (Holds c start.files) todo rest)
    (h : Swept c cutoff start runs history w) (hnodup : ((runs ++ todo).map Run.name).Nodup) :
    ∃ w', todo.foldlM (expireRun cutoff) w = some w' ∧
      Swept c cutoff start (runs ++ todo) (history ++ rest) w' := by
  induction htodo generalizing runs history w with
  | nil =>
    rw [List.append_nil, List.append_nil]
    exact ⟨w, rfl, h⟩
  | @cons run records todo rest hrun _ ih =>
    have hnew : run.name ∉ runs.map Run.name := by
      rw [List.map_append, List.map_cons, List.nodup_append] at hnodup
      exact fun hmem => hnodup.2.2 _ hmem _ List.mem_cons_self rfl
    obtain ⟨w₁, hw₁, hswept⟩ := h.step hrun hnew
    rw [List.append_cons] at hnodup
    obtain ⟨w', hw', hswept'⟩ := ih hswept hnodup
    rw [List.foldlM_cons, hw₁, List.append_cons, List.append_cons history]
    exact ⟨w', hw', hswept'⟩

end Sunpack.DisplayStore
