import Sunpack.DisplayStore.Held

/-!
# Expiry, publication and whole runs

Finishing the live run, expiring and publishing keep what the store holds, and so does every run of
calls, also over closing the store and opening it again.
-/

namespace Sunpack.DisplayStore

open Sunpack.Lib

variable {V : Type} {c : Codec V} {w : World} {a : Shown V} {s : Store} {live : Live}
  {shown : Rows V}

/-! ## The order of the rows -/

theorem timeKey_le {k k' : TimeKey} (h : k < k') : (ofLex k).1 ≤ (ofLex k').1 := by
  rcases Prod.Lex.lt_iff.1 h with hlt | ⟨heq, -⟩
  · exact le_of_lt hlt
  · exact le_of_eq heq

theorem Shows.isLeast (h : Shows c live shown) {item : TimeKey × String}
    (hitem : live.time.entries.head? = some item) :
    IsLeast (Rows.times shown) (ofLex item.1).1 := by
  obtain ⟨rest, hrest⟩ := List.head?_eq_some_iff.1 hitem
  have hsorted := live.time.sorted
  rw [hrest] at hsorted
  constructor
  · obtain ⟨value, hr⟩ := h.of_mem_time (List.mem_of_mem_head? hitem)
    exact ⟨item.2, _, hr, rfl⟩
  · rintro t ⟨id, r, hr, rfl⟩
    obtain ⟨slot, hmem⟩ := h.mem_time hr
    rw [hrest] at hmem
    rcases List.mem_cons.1 hmem with heq | hmem
    · rw [← heq]
      exact le_rfl
    · exact timeKey_le ((List.pairwise_cons.1 hsorted).1 _ hmem)

theorem Shows.isGreatest (h : Shows c live shown) {item : TimeKey × String}
    (hitem : live.time.entries.getLast? = some item) :
    IsGreatest (Rows.times shown) (ofLex item.1).1 := by
  obtain ⟨front, hfront⟩ := List.getLast?_eq_some_iff.1 hitem
  have hsorted := live.time.sorted
  rw [hfront] at hsorted
  constructor
  · obtain ⟨value, hr⟩ := h.of_mem_time (List.mem_of_getLast? hitem)
    exact ⟨item.2, _, hr, rfl⟩
  · rintro t ⟨id, r, hr, rfl⟩
    obtain ⟨slot, hmem⟩ := h.mem_time hr
    rw [hfront] at hmem
    rcases List.mem_append.1 hmem with hmem | heq
    · exact timeKey_le ((List.pairwise_append.1 hsorted).2.2 _ hmem item (List.mem_singleton_self _))
    · rw [← List.mem_singleton.1 heq]
      exact le_rfl

/-! ## Finishing -/

/-- The manifest gets this live run. -/
theorem Held.name (h : Held c w a s) {nextRun : Nat} {obsolete : List RunName}
    (hshows : Shows c live a.live) (hle : s.nextRun ≤ nextRun)
    (hruns : live.run.name ∉ s.manifest.runs.map Run.name) (hnot : live.run.name ∉ obsolete)
    (hmade : Made w nextRun live.run.name)
    (hobsolete : ∀ name ∈ obsolete, name ∉ s.manifest.runs.map Run.name ∧ Made w nextRun name)
    (hfirst : IsLeast (Rows.times a.live) live.run.first)
    (hlast : IsGreatest (Rows.times a.live) live.run.last) :
    Settled c w a { s with
      nextRun := nextRun
      obsolete := obsolete
      live := some live
      manifest := { s.manifest with live := some live.run } } := by
  have hnodup := h.nodup
  unfold Store.names at hnodup
  constructor
  · constructor
    · exact h.runs
    · exact h.current
    · intro hnone
      cases hnone
    · intro live' hlive
      obtain rfl := Option.some.inj hlive
      exact hshows
    · show (s.manifest.runs.map Run.name ++ [live.run.name]).Nodup
      rw [List.nodup_append]
      refine ⟨(List.nodup_append.1 hnodup).1, List.nodup_singleton _, fun x hx y hy heq => ?_⟩
      rw [List.mem_singleton.1 hy] at heq
      exact hruns (heq ▸ hx)
    · intro name hname hin
      rcases List.mem_append.1 hname with hname | hname
      · exact (hobsolete name hin).1 hname
      · rw [List.mem_singleton.1 hname] at hin
        exact hnot hin
    · intro live' hlive
      obtain rfl := Option.some.inj hlive
      exact ⟨hruns, hnot⟩
    · intro name hname
      rcases List.mem_append.1 hname with hname | hname
      · rcases List.mem_append.1 hname with hname | hname
        · exact (h.runMade hname).mono hle
        · rw [List.mem_singleton.1 hname]
          exact hmade
      · exact (hobsolete name hname).2
    · intro live' hlive
      obtain rfl := Option.some.inj hlive
      exact hmade
    · exact fun start serial hserial => h.fresh start serial (le_trans hle hserial)
  · intro live' hlive
    obtain rfl := Option.some.inj hlive
    rfl
  · intro live' hlive
    obtain rfl := Option.some.inj hlive
    exact hfirst
  · intro live' hlive
    obtain rfl := Option.some.inj hlive
    exact hlast

theorem Held.obsolete (h : Held c w a s) {name : RunName} (hname : name ∈ s.obsolete) :
    name ∉ s.manifest.runs.map Run.name ∧ Made w s.nextRun name :=
  ⟨fun hmem => h.apart name (List.mem_append_left _ hmem) hname,
    h.made name (List.mem_append_right _ hname)⟩

/-- A live run without rows is given up. -/
theorem Held.dropLive (h : Held c w a s) (hlive : s.live = some live)
    (hnone : a.live = fun _ => none) : Settled c w a { s with
      live := none
      obsolete := s.obsolete ++ [live.run.name]
      manifest := { s.manifest with live := none } } := by
  have hnodup := h.nodup
  unfold Store.names at hnodup
  obtain ⟨hruns, hnot⟩ := h.liveApart live hlive
  constructor
  · constructor
    · exact h.runs
    · exact h.current
    · exact fun _ => hnone
    · intro live' hlive
      cases hlive
    · show (s.manifest.runs.map Run.name ++ []).Nodup
      rw [List.append_nil]
      exact (List.nodup_append.1 hnodup).1
    · intro name hname hin
      change name ∈ s.manifest.runs.map Run.name ++ [] at hname
      rw [List.append_nil] at hname
      rcases List.mem_append.1 hin with hin | hin
      · exact (h.obsolete hin).1 hname
      · rw [List.mem_singleton.1 hin] at hname
        exact hruns hname
    · intro live' hlive
      cases hlive
    · intro name hname
      rcases List.mem_append.1 hname with hname | hname
      · change name ∈ s.manifest.runs.map Run.name ++ [] at hname
        rw [List.append_nil] at hname
        exact h.runMade hname
      · rcases List.mem_append.1 hname with hname | hname
        · exact (h.obsolete hname).2
        · rw [List.mem_singleton.1 hname]
          exact h.liveMade live hlive
    · intro live' hlive
      cases hlive
    · exact h.fresh
  · intro live' hlive
    cases hlive
  · intro live' hlive
    cases hlive
  · intro live' hlive
    cases hlive

/-- A repacked live run takes the place of the old one. -/
theorem Held.repacked (h : Held c w a s) (hlive : s.live = some live) {live' : Live}
    (hname : live'.run.name = live.run.name) (hshows : Shows c live' a.live)
    (hfirst : IsLeast (Rows.times a.live) live'.run.first)
    (hlast : IsGreatest (Rows.times a.live) live'.run.last) :
    ∃ s', ({ s with live := some live' } : Store).repackLive w live' = some s' ∧
      s'.expiredLive = s.expiredLive ∧ Settled c w a
        { s' with manifest := { s'.manifest with live := s'.live.map Live.run } } := by
  obtain ⟨new, hnew, hnewName, hnewFirst, hnewLast, hshows'⟩ :=
    hshows.repack (runName w liveStart s.nextRun)
  have hmem := h.not_mem_new liveStart
  rw [List.mem_append, not_or] at hmem
  obtain ⟨hruns, hnot⟩ := h.liveApart live hlive
  have hmade := h.liveMade live hlive
  unfold Store.repackLive
  simp only [hnew, Option.map_some]
  refine ⟨_, rfl, rfl, h.name hshows' (Nat.le_succ _) ?_ ?_ ?_ ?_ ?_ ?_⟩
  · rw [hnewName]
    exact fun hin => hmem.1 (List.mem_append_left _ hin)
  · rw [hnewName, hname, List.mem_append, List.mem_singleton, not_or]
    exact ⟨hmem.2, Ne.symm (hmade.ne le_rfl)⟩
  · rw [hnewName]
    exact made_new w liveStart s.nextRun
  · intro name hin
    rcases List.mem_append.1 hin with hin | hin
    · exact ⟨(h.obsolete hin).1, (h.obsolete hin).2.mono (Nat.le_succ _)⟩
    · rw [List.mem_singleton.1 hin, hname]
      exact ⟨hruns, hmade.mono (Nat.le_succ _)⟩
  · rw [hnewFirst]
    exact hfirst
  · rw [hnewLast]
    exact hlast

theorem Shows.time_ne_nil (h : Shows c live shown) (hrows : live.rows.entries ≠ []) :
    live.time.entries ≠ [] := by
  obtain ⟨⟨id, row⟩, rest, hentries⟩ := List.exists_cons_of_ne_nil hrows
  have hrow : live.rows.get? id = some row := by
    rw [← Dict.mem_entries, hentries]
    exact List.mem_cons_self
  obtain ⟨r, hr⟩ := h.exists_shown hrow
  obtain ⟨slot, hmem⟩ := h.mem_time hr
  exact List.ne_nil_of_mem hmem

/-- `finish_live`, with and without repacking. -/
theorem Held.finishLive (h : Held c w a s) : ∃ s', s.finishLive w = some s' ∧
    s'.expiredLive = s.expiredLive ∧ Settled c w a s' := by
  unfold Store.finishLive
  cases hlive : s.live with
  | none =>
    refine ⟨s, rfl, rfl, h, ?_, ?_, ?_⟩
    · intro live' hlive'
      rw [hlive] at hlive'
      cases hlive'
    · intro live' hlive'
      rw [hlive] at hlive'
      cases hlive'
    · intro live' hlive'
      rw [hlive] at hlive'
      cases hlive'
  | some live =>
    have hshows := h.shows live hlive
    by_cases hempty : live.rows.entries = []
    · have hnone : a.live = fun _ => none := by
        funext id
        apply (hshows.same id).1
        rw [Dict.get?, hempty]
        rfl
      simp only [hempty, List.isEmpty_nil, if_true]
      exact ⟨_, rfl, rfl, h.dropLive hlive hnone⟩
    · have htime := hshows.time_ne_nil hempty
      have hhead := List.head?_eq_some_head htime
      have hlast := List.getLast?_eq_some_getLast htime
      generalize live.time.entries.head htime = first at hhead
      generalize live.time.entries.getLast htime = last at hlast
      have hname : (live.timed (ofLex first.1).1 (ofLex last.1).1).run.name = live.run.name := rfl
      have hshows' : Shows c (live.timed (ofLex first.1).1 (ofLex last.1).1) a.live :=
        hshows.congr rfl rfl rfl rfl (fun _ _ => rfl) rfl rfl rfl rfl
      have hleast := hshows.isLeast hhead
      have hgreatest := hshows.isGreatest hlast
      simp only [List.isEmpty_eq_false_iff.2 hempty, hhead, hlast, Option.bind_eq_bind,
        Option.bind_some, Bool.false_eq_true, if_false]
      split_ifs
      · obtain ⟨s', hs', hexpired, hsettled⟩ := h.repacked hlive hname hshows' hleast hgreatest
        rw [hs', Option.bind_some]
        exact ⟨_, rfl, hexpired, hsettled⟩
      · obtain ⟨hruns, hnot⟩ := h.liveApart live hlive
        exact ⟨_, rfl, rfl, h.name hshows' le_rfl hruns hnot (h.liveMade live hlive)
          (fun name hin => h.obsolete hin) hleast hgreatest⟩

/-! ## Expiring rows -/

theorem remove_time {live' : Live} {id : String} {row : Nat × Entry}
    (h : live.remove id = some live') (hrow : live.rows.get? id = some row) :
    live'.time = live.time.erase (toLex (row.2.stamp, row.1)) := by
  unfold Live.remove at h
  simp only [hrow] at h
  obtain ⟨size, -, rfl⟩ := Option.map_eq_some_iff.1 h
  rfl

/-- The oldest row is taken out. -/
theorem Shows.removeFirst (h : Shows c live shown) {item : TimeKey × String}
    (hitem : live.time.entries.head? = some item) :
    ∃ live', live.remove item.2 = some live' ∧ live'.run = live.run ∧
      live'.time.entries.length < live.time.entries.length ∧
      Shows c live' (Function.update shown item.2 none) := by
  obtain ⟨live', hremove, hrun, hshows⟩ := h.remove item.2
  refine ⟨live', hremove, hrun, ?_, hshows⟩
  obtain ⟨rest, hrest⟩ := List.head?_eq_some_iff.1 hitem
  obtain ⟨e, hrow, hstamp⟩ := (h.time (ofLex item.1).1 (ofLex item.1).2 item.2).1
    (OrderedMap.get_eq_some.2 (List.mem_of_mem_head? hitem))
  have hkey : toLex (e.stamp, (ofLex item.1).2) = item.1 := by
    rw [hstamp]
    rfl
  rw [remove_time hremove hrow]
  show (eraseKey (toLex (e.stamp, (ofLex item.1).2)) live.time.entries).length < _
  rw [hkey, hrest, eraseKey, List.filter_cons_of_neg (by simp), List.length_cons]
  exact Nat.lt_succ_of_le (List.length_filter_le _ _)

/-- The loop takes out the rows that are not newer, and names each of them. -/
theorem Shows.expireRows (cutoff : Int) (n : Nat) {live : Live} {shown : Rows V}
    (h : Shows c live shown) (hn : live.time.entries.length < n) (expired : List String) :
    ∃ live' out, Store.expireRows cutoff n live expired = some (live', expired ++ out) ∧
      live'.run.name = live.run.name ∧
      Shows c live' (fun id => (shown id).filter (cutoff < ·.1)) ∧
      ∀ id, id ∈ out ↔ ∃ r, shown id = some r ∧ r.1 ≤ cutoff := by
  induction n generalizing live shown expired with
  | zero => exact absurd hn (Nat.not_lt_zero _)
  | succ n ih =>
    have hstop : (∀ id r, shown id = some r → cutoff < r.1) →
        ∃ live' out, some (live, expired) = some (live', expired ++ out) ∧
          live'.run.name = live.run.name ∧
          Shows c live' (fun id => (shown id).filter (cutoff < ·.1)) ∧
          ∀ id, id ∈ out ↔ ∃ r, shown id = some r ∧ r.1 ≤ cutoff := by
      intro hall
      refine ⟨live, [], by rw [List.append_nil], rfl, ?_, fun id => ?_⟩
      · have hsame : (fun id => (shown id).filter (cutoff < ·.1)) = shown := by
          funext id
          cases hr : shown id with
          | none => rfl
          | some r => exact Option.filter_some_pos (decide_eq_true (hall id r hr))
        rw [hsame]
        exact h
      · constructor
        · intro hid
          cases hid
        · rintro ⟨r, hr, hle⟩
          exact absurd (hall id r hr) (not_lt.2 hle)
    unfold Store.expireRows
    cases hitem : live.time.entries.head? with
    | none =>
      refine hstop fun id r hr => ?_
      obtain ⟨slot, hmem⟩ := h.mem_time hr
      rw [List.head?_eq_none_iff.1 hitem] at hmem
      cases hmem
    | some item =>
      by_cases hnew : cutoff < (ofLex item.1).1
      · simp only [if_pos hnew]
        refine hstop fun id r hr => lt_of_lt_of_le hnew ?_
        exact (h.isLeast hitem).2 ⟨id, r, hr, rfl⟩
      · simp only [if_neg hnew]
        obtain ⟨value, hr⟩ := h.of_mem_time (List.mem_of_mem_head? hitem)
        have hmarked : Shows c (if expired.isEmpty then live.setRevision 0 else live) shown := by
          split_ifs
          · exact h.setRevision 0
          · exact h
        have hsame : (if expired.isEmpty then live.setRevision 0 else live).time = live.time ∧
            (if expired.isEmpty then live.setRevision 0 else live).run = live.run := by
          unfold Live.setRevision
          split_ifs <;> exact ⟨rfl, rfl⟩
        generalize (if expired.isEmpty then live.setRevision 0 else live) = live₁ at hmarked hsame
        rw [← hsame.1] at hitem hn
        obtain ⟨live₂, hremove, hrun, hlt, hshows⟩ := hmarked.removeFirst hitem
        obtain ⟨live', out, hloop, hname, hshows', hout⟩ := ih hshows (by omega)
          (expired ++ [item.2])
        rw [hremove, Option.bind_some]
        refine ⟨live', item.2 :: out, ?_, ?_, ?_, fun id => ?_⟩
        · rw [hloop, List.append_assoc]
          rfl
        · rw [hname, hrun, hsame.2]
        · have hfilter : (fun id => (Function.update shown item.2 none id).filter (cutoff < ·.1)) =
              fun id => (shown id).filter (cutoff < ·.1) := by
            funext id
            by_cases heq : id = item.2
            · rw [heq, Function.update_self, hr]
              exact (Option.filter_some_neg (by simpa using hnew)).symm
            · rw [Function.update_of_ne heq]
          rw [← hfilter]
          exact hshows'
        · rw [List.mem_cons, hout]
          by_cases heq : id = item.2
          · subst heq
            exact ⟨fun _ => ⟨_, hr, not_lt.1 hnew⟩, fun _ => .inl rfl⟩
          · rw [Function.update_of_ne heq]
            exact ⟨fun h => h.resolve_left heq, .inr⟩

theorem Held.expireLive (h : Held c w a s) (cutoff : Int) :
    ∃ s' out, s.expireLive cutoff = some s' ∧ s'.expiredLive = s.expiredLive ++ out ∧
      (∀ id, id ∈ out ↔ ∃ r, a.live id = some r ∧ r.1 ≤ cutoff) ∧
      Held c w { a with live := fun id => (a.live id).filter (cutoff < ·.1) } s' := by
  unfold Store.expireLive
  cases hlive : s.live with
  | none =>
    have hnone := h.noLive hlive
    refine ⟨s, [], rfl, by rw [List.append_nil], fun id => ?_, ?_⟩
    · rw [hnone]
      constructor
      · intro hid
        cases hid
      · rintro ⟨r, hr, -⟩
        cases hr
    · have hsame : (fun id => (a.live id).filter (cutoff < ·.1)) = a.live := by
        rw [hnone]
        rfl
      rw [hsame]
      exact h
  | some live =>
    obtain ⟨live', out, hloop, hname, hshows, hout⟩ := (h.shows live hlive).expireRows cutoff
      (live.time.entries.length + 1) (Nat.lt_succ_self _) []
    simp only [hloop, Option.map_some, List.nil_append]
    refine ⟨_, out, rfl, rfl, hout, ?_⟩
    have hheld := @Held.withLive V c w a s h live' _ s.nextRun (s.expiredLive ++ out) hshows le_rfl
      (hname ▸ h.liveApart live hlive) (hname ▸ h.liveMade live hlive)
    cases out with
    | nil => exact hheld
    | cons id out => exact hheld.note _

/-! ## Expiring runs -/

/-- The times of the records of the history. -/
def recordTimes (history : List (List (Int × V))) : Set Int :=
  { t | ∃ records ∈ history, ∃ r ∈ records, r.1 = t }

/-- The smallest element of a set, if it has one. -/
def IsNext (times : Set Int) (next : Option Int) : Prop :=
  match next with
  | none => times = ∅
  | some t => IsLeast times t

theorem Swept.isNext {cutoff : Int} {start swept : Sweep} {runs : List Run}
    {history : List (List (Int × V))} (h : Swept c cutoff start runs history swept) :
    IsNext (recordTimes (newerRecords cutoff history)) swept.next := by
  have hholds := h.holds
  cases hnext : swept.next with
  | none =>
    rw [h.nothing hnext] at hholds
    rw [List.forall₂_nil_left_iff.1 hholds]
    apply Set.eq_empty_of_forall_notMem
    rintro t ⟨records, hmem, -⟩
    cases hmem
  | some t =>
    obtain ⟨⟨run, hrun, rfl⟩, hle⟩ := h.least t hnext
    constructor
    · obtain ⟨i, hi⟩ := List.mem_iff_getElem?.1 hrun
      obtain ⟨records, hrecords, hne, hkept⟩ := forall₂_getElem?_left hholds hi
      obtain ⟨r, rest, rfl⟩ := List.exists_cons_of_ne_nil hne
      exact ⟨_, List.mem_of_getElem? hrecords, r, List.mem_cons_self, (hkept.first r rfl).symm⟩
    · rintro t ⟨records, hmem, r, hr, rfl⟩
      obtain ⟨i, hi⟩ := List.mem_iff_getElem?.1 hmem
      obtain ⟨run', hrun', -, hkept⟩ := forall₂_getElem?_right hholds hi
      exact le_trans (hle run' (List.mem_of_getElem? hrun')) (hkept.between hr).1

/-- The sweep over the runs. -/
theorem Settled.sweep (h : Settled c w a s) (cutoff : Int) :
    ∃ out, s.sweep cutoff = some out ∧
      IsNext (recordTimes (newerRecords cutoff a.history)) out.next ∧
      Held c w { a with history := newerRecords cutoff a.history } (s.swept out) := by
  have hnodup := h.nodup
  unfold Store.names at hnodup
  obtain ⟨hrunsNodup, hliveNodup, hapart⟩ := List.nodup_append.1 hnodup
  let start : Sweep := ⟨none, [], s.manifest.taskRevision, s.current, s.obsolete, s.files⟩
  have hruns : List.Forall₂ (Holds c start.files) s.manifest.runs a.history := h.runs
  obtain ⟨out, hfold, hswept⟩ := Swept.steps hruns (@swept_nil V c cutoff start rfl rfl) hrunsNodup
  rw [List.nil_append, List.nil_append] at hswept
  obtain ⟨dropped, hdropped, hperm⟩ := hswept.names
  have hretained : ∀ name ∈ out.retained.map Run.name, name ∈ s.manifest.runs.map Run.name :=
    fun name hname => hperm.subset (List.mem_append_right _ hname)
  have hgone : ∀ name ∈ dropped, name ∈ s.manifest.runs.map Run.name :=
    fun name hname => hperm.subset (List.mem_append_left _ hname)
  have hsplit := List.nodup_append.1 (hperm.symm.nodup hrunsNodup)
  have hobsolete : ∀ name, name ∈ (s.swept out).obsolete ↔ name ∈ s.obsolete ∨ name ∈ dropped := by
    intro name
    show name ∈ out.obsolete ↔ _
    rw [hdropped]
    exact List.mem_append
  refine ⟨out, hfold, hswept.isNext, ?_⟩
  constructor
  · exact hswept.holds
  · show out.current.or (out.retained.getLast?.map Run.name) = out.retained.getLast?.map Run.name
    cases hcurrent : out.current with
    | none => rfl
    | some name =>
      have hsame := hswept.current.resolve_left (by rw [hcurrent]; exact Option.some_ne_none _)
      rw [hcurrent] at hsame
      have hold := hsame.trans h.current
      obtain ⟨run, hrun, hname⟩ := Option.map_eq_some_iff.1 hold.symm
      rw [hswept.last run hrun (hcurrent.trans (congrArg some hname.symm)), Option.map_some, hname]
      rfl
  · exact h.noLive
  · exact h.shows
  · show (out.retained.map Run.name ++ (s.manifest.live.map Run.name).toList).Nodup
    rw [List.nodup_append]
    exact ⟨hsplit.2.1, hliveNodup, fun x hx y hy => hapart x (hretained x hx) y hy⟩
  · intro name hname hin
    rcases List.mem_append.1 hname with hname | hname
    · rcases (hobsolete name).1 hin with hin | hin
      · exact h.apart name (List.mem_append_left _ (hretained name hname)) hin
      · exact hsplit.2.2 name hin name hname rfl
    · rcases (hobsolete name).1 hin with hin | hin
      · exact h.apart name (List.mem_append_right _ hname) hin
      · exact hapart name (hgone name hin) name hname rfl
  · intro live hlive
    obtain ⟨hnot, hin⟩ := h.liveApart live hlive
    refine ⟨fun hmem => hnot (hretained _ hmem), ?_⟩
    rw [hobsolete, not_or]
    exact ⟨hin, fun hmem => hnot (hgone _ hmem)⟩
  · intro name hname
    rcases List.mem_append.1 hname with hname | hname
    · rcases List.mem_append.1 hname with hname | hname
      · exact h.runMade (hretained name hname)
      · exact h.made name (List.mem_append_left _ (List.mem_append_right _ hname))
    · rcases (hobsolete name).1 hname with hname | hname
      · exact h.made name (List.mem_append_right _ hname)
      · exact h.runMade (hgone name hname)
  · exact h.liveMade
  · intro start serial hserial
    show out.files _ = _
    rw [hswept.others]
    · exact h.fresh start serial hserial
    · exact fun hmem => (h.runMade hmem).ne hserial rfl

/-- `expire` up to `finish_live`. -/
theorem Settled.expireAll (h : Settled c w a s) (cutoff : Int) :
    ∃ next mid expired, s.expireAll cutoff = some (next, mid) ∧
      IsNext (recordTimes (newerRecords cutoff a.history)) next ∧
      mid.expiredLive = s.expiredLive ++ expired ∧
      (∀ id, id ∈ expired ↔ ∃ r, a.live id = some r ∧ r.1 ≤ cutoff) ∧
      Held c w (a.expire cutoff) mid := by
  obtain ⟨out, hsweep, hnext, hheld⟩ := h.sweep cutoff
  obtain ⟨mid, expired, hmid, hexpired, hout, hheld'⟩ := hheld.expireLive cutoff
  refine ⟨out.next, mid, expired, ?_, hnext, hexpired, hout, hheld'⟩
  unfold Store.expireAll
  rw [hsweep, Option.bind_eq_bind, Option.bind_some, hmid]
  rfl

theorem Shown.times_eq (a : Shown V) : a.times = recordTimes a.history ∪ Rows.times a.live := rfl

/-- The smaller one of two smallest elements. -/
theorem IsNext.min {times times' : Set Int} {next : Option Int} (h : IsNext times next) {t : Int}
    (ht : IsLeast times' t) : IsNext (times ∪ times') (minNext next t) := by
  cases next with
  | none =>
    have hempty : times = ∅ := h
    rw [hempty, Set.empty_union]
    exact ht
  | some v =>
    have hleast : IsLeast times v := h
    show IsLeast (times ∪ times') (Min.min v t)
    exact hleast.union ht

/-- `expire` takes out what is not newer and nothing else, names the rows it takes out, and gives the
smallest time that is left. -/
theorem Settled.expire (h : Settled c w a s) (cutoff : Int) :
    ∃ next s' out, s.expire w cutoff = some (next, s') ∧ Settled c w (a.expire cutoff) s' ∧
      IsNext (a.expire cutoff).times next ∧ s'.expiredLive = s.expiredLive ++ out ∧
      ∀ id, id ∈ out ↔ ∃ r, a.live id = some r ∧ r.1 ≤ cutoff := by
  obtain ⟨next, mid, out, hmid, hnext, hexpired, hout, hheld⟩ := h.expireAll cutoff
  obtain ⟨s', hs', hsame, hsettled⟩ := hheld.finishLive
  unfold Store.expire
  simp only [hmid, hs', Option.bind_eq_bind, Option.bind_some]
  rw [Shown.times_eq]
  cases hlive : s'.live with
  | none =>
    refine ⟨next, s', out, rfl, hsettled, ?_, hsame.trans hexpired, hout⟩
    have hnone : Rows.times (a.expire cutoff).live = ∅ := by
      rw [hsettled.noLive hlive]
      apply Set.eq_empty_of_forall_notMem
      rintro t ⟨id, r, hr, -⟩
      cases hr
    rw [hnone, Set.union_empty]
    exact hnext
  | some live =>
    exact ⟨_, s', out, rfl, hsettled, hnext.min (hsettled.first live hlive),
      hsame.trans hexpired, hout⟩

theorem Settled.updateLive (h : Settled c w a s) (rows : List (String × Option (Int × V)))
    (reset : Bool) (cutoff : Int) : ∃ mid s', s.updateRows c w rows reset cutoff = some mid ∧
      Held c w (a.update rows reset cutoff) mid ∧ s.updateLive c w rows reset cutoff = some s' ∧
      Settled c w (a.update rows reset cutoff) s' := by
  obtain ⟨mid, hmid, hheld⟩ := h.toHeld.updateRows rows reset cutoff
  unfold Store.updateLive
  cases hnothing : rows.isEmpty && !reset with
  | true =>
    rw [Bool.and_eq_true, List.isEmpty_iff, Bool.not_eq_true'] at hnothing
    obtain ⟨rfl, rfl⟩ := hnothing
    exact ⟨mid, s, hmid, hheld, rfl, h⟩
  | false =>
    obtain ⟨s', hs', -, hsettled⟩ := hheld.finishLive
    refine ⟨mid, s', hmid, hheld, ?_, hsettled⟩
    rw [hmid]
    exact hs'

/-! ## Publishing and opening -/

theorem Settled.publish (h : Settled c w a s) : Settled c w a s.publish := by
  have hrun : ∀ (live : Live) n, (live.setRevision n).run = live.run := by
    intro live n
    unfold Live.setRevision
    split_ifs <;> rfl
  have hlive : ∀ live, s.publish.live = some live → ∃ old, s.live = some old ∧
      live.run = old.run ∧ Shows c live a.live := by
    intro live hlive
    obtain ⟨old, hold, rfl⟩ := Option.map_eq_some_iff.1 hlive
    exact ⟨old, hold, hrun old _, (h.shows old hold).setRevision _⟩
  constructor
  · constructor
    · refine forall₂_holds_congr h.runs fun run hmem => ?_
      exact if_neg (h.apart run.name (mem_names_run hmem))
    · exact h.current
    · intro hnone
      exact h.noLive (Option.map_eq_none_iff.1 hnone)
    · intro live hmem
      obtain ⟨old, -, -, hshows⟩ := hlive live hmem
      exact hshows
    · exact h.nodup
    · intro name _ hin
      cases hin
    · intro live hmem
      obtain ⟨old, hold, hsame, -⟩ := hlive live hmem
      rw [hsame]
      exact ⟨(h.liveApart old hold).1, List.not_mem_nil⟩
    · intro name hname
      refine h.made name (List.mem_append_left _ ?_)
      change name ∈ s.names ++ [] at hname
      rwa [List.append_nil] at hname
    · intro live hmem
      obtain ⟨old, hold, hsame, -⟩ := hlive live hmem
      rw [hsame]
      exact h.liveMade old hold
    · intro start serial hserial
      show (if _ then RunFiles.empty else s.files _) = _
      split_ifs
      · rfl
      · exact h.fresh start serial hserial
  · intro live hmem
    obtain ⟨old, hold, hsame, -⟩ := hlive live hmem
    rw [hsame]
    exact h.named old hold
  · intro live hmem
    obtain ⟨old, hold, hsame, -⟩ := hlive live hmem
    rw [hsame]
    exact h.first old hold
  · intro live hmem
    obtain ⟨old, hold, hsame, -⟩ := hlive live hmem
    rw [hsame]
    exact h.last old hold

theorem setLen_length {α : Type} (zero : α) (l : List α) : Store.setLen zero l.length l = l := by
  unfold Store.setLen
  rw [List.take_length, Nat.sub_self, List.replicate_zero, List.append_nil]

/-- Behind the last record nothing is cut off. -/
theorem Kept.cutFiles {f : RunFiles} {run : Run} {records : List (Int × V)}
    (h : Kept c f run records) (hne : records ≠ []) : Store.cutFiles f run = some f := by
  have hcount := h.count
  have hlength := h.length
  have hpos := List.length_pos_iff.2 hne
  have hlast := List.getLast?_eq_getElem? (l := records)
  obtain ⟨r, hr⟩ : ∃ r, records[records.length - 1]? = some r :=
    ⟨_, List.getElem?_eq_getElem (by omega)⟩
  obtain ⟨e, he, hwhole⟩ := h.entry hr
  have hslot : run.head + (records.length - 1) = run.count - 1 := by omega
  rw [hslot] at he
  have hend : f.data.length = e.offset + (recordBytes c r.2).length := by
    refine h.stop e ?_ r (hlast.trans hr)
    rw [Option.mem_def, List.getLast?_drop, if_neg (by omega), List.getLast?_eq_getElem?, hlength]
    exact he
  unfold Store.cutFiles
  rw [if_pos (by omega), he, Option.bind_eq_bind, Option.bind_some, hwhole.recordSize,
    Option.bind_eq_bind, Option.bind_some, ← hend, ← hlength, setLen_length, setLen_length]

/-- The store that is opened on what was published. -/
theorem Settled.reopen (h : Settled c w a s) (hpublished : s.published = s.manifest) :
    ∃ s', s.reopen = some s' ∧ Settled c w { a with live := fun _ => none } s' := by
  have hopened : ∀ current files, current = s.manifest.runs.getLast?.map Run.name →
      (∀ run ∈ s.manifest.runs, files run.name = s.files run.name) →
      (∀ start serial, s.nextRun ≤ serial → files (runName w start serial) = .empty) →
      Settled c w { a with live := fun _ => none }
        ⟨files, s.published, s.published, current, [], none, [], s.nextRun⟩ := by
    intro current files hcurrent hfiles hfresh
    rw [hpublished]
    constructor
    · constructor
      · exact forall₂_holds_congr h.runs hfiles
      · exact hcurrent
      · exact fun _ => rfl
      · intro live hlive
        cases hlive
      · exact h.nodup
      · intro name _ hin
        cases hin
      · intro live hlive
        cases hlive
      · intro name hname
        refine h.made name (List.mem_append_left _ ?_)
        change name ∈ s.names ++ [] at hname
        rwa [List.append_nil] at hname
      · intro live hlive
        cases hlive
      · exact hfresh
    · intro live hlive
      cases hlive
    · intro live hlive
      cases hlive
    · intro live hlive
      cases hlive
  have hnamed : ∀ run ∈ s.manifest.runs, run.name ∈ s.published.runs.map Run.name ++
      (s.published.live.map Run.name).toList := by
    rw [hpublished]
    exact fun run hrun => mem_names_run hrun
  have hfiles : ∀ run ∈ s.manifest.runs, (if run.name ∈ s.published.runs.map Run.name ++
      (s.published.live.map Run.name).toList then s.files run.name else RunFiles.empty) =
        s.files run.name :=
    fun run hrun => if_pos (hnamed run hrun)
  have hfresh : ∀ start serial, s.nextRun ≤ serial → (if runName w start serial ∈
      s.published.runs.map Run.name ++ (s.published.live.map Run.name).toList then
        s.files (runName w start serial) else RunFiles.empty) = .empty := by
    intro start serial hserial
    split_ifs
    · exact h.fresh start serial hserial
    · rfl
  unfold Store.reopen
  cases hrun : s.published.runs.getLast? with
  | none =>
    simp only [hrun]
    refine ⟨_, rfl, hopened none _ ?_ hfiles hfresh⟩
    rw [← hpublished, hrun]
    rfl
  | some run =>
    have hlast : s.manifest.runs.getLast? = some run := hpublished ▸ hrun
    have hmem := List.mem_of_getLast? hlast
    obtain ⟨i, hi⟩ := List.mem_iff_getElem?.1 hmem
    obtain ⟨records, -, hne, hkept⟩ := forall₂_getElem?_left h.runs hi
    simp only [hrun, hfiles run hmem, hkept.cutFiles hne, Option.map_some]
    refine ⟨_, rfl, hopened (some run.name) _ ?_ ?_ ?_⟩
    · rw [hlast]
      rfl
    · intro run' hrun'
      by_cases heq : run'.name = run.name
      · rw [heq, Function.update_self]
      · rw [Function.update_of_ne heq]
        exact hfiles run' hrun'
    · intro start serial hserial
      rw [Function.update_of_ne]
      · exact hfresh start serial hserial
      · exact Ne.symm ((h.runMade (List.mem_map_of_mem hmem)).ne hserial)

/-! ## Runs -/

theorem Settled.call (h : Settled c w a s) (call : Call V) :
    ∃ s', s.call c w call = some s' ∧ Settled c w (a.call call) s' := by
  cases call with
  | append value ts => exact h.append value ts
  | updateLive rows reset cutoff =>
    obtain ⟨-, s', -, -, hs', hsettled⟩ := h.updateLive rows reset cutoff
    exact ⟨s', hs', hsettled⟩
  | expire cutoff =>
    obtain ⟨next, s', -, hs', hsettled, -⟩ := h.expire cutoff
    exact ⟨s', by rw [Store.call, hs', Option.map_some], hsettled⟩
  | publish => exact ⟨s.publish, rfl, h.publish⟩

theorem Settled.calls (h : Settled c w a s) (calls : List (Call V)) :
    ∃ s', calls.foldlM (Store.call c w) s = some s' ∧
      Settled c w (calls.foldl Shown.call a) s' := by
  induction calls generalizing a s with
  | nil => exact ⟨s, rfl, h⟩
  | cons call calls ih =>
    obtain ⟨s₁, hs₁, h₁⟩ := h.call call
    rw [List.foldlM_cons, hs₁]
    exact ih h₁

theorem Settled.session (h : Settled c w a s) (calls : List (Call V)) :
    ∃ s', s.session c w calls = some s' ∧ Settled c w (a.session calls) s' := by
  obtain ⟨s₁, hs₁, h₁⟩ := h.calls calls
  unfold Store.session
  rw [hs₁, Option.bind_some]
  exact h₁.publish.reopen rfl

theorem Settled.sessions (h : Settled c w a s) (sessions : List (List (Call V))) :
    ∃ s', sessions.foldlM (Store.session c w) s = some s' ∧
      Settled c w (sessions.foldl Shown.session a) s' := by
  induction sessions generalizing a s with
  | nil => exact ⟨s, rfl, h⟩
  | cons calls sessions ih =>
    obtain ⟨s₁, hs₁, h₁⟩ := h.session calls
    rw [List.foldlM_cons, hs₁]
    exact ih h₁

/-- After any calls the store holds what it is to show, before and after the live run is finished or
repacked; and it expires what is not newer, and nothing else. -/
theorem store_spec (c : Codec V) (w : World) (nextRun : Nat) (sessions : List (List (Call V)))
    (calls : List (Call V)) :
    ∃ s, Store.run c w nextRun sessions calls = some s ∧
      Settled c w (Shown.run sessions calls) s ∧
      (∀ rows reset cutoff, ∃ mid s', s.updateRows c w rows reset cutoff = some mid ∧
        Held c w ((Shown.run sessions calls).update rows reset cutoff) mid ∧
        s.updateLive c w rows reset cutoff = some s' ∧
        Settled c w ((Shown.run sessions calls).update rows reset cutoff) s') ∧
      ∀ cutoff, ∃ before mid next s' expired, s.expireAll cutoff = some (before, mid) ∧
        Held c w ((Shown.run sessions calls).expire cutoff) mid ∧
        s.expire w cutoff = some (next, s') ∧
        Settled c w ((Shown.run sessions calls).expire cutoff) s' ∧
        IsNext ((Shown.run sessions calls).expire cutoff).times next ∧
        s'.expiredLive = s.expiredLive ++ expired ∧
        ∀ id, id ∈ expired ↔ ∃ r, (Shown.run sessions calls).live id = some r ∧ r.1 ≤ cutoff := by
  obtain ⟨s₁, hs₁, h₁⟩ := (settled_rebuilt c w nextRun).sessions sessions
  obtain ⟨s, hs, h⟩ := h₁.calls calls
  refine ⟨s, ?_, h, fun rows reset cutoff => h.updateLive rows reset cutoff, fun cutoff => ?_⟩
  · unfold Store.run
    rw [hs₁, Option.bind_some, hs]
  · obtain ⟨before, mid, -, hmid, -, -, -, hheld⟩ := h.expireAll cutoff
    obtain ⟨next, s', expired, hs', hsettled, hnext, hexpired, hout⟩ := h.expire cutoff
    exact ⟨before, mid, next, s', expired, hmid, hheld, hs', hsettled, hnext, hexpired, hout⟩

/-- A block of literals only, as blocks of a few bytes are packed. -/
def literalBlock (raw : Bytes) : Bytes :=
  if raw.length < 15 then .ofNat (16 * raw.length) :: raw
  else 0xF0 :: List.replicate ((raw.length - 15) / 255) 255 ++
    .ofNat ((raw.length - 15) % 255) :: raw

/-- The values `false` and `true`. -/
def boolCodec : Codec Bool where
  event _ := ""
  encode value := [if value then 0xC3 else 0xC2]
  compressBlock := literalBlock
  compressBlock_ne_nil raw := by
    unfold literalBlock
    split_ifs <;> simp
  compressBlock_le raw := by
    unfold literalBlock
    split_ifs
    · simp only [List.length_cons]
      omega
    · simp only [List.length_cons, List.length_append, List.length_replicate]
      omega
  encode_lt value := by
    show 1 < 2 ^ 63
    decide

/-- The clock goes back, and a row expires. -/
theorem store_spec_bool : ∃ s, Store.run boolCodec ⟨7, fun _ => 1000⟩ 0 []
    [.append true 20, .append false 10, .updateLive [("a", some (15, true))] false 0] = some s ∧
    ∃ next s' expired, s.expire ⟨7, fun _ => 1000⟩ 15 = some (next, s') ∧
      s'.expiredLive = s.expiredLive ++ expired ∧ "a" ∈ expired := by
  obtain ⟨s, hs, -, -, hexpire⟩ := store_spec boolCodec ⟨7, fun _ => 1000⟩ 0 []
    [.append true 20, .append false 10, .updateLive [("a", some (15, true))] false 0]
  obtain ⟨-, -, next, s', expired, -, -, hs', -, -, hexpired, hout⟩ := hexpire 15
  exact ⟨s, hs, next, s', expired, hs', hexpired, (hout "a").2 ⟨(15, true), by decide, by decide⟩⟩

end Sunpack.DisplayStore
