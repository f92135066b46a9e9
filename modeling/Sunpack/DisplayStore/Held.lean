import Sunpack.DisplayStore.Store

/-!
# What the store holds

The invariant of the store, and that appending and finishing the live run keep it.
-/

namespace Sunpack.DisplayStore

open Sunpack.Lib

variable {V : Type} {c : Codec V} {w : World}

/-- The names that the manifest gives. -/
def Store.names (s : Store) : List RunName :=
  s.manifest.runs.map Run.name ++ (s.manifest.live.map Run.name).toList

/-- A name that was drawn already. -/
def Made (w : World) (nextRun : Nat) (name : RunName) : Prop :=
  ∃ start serial, serial < nextRun ∧ name = runName w start serial

theorem Made.mono {m n : Nat} {name : RunName} (h : Made w m name) (hle : m ≤ n) : Made w n name := by
  obtain ⟨start, serial, hlt, hname⟩ := h
  exact ⟨start, serial, by omega, hname⟩

theorem Made.ne {n serial : Nat} {start name : RunName} (h : Made w n name) (hle : n ≤ serial) :
    name ≠ runName w start serial := by
  obtain ⟨start', serial', hlt, rfl⟩ := h
  intro heq
  have := runName_serial heq
  omega

theorem made_new (w : World) (start : RunName) (nextRun : Nat) :
    Made w (nextRun + 1) (runName w start nextRun) :=
  ⟨start, nextRun, by omega, rfl⟩

/-- The invariant that also holds while a live run is being changed: the runs of the manifest hold
the records, the live run shows the rows, and no name that is still needed is obsolete. -/
structure Held (c : Codec V) (w : World) (a : Shown V) (s : Store) : Prop where
  runs : List.Forall₂ (Holds c s.files) s.manifest.runs a.history
  current : s.current = s.manifest.runs.getLast?.map Run.name
  noLive : s.live = none → a.live = fun _ => none
  shows : ∀ live, s.live = some live → Shows c live a.live
  nodup : s.names.Nodup
  apart : ∀ name ∈ s.names, name ∉ s.obsolete
  liveApart : ∀ live, s.live = some live →
    live.run.name ∉ s.manifest.runs.map Run.name ∧ live.run.name ∉ s.obsolete
  made : ∀ name ∈ s.names ++ s.obsolete, Made w s.nextRun name
  liveMade : ∀ live, s.live = some live → Made w s.nextRun live.run.name
  fresh : ∀ start serial, s.nextRun ≤ serial → s.files (runName w start serial) = .empty

/-- The times of the rows. -/
def Rows.times (rows : Rows V) : Set Int := { t | ∃ id r, rows id = some r ∧ r.1 = t }

/-- The invariant between two calls: the manifest has the live run, with the times of its first and its
last row. -/
structure Settled (c : Codec V) (w : World) (a : Shown V) (s : Store) : Prop extends
    Held c w a s where
  named : ∀ live, s.live = some live → s.manifest.live = some live.run
  first : ∀ live, s.live = some live → IsLeast (Rows.times a.live) live.run.first
  last : ∀ live, s.live = some live → IsGreatest (Rows.times a.live) live.run.last

theorem settled_rebuilt (c : Codec V) (w : World) (nextRun : Nat) :
    Settled c w .nothing (rebuilt nextRun) where
  runs := .nil
  current := rfl
  noLive _ := rfl
  shows live h := by cases h
  nodup := .nil
  apart name h := by cases h
  liveApart live h := by cases h
  made name h := by cases h
  liveMade live h := by cases h
  fresh _ _ _ := rfl
  named live h := by cases h
  first live h := by cases h
  last live h := by cases h

variable {a : Shown V} {s : Store}

/-! ## Appending -/

theorem forall₂_getLast? {α β : Type} {R : α → β → Prop} {l : List α} {m : List β}
    (h : List.Forall₂ R l m) : (l.getLast? = none ∧ m.getLast? = none) ∨
      ∃ x y, l.getLast? = some x ∧ m.getLast? = some y ∧ R x y ∧
        List.Forall₂ R l.dropLast m.dropLast := by
  induction h with
  | nil => exact .inl ⟨rfl, rfl⟩
  | @cons x y l m hxy hlm ih =>
    cases hlm with
    | nil => exact .inr ⟨x, y, rfl, rfl, hxy, .nil⟩
    | @cons x' y' l m hxy' hlm =>
      obtain ⟨hnone, -⟩ | ⟨x'', y'', hx, hy, hlast, hfront⟩ := ih
      · simp at hnone
      · exact .inr ⟨x'', y'', by rwa [List.getLast?_cons_cons], by rwa [List.getLast?_cons_cons],
          hlast, .cons hxy hfront⟩

/-- A record behind the records of the last run. -/
theorem holds_write {files : RunName → RunFiles} {old : List Run}
    {history : List (List (Int × V))} (hold : List.Forall₂ (Holds c files) old history) {run : Run}
    {records : List (Int × V)} (hkept : Kept c (files run.name) run records)
    (hnew : run.name ∉ old.map Run.name) {ts : Int} (hts : ∀ r ∈ records.getLast?, r.1 ≤ ts)
    (value : V) :
    List.Forall₂
      (Holds c (Function.update files run.name (writeRecord c (files run.name) run value ts).1))
      (old ++ [(writeRecord c (files run.name) run value ts).2.1])
      (history ++ [records ++ [(ts, value)]]) := by
  refine List.rel_append (forall₂_holds_congr hold fun r hr => Function.update_of_ne ?_ _ _)
    (.cons ⟨by simp, ?_⟩ .nil)
  · rintro heq
    exact hnew (heq ▸ List.mem_map_of_mem hr)
  · show Kept c (Function.update files run.name _ run.name) _ _
    rw [Function.update_self]
    exact hkept.write hts value

/-- A note of the revision of the tasks is seen by nobody here. -/
theorem Settled.note (h : Settled c w a s) (n : Nat) :
    Settled c w a { s with manifest := { s.manifest with taskRevision := n } } where
  runs := h.runs
  current := h.current
  noLive := h.noLive
  shows := h.shows
  nodup := h.nodup
  apart := h.apart
  liveApart := h.liveApart
  made := h.made
  liveMade := h.liveMade
  fresh := h.fresh
  named := h.named
  first := h.first
  last := h.last

theorem Held.note (h : Held c w a s) (n : Nat) :
    Held c w a { s with manifest := { s.manifest with taskRevision := n } } where
  runs := h.runs
  current := h.current
  noLive := h.noLive
  shows := h.shows
  nodup := h.nodup
  apart := h.apart
  liveApart := h.liveApart
  made := h.made
  liveMade := h.liveMade
  fresh := h.fresh

theorem mem_names_run {run : Run} (h : run ∈ s.manifest.runs) : run.name ∈ s.names :=
  List.mem_append_left _ (List.mem_map_of_mem h)

theorem Held.runMade (h : Held c w a s) {name : RunName}
    (hname : name ∈ s.manifest.runs.map Run.name) : Made w s.nextRun name :=
  h.made name (List.mem_append_left _ (List.mem_append_left _ hname))

theorem Held.not_mem_new (h : Held c w a s) (start : RunName) :
    runName w start s.nextRun ∉ s.names ++ s.obsolete :=
  fun hmem => (h.made _ hmem).ne le_rfl rfl

/-- Another run with one record. -/
theorem Settled.writeNew (h : Settled c w a s) (value : V) (ts : Int) :
    ∃ s', (s.startRun w).writeCurrent c value ts = some s' ∧
      Settled c w { a with history := a.history ++ [[(ts, value)]] } s' := by
  have hnames := h.not_mem_new historyStart
  rw [List.mem_append, not_or] at hnames
  have hnew : runName w historyStart s.nextRun ∉ s.manifest.runs.map Run.name :=
    fun hmem => hnames.1 (List.mem_append_left _ hmem)
  have hempty : s.files (runName w historyStart s.nextRun) = .empty :=
    h.fresh historyStart s.nextRun le_rfl
  have hkept : Kept c (s.files (runName w historyStart s.nextRun))
      ⟨runName w historyStart s.nextRun, 0, 0, 0, 0, false⟩ [] := by
    rw [hempty]
    exact kept_empty c _ rfl rfl
  have hnone : ∀ r ∈ ([] : List (Int × V)).getLast?, r.1 ≤ ts := fun r hr => by cases hr
  have hruns := @holds_write V c s.files _ _ h.runs
    ⟨runName w historyStart s.nextRun, 0, 0, 0, 0, false⟩ [] hkept hnew ts hnone value
  unfold Store.writeCurrent Store.startRun
  simp only [List.getLast?_concat, List.dropLast_concat]
  refine ⟨_, rfl, ?_⟩
  generalize hout : writeRecord c (s.files (runName w historyStart s.nextRun))
    ⟨runName w historyStart s.nextRun, 0, 0, 0, 0, false⟩ value ts = out at hruns
  have hname : out.2.1.name = runName w historyStart s.nextRun := by
    rw [← hout]
    rfl
  have hperm : ((s.manifest.runs ++ [out.2.1]).map Run.name ++
      (s.manifest.live.map Run.name).toList).Perm (runName w historyStart s.nextRun :: s.names) := by
    rw [List.map_append, List.map_singleton, hname, List.append_assoc]
    exact List.perm_middle
  constructor
  · constructor
    · exact hruns
    · show some _ = ((s.manifest.runs ++ [out.2.1]).getLast?).map Run.name
      rw [List.getLast?_concat, Option.map_some, hname]
    · exact h.noLive
    · exact h.shows
    · exact hperm.symm.nodup (List.nodup_cons.2 ⟨hnames.1, h.nodup⟩)
    · intro name hmem
      rcases List.mem_cons.1 (hperm.subset hmem) with rfl | hmem
      · exact hnames.2
      · exact h.apart name hmem
    · intro live hlive
      obtain ⟨hruns, hobsolete⟩ := h.liveApart live hlive
      refine ⟨?_, hobsolete⟩
      show live.run.name ∉ (s.manifest.runs ++ [out.2.1]).map Run.name
      rw [List.map_append, List.map_singleton, List.mem_append, List.mem_singleton, hname, not_or]
      exact ⟨hruns, (h.liveMade live hlive).ne le_rfl⟩
    · intro name hmem
      rcases List.mem_append.1 hmem with hmem | hmem
      · rcases List.mem_cons.1 (hperm.subset hmem) with rfl | hmem
        · exact made_new w historyStart s.nextRun
        · exact (h.made name (List.mem_append_left _ hmem)).mono (Nat.le_succ _)
      · exact (h.made name (List.mem_append_right _ hmem)).mono (Nat.le_succ _)
    · exact fun live hlive => (h.liveMade live hlive).mono (Nat.le_succ _)
    · intro start serial hle
      show Function.update s.files _ _ _ = _
      rw [Function.update_of_ne]
      · exact h.fresh start serial (Nat.le_of_succ_le hle)
      · exact Ne.symm ((made_new w historyStart s.nextRun).ne hle)
  · exact h.named
  · exact h.first
  · exact h.last

/-- Another record in the last run. -/
theorem Settled.writeLast (h : Settled c w a s) {run : Run} {records : List (Int × V)}
    (hrun : s.manifest.runs.getLast? = some run) (hholds : Holds c s.files run records)
    (hfront : List.Forall₂ (Holds c s.files) s.manifest.runs.dropLast a.history.dropLast) {ts : Int}
    (hts : run.last ≤ ts) (value : V) :
    ∃ s', s.writeCurrent c value ts = some s' ∧ Settled c w
      { a with history := a.history.dropLast ++ [records ++ [(ts, value)]] } s' := by
  have hruns := List.dropLast_append_getLast? run hrun
  have hlast : ∀ r ∈ records.getLast?, r.1 ≤ ts := by
    intro r hr
    rw [← hholds.2.last r hr]
    exact hts
  have hnodup := h.nodup
  unfold Store.names at hnodup
  rw [← hruns, List.map_append, List.nodup_append, List.nodup_append] at hnodup
  have hnew : run.name ∉ s.manifest.runs.dropLast.map Run.name :=
    fun hmem => hnodup.1.2.2 _ hmem _ List.mem_cons_self rfl
  have hwritten := holds_write hfront hholds.2 hnew hlast value
  have hcurrent := h.current
  rw [hrun, Option.map_some] at hcurrent
  unfold Store.writeCurrent
  simp only [hcurrent, hrun]
  refine ⟨_, rfl, ?_⟩
  generalize hout : writeRecord c (s.files run.name) run value ts = out at hwritten
  have hname : out.2.1.name = run.name := by
    rw [← hout]
    rfl
  have hnames : (s.manifest.runs.dropLast ++ [out.2.1]).map Run.name =
      s.manifest.runs.map Run.name := by
    conv_rhs => rw [← hruns]
    rw [List.map_append, List.map_append, List.map_singleton, List.map_singleton, hname]
  have hsame : (s.manifest.runs.dropLast ++ [out.2.1]).map Run.name ++
      (s.manifest.live.map Run.name).toList = s.names := by
    rw [hnames]
    rfl
  have hmade := h.runMade (List.mem_map_of_mem (List.mem_of_getLast? hrun))
  constructor
  · constructor
    · exact hwritten
    · show some run.name = ((s.manifest.runs.dropLast ++ [out.2.1]).getLast?).map Run.name
      rw [List.getLast?_concat, Option.map_some, hname]
    · exact h.noLive
    · exact h.shows
    · show (_ ++ _ : List RunName).Nodup
      rw [hsame]
      exact h.nodup
    · intro name hmem
      exact h.apart name (hsame ▸ hmem)
    · intro live hlive
      show live.run.name ∉ (s.manifest.runs.dropLast ++ [out.2.1]).map Run.name ∧ _
      rw [hnames]
      exact h.liveApart live hlive
    · intro name hmem
      refine h.made name ?_
      rw [← hsame]
      exact hmem
    · exact h.liveMade
    · intro start serial hle
      show Function.update s.files _ _ _ = _
      rw [Function.update_of_ne (Ne.symm (hmade.ne hle))]
      exact h.fresh start serial hle
  · exact h.named
  · exact h.first
  · exact h.last

theorem Settled.append (h : Settled c w a s) (value : V) (ts : Int) :
    ∃ s', s.append c w value ts = some s' ∧ Settled c w (a.append value ts) s' := by
  have hnoted : Settled c w a (if kind c value ≠ 0 then
      { s with manifest := { s.manifest with taskRevision := s.manifest.taskRevision + 1 } }
      else s) := by
    split_ifs
    · exact h.note _
    · exact h
  unfold Store.append
  generalize (if kind c value ≠ 0 then
    { s with manifest := { s.manifest with taskRevision := s.manifest.taskRevision + 1 } }
    else s) = s₁ at hnoted
  show ∃ s', Store.writeCurrent c (if Store.needsRun s₁.manifest.runs ts then s₁.startRun w else s₁)
    value ts = some s' ∧ _
  unfold Shown.append Store.needsRun
  obtain ⟨hruns, hhistory⟩ | ⟨run, records, hrun, hrecords, hholds, hfront⟩ :=
    forall₂_getLast? hnoted.runs
  · have hnil := List.getLast?_eq_none_iff.1 hhistory
    have hnew := hnoted.writeNew value ts
    simp only [hruns, hhistory, Option.all_none, if_true]
    rw [hnil] at hnew
    exact hnew
  · have hends : (decide (ts < run.last) || ts / dayUs != run.last / dayUs) =
        Shown.endsRun records ts := by
      unfold Shown.endsRun
      obtain ⟨hne, hkept⟩ := hholds
      rw [List.getLast?_eq_some_getLast hne, Option.all_some,
        ← hkept.last _ (List.getLast?_eq_some_getLast hne)]
    simp only [hrun, hrecords, Option.all_some, hends]
    cases hnew : Shown.endsRun records ts with
    | true => exact hnoted.writeNew value ts
    | false =>
      rw [hnew, Bool.or_eq_false_iff, decide_eq_false_iff_not, not_lt] at hends
      exact hnoted.writeLast hrun hholds hfront hends.1 value

/-! ## Changing the live run -/

/-- Another live run, or the same one changed. -/
theorem Held.withLive (h : Held c w a s) {live : Live} {shown : Rows V} {nextRun : Nat}
    {expired : List String} (hshows : Shows c live shown) (hle : s.nextRun ≤ nextRun)
    (hapart : live.run.name ∉ s.manifest.runs.map Run.name ∧ live.run.name ∉ s.obsolete)
    (hmade : Made w nextRun live.run.name) :
    Held c w { a with live := shown }
      { s with live := some live, nextRun := nextRun, expiredLive := expired } where
  runs := h.runs
  current := h.current
  noLive hnone := by cases hnone
  shows live' hlive := by
    obtain rfl := Option.some.inj hlive
    exact hshows
  nodup := h.nodup
  apart := h.apart
  liveApart live' hlive := by
    obtain rfl := Option.some.inj hlive
    exact hapart
  made name hname := (h.made name hname).mono hle
  liveMade live' hlive := by
    obtain rfl := Option.some.inj hlive
    exact hmade
  fresh start serial hserial := h.fresh start serial (le_trans hle hserial)

theorem Held.report (h : Held c w a s) (expired : List String) :
    Held c w a { s with expiredLive := expired } where
  runs := h.runs
  current := h.current
  noLive := h.noLive
  shows := h.shows
  nodup := h.nodup
  apart := h.apart
  liveApart := h.liveApart
  made := h.made
  liveMade := h.liveMade
  fresh := h.fresh

theorem Held.resetLive (h : Held c w a s) :
    Held c w { a with live := fun _ => none } s.resetLive where
  runs := h.runs
  current := h.current
  noLive _ := rfl
  shows live hlive := by cases hlive
  nodup := by
    have hnodup := h.nodup
    unfold Store.names at hnodup
    show (s.manifest.runs.map Run.name ++ []).Nodup
    rw [List.append_nil]
    exact (List.nodup_append.1 hnodup).1
  apart name hname hobsolete := by
    have hnodup := h.nodup
    unfold Store.names at hnodup
    change name ∈ s.manifest.runs.map Run.name ++ [] at hname
    rw [List.append_nil] at hname
    rcases List.mem_append.1 hobsolete with hobsolete | hlive
    · exact h.apart name (List.mem_append_left _ hname) hobsolete
    · exact (List.nodup_append.1 hnodup).2.2 name hname name hlive rfl
  liveApart live hlive := by cases hlive
  made name hname := by
    rcases List.mem_append.1 hname with hname | hname
    · change name ∈ s.manifest.runs.map Run.name ++ [] at hname
      rw [List.append_nil] at hname
      exact h.runMade hname
    · rcases List.mem_append.1 hname with hname | hname
      · exact h.made name (List.mem_append_right _ hname)
      · exact h.made name (List.mem_append_left _ (List.mem_append_right _ hname))
  liveMade live hlive := by cases hlive
  fresh := h.fresh

/-- The row of an identity is taken out. -/
theorem Held.removeRow (h : Held c w a s) (id : String) :
    ∃ s', s.removeRow id = some s' ∧
      Held c w { a with live := Function.update a.live id none } s' := by
  unfold Store.removeRow
  cases hlive : s.live with
  | none =>
    have hnone := h.noLive hlive
    have hsame : Function.update a.live id none = a.live := by
      rw [hnone]
      exact Function.update_eq_self id _
    rw [hsame]
    exact ⟨s, rfl, h⟩
  | some live =>
    obtain ⟨live', hremove, hrun, hshows⟩ := (h.shows live hlive).remove id
    simp only [hremove, Option.map_some]
    refine ⟨_, rfl, ?_⟩
    have hname : live'.run.name = live.run.name := congrArg Run.name hrun
    exact h.withLive hshows le_rfl (hname ▸ h.liveApart live hlive) (hname ▸ h.liveMade live hlive)

/-- The live run that a row goes to. -/
theorem Held.openLive (h : Held c w a s) : Shows c (s.openLive w).1 a.live ∧
    s.nextRun ≤ (s.openLive w).2 ∧
    ((s.openLive w).1.run.name ∉ s.manifest.runs.map Run.name ∧
      (s.openLive w).1.run.name ∉ s.obsolete) ∧
    Made w (s.openLive w).2 (s.openLive w).1.run.name := by
  unfold Store.openLive
  cases hlive : s.live with
  | none =>
    have hnew := h.not_mem_new liveStart
    rw [List.mem_append, not_or] at hnew
    rw [h.noLive hlive]
    exact ⟨shows_newLive _, Nat.le_succ _,
      ⟨fun hmem => hnew.1 (List.mem_append_left _ hmem), hnew.2⟩, made_new w liveStart s.nextRun⟩
  | some live =>
    exact ⟨h.shows live hlive, le_rfl, h.liveApart live hlive, h.liveMade live hlive⟩

/-- One turn of the loop of `update_live`. -/
theorem Held.updateRow (h : Held c w a s) (cutoff : Int) (row : String × Option (Int × V)) :
    ∃ s', Store.updateRow c w cutoff s row = some s' ∧
      Held c w { a with live := Shown.updateRow cutoff a.live row } s' := by
  obtain ⟨id, value⟩ := row
  obtain ⟨s₁, hs₁, h₁⟩ := (h.report (s.expiredLive ++
    if value.any (·.1 ≤ cutoff) then [id] else [])).removeRow id
  unfold Store.updateRow Shown.updateRow
  simp only [hs₁, Option.bind_eq_bind, Option.bind_some]
  cases hvalue : value.filter (cutoff < ·.1) with
  | none => exact ⟨s₁, rfl, h₁⟩
  | some r =>
    obtain ⟨hshows, hle, hapart, hmade⟩ := h₁.openLive
    obtain ⟨live, hput, hname, hshows'⟩ := hshows.put (Function.update_self _ _ _) r.2 r.1
    simp only [hput, Option.map_some]
    refine ⟨_, rfl, ?_⟩
    rw [Function.update_idem] at hshows'
    exact h₁.withLive hshows' hle (hname ▸ hapart) (hname ▸ hmade)

theorem Held.updateRowsLoop (h : Held c w a s) (cutoff : Int)
    (rows : List (String × Option (Int × V))) :
    ∃ s', rows.foldlM (Store.updateRow c w cutoff) s = some s' ∧
      Held c w { a with live := rows.foldl (Shown.updateRow cutoff) a.live } s' := by
  induction rows generalizing a s with
  | nil => exact ⟨s, rfl, h⟩
  | cons row rows ih =>
    obtain ⟨s₁, hs₁, h₁⟩ := h.updateRow cutoff row
    obtain ⟨s', hs', h'⟩ := ih h₁
    rw [List.foldlM_cons, hs₁]
    exact ⟨s', hs', h'⟩

theorem Held.setRevision (h : Held c w a s) (revision : Nat) :
    Held c w a { s with live := s.live.map (·.setRevision revision) } := by
  cases hlive : s.live with
  | none =>
    have hsame : ({ s with live := none } : Store) = s := by
      rw [← hlive]
    rw [Option.map_none, hsame]
    exact h
  | some live =>
    have hname : (live.setRevision revision).run.name = live.run.name := by
      unfold Live.setRevision
      split_ifs <;> rfl
    rw [Option.map_some]
    exact h.withLive ((h.shows live hlive).setRevision revision) le_rfl
      (hname ▸ h.liveApart live hlive) (hname ▸ h.liveMade live hlive)

/-- `update_live` up to its end. -/
theorem Held.updateRows (h : Held c w a s) (rows : List (String × Option (Int × V))) (reset : Bool)
    (cutoff : Int) : ∃ s', s.updateRows c w rows reset cutoff = some s' ∧
      Held c w (a.update rows reset cutoff) s' := by
  have hreset : Held c w { a with live := if reset then fun _ => none else a.live }
      (if reset then s.resetLive else s) := by
    cases reset with
    | true => exact h.resetLive
    | false => exact h
  obtain ⟨s', hs', h'⟩ := (hreset.setRevision 0).updateRowsLoop cutoff rows
  unfold Store.updateRows
  simp only [hs', Option.map_some]
  exact ⟨_, rfl, h'.note _⟩

end Sunpack.DisplayStore
