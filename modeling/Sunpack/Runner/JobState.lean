import Sunpack.Lib.Episodes
import Sunpack.PathKeys

/-!
# The waiting state of a native job

`_on_space_event` and `_apply_native_event_to_job_state` of `sevenzip_runner.py`: the events of a job
are folded into its state. The worker prints them without a lock, so they come in any order.
-/

namespace Sunpack.Runner

open Lib

/-- A field of a JSON object, by what Python makes of it: its truth value, `int` of it (or nothing
where that raises) and `str` of it. -/
structure Field where
  truthy : Bool
  toInt : Option Int
  toStr : Text

namespace Field

def absent : Field := ⟨false, none, "None".toList⟩

def ofInt (n : Int) : Field := ⟨decide (n ≠ 0), some n, (toString n).toList⟩

def ofText (text : Text) : Field := ⟨!text.isEmpty, none, text⟩

/-- `int(value or 0)` -/
def intOrZero (f : Field) : Option Int := if f.truthy then f.toInt else some 0

/-- `str(value or "")` -/
def strOrEmpty (f : Field) : Text := if f.truthy then f.toStr else []

end Field

/-- A payload that is a dictionary. -/
structure Payload where
  type : Field
  event : Field
  episodeId : Field
  volumeKey : Field
  win32Error : Field

structure JobState where
  state : Text := []
  spaceEpisode : Int := 0
  spaceResumedSeen : Bool := false
  spaceWaiting : Bool := false
  spaceBlockedVolumeKey : Text := []
  spaceBlockedWin32Error : Int := 0
  memoryEpisode : Int := 0
  memoryWaiting : Bool := false
  memoryResumedSeen : Bool := false

inductive Report
  | notSpace
  | accepted
  | stale
deriving DecidableEq, Repr

def spaceKind (event : Text) : Option EpisodeKind :=
  if event = "space_blocked".toList then some .blocked
  else if event = "space_status".toList then some .status
  else if event = "space_resumed".toList then some .resumed
  else none

def memoryKind (event : Text) : Option EpisodeKind :=
  if event = "memory_blocked".toList then some .blocked
  else if event = "memory_resumed".toList then some .resumed
  else none

/-- `_on_space_event`; it returns false for an event that is over. -/
def onSpaceEvent (s : JobState) (event : EpisodeKind) (payload : Payload) : Bool × JobState :=
  let episode := payload.episodeId.intOrZero.getD 0
  if episode < s.spaceEpisode then (false, s)
  else
    let s := if s.spaceEpisode < episode then
      { s with spaceEpisode := episode, spaceResumedSeen := false } else s
    if event = .resumed then (true, { s with spaceResumedSeen := true, spaceWaiting := false })
    else if s.spaceResumedSeen then (false, s)
    else if event = .blocked then
      (true, { s with
        spaceWaiting := true
        spaceBlockedVolumeKey := payload.volumeKey.strOrEmpty
        spaceBlockedWin32Error := payload.win32Error.intOrZero.getD 0 })
    else (true, s)

/-- The branch for the events of the memory manager; `int` may raise. -/
def onMemoryEvent (s : JobState) (event : EpisodeKind) (payload : Payload) :
    Option (Report × JobState) :=
  payload.episodeId.intOrZero.map fun episode =>
    if episode < s.memoryEpisode ∨ episode = s.memoryEpisode ∧ s.memoryResumedSeen = true then
      (.stale, s)
    else
      (.accepted, { s with
        memoryEpisode := episode
        memoryWaiting := decide (event = .blocked)
        memoryResumedSeen := decide (event = .resumed) })

/-- `removeprefix("job_")` -/
def removeJobPrefix (event : Text) : Text :=
  if "job_".toList.isPrefixOf event then event.drop 4 else event

/-- `_apply_native_event_to_job_state` of a payload, or nothing where it raises. -/
def applyNativeEvent (s : JobState) (payload : Option Payload) : Option (Report × JobState) :=
  match payload with
  | none => some (.notSpace, s)
  | some payload =>
    let event := payload.event.strOrEmpty
    if payload.type.toStr = "result".toList then
      some (.notSpace, { s with state := "result_received".toList })
    else if event.isEmpty then some (.notSpace, s)
    else
      match spaceKind event with
      | some kind =>
        let folded := onSpaceEvent s kind payload
        some (if folded.1 then .accepted else .stale, folded.2)
      | none =>
        match memoryKind event with
        | some kind => onMemoryEvent s kind payload
        | none =>
          if payload.type.toStr = "native_memory".toList then some (.notSpace, s)
          else some (.notSpace, { s with state := removeJobPrefix event })

/-- The state after the lines of a job. -/
def applyAll (s : JobState) : List (Option Payload) → Option JobState
  | [] => some s
  | payload :: rest => (applyNativeEvent s payload).bind fun applied => applyAll applied.2 rest

/-! ## The events of a job -/

/-- What the dispatcher sees of a payload. -/
def Payload.kindBy (kinds : Text → Option EpisodeKind) (payload : Payload) : Option EpisodeKind :=
  if payload.type.toStr = "result".toList then none else kinds payload.event.strOrEmpty

def Payload.eventBy (kinds : Text → Option EpisodeKind) (payload : Payload) : Option EpisodeEvent :=
  (payload.kindBy kinds).map fun kind => (payload.episodeId.intOrZero.getD 0, kind)

def spaceEvent (payload : Option Payload) : Option EpisodeEvent :=
  payload.bind (·.eventBy spaceKind)

def memoryEvent (payload : Option Payload) : Option EpisodeEvent :=
  payload.bind (·.eventBy memoryKind)

/-- The number of a memory event is a number. -/
def Readable (payload : Option Payload) : Prop :=
  (memoryEvent payload).isSome → ∃ p, payload = some p ∧ p.episodeId.intOrZero.isSome

/-! ## Space events -/

section space

variable {s : JobState} {kind : EpisodeKind} {payload : Payload} {seen : List EpisodeEvent}

/-- The state of a job tracks the space events that were seen. -/
def TracksSpace (seen : List EpisodeEvent) (s : JobState) : Prop :=
  Tracks seen s.spaceEpisode s.spaceResumedSeen s.spaceWaiting

/-- The volume and the error are those of a blocked event of the newest episode. -/
def Sourced (lines : List (Option Payload)) (s : JobState) : Prop :=
  (s.spaceEpisode, EpisodeKind.blocked) ∈ lines.filterMap spaceEvent → s.spaceResumedSeen = false →
    ∃ p, some p ∈ lines ∧ p.eventBy spaceKind = some (s.spaceEpisode, .blocked) ∧
      s.spaceBlockedVolumeKey = p.volumeKey.strOrEmpty ∧
      s.spaceBlockedWin32Error = p.win32Error.intOrZero.getD 0

/-- What an accepted event makes of the waiting flag. -/
def waitingAfter : EpisodeKind → Bool → Bool
  | .blocked, _ => true
  | .status, waiting => waiting
  | .resumed, _ => false

theorem waitingAfter_eq_true {waiting : Bool} (hkind : kind ≠ .resumed)
    (h : waiting = true ∨ kind = .blocked) : waitingAfter kind waiting = true := by
  cases kind with
  | blocked => rfl
  | status => exact h.resolve_right (by simp)
  | resumed => exact absurd rfl hkind

theorem waitingAfter_resumed {waiting : Bool} (hkind : kind = .resumed) :
    waitingAfter kind waiting = false := by
  rw [hkind]
  rfl

theorem of_waitingAfter {waiting : Bool} (h : waitingAfter kind waiting = true) :
    waiting = true ∨ kind = .blocked := by
  cases kind with
  | blocked => exact .inr rfl
  | status => exact .inl h
  | resumed => exact absurd h (by simp [waitingAfter])

theorem onSpaceEvent_older (h : payload.episodeId.intOrZero.getD 0 < s.spaceEpisode) :
    onSpaceEvent s kind payload = (false, s) := by
  unfold onSpaceEvent
  rw [if_pos h]

theorem onSpaceEvent_newer (h : s.spaceEpisode < payload.episodeId.intOrZero.getD 0) :
    onSpaceEvent s kind payload =
      (true, { s with
        spaceEpisode := payload.episodeId.intOrZero.getD 0
        spaceResumedSeen := decide (kind = .resumed)
        spaceWaiting := waitingAfter kind s.spaceWaiting
        spaceBlockedVolumeKey := if kind = .blocked then payload.volumeKey.strOrEmpty
          else s.spaceBlockedVolumeKey
        spaceBlockedWin32Error := if kind = .blocked then payload.win32Error.intOrZero.getD 0
          else s.spaceBlockedWin32Error }) := by
  unfold onSpaceEvent
  rw [if_neg (not_lt.2 h.le)]
  simp only [if_pos h]
  cases kind <;> simp [waitingAfter]

theorem onSpaceEvent_current (h : payload.episodeId.intOrZero.getD 0 = s.spaceEpisode)
    (hseen : s.spaceResumedSeen = false) :
    onSpaceEvent s kind payload =
      (true, { s with
        spaceResumedSeen := decide (kind = .resumed)
        spaceWaiting := waitingAfter kind s.spaceWaiting
        spaceBlockedVolumeKey := if kind = .blocked then payload.volumeKey.strOrEmpty
          else s.spaceBlockedVolumeKey
        spaceBlockedWin32Error := if kind = .blocked then payload.win32Error.intOrZero.getD 0
          else s.spaceBlockedWin32Error }) := by
  unfold onSpaceEvent
  rw [if_neg (not_lt.2 h.ge)]
  simp only [if_neg (not_lt.2 h.le)]
  obtain ⟨state, episode, resumedSeen, waiting, key, error, m1, m2, m3⟩ := s
  dsimp only at hseen
  subst hseen
  cases kind <;> simp [waitingAfter]

theorem onSpaceEvent_over (h : payload.episodeId.intOrZero.getD 0 = s.spaceEpisode)
    (hseen : s.spaceResumedSeen = true) (hwaiting : s.spaceWaiting = false) :
    onSpaceEvent s kind payload = (decide (kind = .resumed), s) := by
  unfold onSpaceEvent
  rw [if_neg (not_lt.2 h.ge)]
  simp only [if_neg (not_lt.2 h.le)]
  obtain ⟨state, episode, resumedSeen, waiting, key, error, m1, m2, m3⟩ := s
  dsimp only at hseen hwaiting
  subst hseen hwaiting
  cases kind <;> simp

/-- What the fold does with one space event. -/
theorem onSpaceEvent_tracks (h : TracksSpace seen s) (e : EpisodeEvent)
    (he : e = (payload.episodeId.intOrZero.getD 0, kind)) :
    TracksSpace (seen ++ [e]) (onSpaceEvent s kind payload).2 ∧
      ((onSpaceEvent s kind payload).1 = false ↔
        e.1 < s.spaceEpisode ∨ e.1 = s.spaceEpisode ∧ s.spaceResumedSeen = true ∧ kind ≠ .resumed) := by
  have hepisode : payload.episodeId.intOrZero.getD 0 = e.1 := by rw [he]
  have hkind : kind = e.2 := by rw [he]
  rcases lt_trichotomy e.1 s.spaceEpisode with hlt | heq | hgt
  · rw [onSpaceEvent_older (hepisode ▸ hlt)]
    exact ⟨Tracks.stale h (.inl hlt), iff_of_true rfl (.inl hlt)⟩
  · cases hseen : s.spaceResumedSeen with
    | true =>
      have hwaiting := Tracks.rests h hseen
      rw [onSpaceEvent_over (hepisode.trans heq) hseen hwaiting]
      refine ⟨Tracks.stale h (.inr ⟨heq, hseen⟩), ?_⟩
      simp [heq]
    | false =>
      rw [onSpaceEvent_current (hepisode.trans heq) hseen]
      have hresumed : decide (kind = .resumed) = true ↔ e.2 = .resumed := by
        rw [decide_eq_true_eq, hkind]
      subst hkind
      exact ⟨Tracks.current h heq hseen hresumed waitingAfter_eq_true waitingAfter_resumed
        of_waitingAfter, by simp [heq]⟩
  · rw [onSpaceEvent_newer (hepisode ▸ hgt)]
    have hresumed : decide (kind = .resumed) = true ↔ e.2 = .resumed := by
      rw [decide_eq_true_eq, hkind]
    subst hkind
    refine ⟨?_, iff_of_false (by simp) fun hor => ?_⟩
    · dsimp only [TracksSpace]
      rw [hepisode]
      exact Tracks.newer h hgt hresumed (fun hk => waitingAfter_eq_true (by rw [hk]; simp) (.inr hk))
        waitingAfter_resumed of_waitingAfter
    · rcases hor with hlt | ⟨heq, -⟩
      · exact lt_asymm hlt hgt
      · exact hgt.ne' heq

theorem filterMap_snoc {f : Option Payload → Option EpisodeEvent} {line : Option Payload}
    {e : EpisodeEvent} (h : f line = some e) (lines : List (Option Payload)) :
    (lines ++ [line]).filterMap f = lines.filterMap f ++ [e] := by
  rw [List.filterMap_append, List.filterMap_cons_some h, List.filterMap_nil]

theorem filterMap_snoc_none {f : Option Payload → Option EpisodeEvent} {line : Option Payload}
    (h : f line = none) (lines : List (Option Payload)) :
    (lines ++ [line]).filterMap f = lines.filterMap f := by
  rw [List.filterMap_append, List.filterMap_cons_none h, List.filterMap_nil, List.append_nil]

theorem Sourced.mono {lines : List (Option Payload)} (hs : Sourced lines s) (line : Option Payload)
    {s' : JobState} (hmem : (s'.spaceEpisode, EpisodeKind.blocked) ∈
      (lines ++ [line]).filterMap spaceEvent → s'.spaceResumedSeen = false →
        (s.spaceEpisode, EpisodeKind.blocked) ∈ lines.filterMap spaceEvent ∧
          s.spaceResumedSeen = false ∧ s'.spaceEpisode = s.spaceEpisode ∧
          s'.spaceBlockedVolumeKey = s.spaceBlockedVolumeKey ∧
          s'.spaceBlockedWin32Error = s.spaceBlockedWin32Error) : Sourced (lines ++ [line]) s' := by
  intro hin hseen
  obtain ⟨hin, hseen, hepisode, hkey, herror⟩ := hmem hin hseen
  obtain ⟨p, hp, hevent, hpkey, hperror⟩ := hs hin hseen
  exact ⟨p, List.mem_append_left _ hp, by rw [hevent, hepisode], hkey.trans hpkey,
    herror.trans hperror⟩

/-- The source of the waiting state, after one more space event. -/
theorem onSpaceEvent_sourced {lines : List (Option Payload)}
    (h : TracksSpace (lines.filterMap spaceEvent) s) (hs : Sourced lines s)
    (hkind : payload.kindBy spaceKind = some kind) :
    Sourced (lines ++ [some payload]) (onSpaceEvent s kind payload).2 := by
  have hevent : payload.eventBy spaceKind = some (payload.episodeId.intOrZero.getD 0, kind) := by
    rw [Payload.eventBy, hkind, Option.map_some]
  have hlines : (lines ++ [some payload]).filterMap spaceEvent =
      lines.filterMap spaceEvent ++ [(payload.episodeId.intOrZero.getD 0, kind)] :=
    filterMap_snoc hevent lines
  -- a blocked event names the volume itself
  have hself {s' : JobState} (hblocked : kind = .blocked)
      (hepisode : s'.spaceEpisode = payload.episodeId.intOrZero.getD 0)
      (hkey : s'.spaceBlockedVolumeKey = payload.volumeKey.strOrEmpty)
      (herror : s'.spaceBlockedWin32Error = payload.win32Error.intOrZero.getD 0) :
      Sourced (lines ++ [some payload]) s' := by
    intro _ _
    refine ⟨payload, List.mem_append_right _ List.mem_cons_self, ?_, hkey, herror⟩
    rw [hevent, hepisode, hblocked]
  rcases lt_trichotomy (payload.episodeId.intOrZero.getD 0) s.spaceEpisode with hlt | heq | hgt
  · rw [onSpaceEvent_older hlt]
    refine hs.mono _ fun hin hseen => ⟨?_, hseen, rfl, rfl, rfl⟩
    rw [hlines, List.mem_append, List.mem_singleton] at hin
    exact hin.elim id fun heq => absurd (congrArg Prod.fst heq) hlt.ne'
  · cases hseen : s.spaceResumedSeen with
    | true =>
      rw [onSpaceEvent_over heq hseen (Tracks.rests h hseen)]
      exact hs.mono _ fun _ hnot => absurd (hseen.symm.trans hnot) (by simp)
    | false =>
      rw [onSpaceEvent_current heq hseen]
      cases kind with
      | blocked => exact hself rfl heq.symm rfl rfl
      | resumed => exact hs.mono _ fun _ hnot => absurd hnot (by simp)
      | status =>
        refine hs.mono _ fun hin _ => ⟨?_, hseen, rfl, rfl, rfl⟩
        rw [hlines, List.mem_append, List.mem_singleton] at hin
        exact hin.elim id fun heq => absurd (congrArg Prod.snd heq) (by simp)
  · rw [onSpaceEvent_newer hgt]
    cases kind with
    | blocked => exact hself rfl rfl rfl rfl
    | resumed => exact hs.mono _ fun _ hnot => absurd hnot (by simp)
    | status =>
      refine hs.mono _ fun hin _ => ?_
      rw [hlines, List.mem_append, List.mem_singleton] at hin
      rcases hin with hin | heq
      · exact absurd (Tracks.bound h _ hin) (not_le.2 hgt)
      · exact absurd (congrArg Prod.snd heq) (by simp)

end space

/-! ## Memory events -/

section memory

variable {s : JobState} {kind : EpisodeKind} {payload : Payload} {seen : List EpisodeEvent}

def TracksMemory (seen : List EpisodeEvent) (s : JobState) : Prop :=
  Tracks seen s.memoryEpisode s.memoryResumedSeen s.memoryWaiting

/-- What the fold does with one memory event. -/
theorem onMemoryEvent_tracks (h : TracksMemory seen s) {episode : Int}
    (hepisode : payload.episodeId.intOrZero = some episode) (hkind : kind ≠ .status) :
    ∃ report s', onMemoryEvent s kind payload = some (report, s') ∧
      TracksMemory (seen ++ [(episode, kind)]) s' ∧
      (report = .stale ↔
        episode < s.memoryEpisode ∨ episode = s.memoryEpisode ∧ s.memoryResumedSeen = true) := by
  unfold onMemoryEvent
  rw [hepisode, Option.map_some]
  have hblocked : kind ≠ .resumed → kind = .blocked := by
    intro hne
    cases kind with
    | blocked => rfl
    | status => exact absurd rfl hkind
    | resumed => exact absurd rfl hne
  have hresumed : decide (kind = .resumed) = true ↔ kind = .resumed := decide_eq_true_iff
  have hrests (hk : kind = .resumed) : decide (kind = .blocked) = false := by
    rw [hk]
    rfl
  by_cases hover : episode < s.memoryEpisode ∨
      episode = s.memoryEpisode ∧ s.memoryResumedSeen = true
  · rw [if_pos hover]
    exact ⟨_, _, rfl, Tracks.stale h hover, iff_of_true rfl hover⟩
  · rw [if_neg hover]
    refine ⟨_, _, rfl, ?_, iff_of_false (by simp) hover⟩
    rw [not_or, not_and, not_lt, Bool.not_eq_true] at hover
    dsimp only [TracksMemory]
    rcases hover.1.lt_or_eq with hlt | heq
    · exact Tracks.newer (e := (episode, kind)) h hlt hresumed (fun hk => decide_eq_true hk) hrests
        fun hk => .inr (of_decide_eq_true hk)
    · subst heq
      exact Tracks.current (e := (s.memoryEpisode, kind)) h rfl (hover.2 rfl) hresumed
        (fun hk _ => decide_eq_true (hblocked hk)) hrests fun hk => .inr (of_decide_eq_true hk)

end memory

/-! ## All lines of a job -/

/-- What is known of the state after some lines. -/
structure Follows (lines : List (Option Payload)) (s : JobState) : Prop where
  space : TracksSpace (lines.filterMap spaceEvent) s
  sourced : Sourced lines s
  memory : TracksMemory (lines.filterMap memoryEvent) s

theorem follows_init : Follows [] {} := ⟨.init, fun h => absurd h List.not_mem_nil, .init⟩

variable {lines : List (Option Payload)} {s : JobState}

/-- A line without an event leaves the waiting state as it is. -/
theorem Follows.other (h : Follows lines s) {line : Option Payload} (hspace : spaceEvent line = none)
    (hmemory : memoryEvent line = none) {s' : JobState} (hs' : s' = { s with state := s'.state }) :
    Follows (lines ++ [line]) s' := by
  have hlines : (lines ++ [line]).filterMap spaceEvent = lines.filterMap spaceEvent :=
    filterMap_snoc_none hspace lines
  have hmemlines : (lines ++ [line]).filterMap memoryEvent = lines.filterMap memoryEvent :=
    filterMap_snoc_none hmemory lines
  rw [hs']
  refine ⟨?_, h.sourced.mono line fun hin hseen => ?_, ?_⟩
  · rw [hlines]
    exact h.space
  · rw [hlines] at hin
    exact ⟨hin, hseen, rfl, rfl, rfl⟩
  · rw [hmemlines]
    exact h.memory

theorem memoryKind_of_spaceKind {event : Text} {kind : EpisodeKind} (h : spaceKind event = some kind) :
    memoryKind event = none := by
  unfold spaceKind at h
  split_ifs at h with h₁ h₂ h₃
  · rw [h₁]
    decide
  · rw [h₂]
    decide
  · rw [h₃]
    decide

theorem memoryKind_ne_status {event : Text} {kind : EpisodeKind} (h : memoryKind event = some kind) :
    kind ≠ .status := by
  unfold memoryKind at h
  split_ifs at h
  · rw [← Option.some.inj h]
    simp
  · rw [← Option.some.inj h]
    simp

theorem spaceKind_nil : spaceKind [] = none := by decide

theorem memoryKind_nil : memoryKind [] = none := by decide

/-- What one line does: the state follows, and an event is reported stale when it is over. -/
structure Applies (lines : List (Option Payload)) (line : Option Payload) (report : Report)
    (s' : JobState) : Prop where
  follows : Follows (lines ++ [line]) s'
  space : ∀ e, spaceEvent line = some e → 0 < e.1 →
    (report = .stale ↔ (∃ x ∈ lines.filterMap spaceEvent, e.1 < x.1) ∨
      ((e.1, .resumed) ∈ lines.filterMap spaceEvent ∧ e.2 ≠ .resumed))
  memory : ∀ e, memoryEvent line = some e → 0 < e.1 →
    (report = .stale ↔ (∃ x ∈ lines.filterMap memoryEvent, e.1 < x.1) ∨
      (e.1, .resumed) ∈ lines.filterMap memoryEvent)

theorem Follows.applies_other (h : Follows lines s) {line : Option Payload}
    (hspace : spaceEvent line = none) (hmemory : memoryEvent line = none) {s' : JobState}
    (hs' : s' = { s with state := s'.state }) : Applies lines line .notSpace s' :=
  ⟨h.other hspace hmemory hs', fun e he => absurd (hspace.symm.trans he) (by simp),
    fun e he => absurd (hmemory.symm.trans he) (by simp)⟩

theorem Follows.applies_space (h : Follows lines s) {payload : Payload} {kind : EpisodeKind}
    (hkind : payload.kindBy spaceKind = some kind) (hmemory : memoryEvent (some payload) = none) :
    Applies lines (some payload)
      (if (onSpaceEvent s kind payload).1 then .accepted else .stale)
      (onSpaceEvent s kind payload).2 := by
  have hevent : spaceEvent (some payload) = some (payload.episodeId.intOrZero.getD 0, kind) := by
    show payload.eventBy spaceKind = _
    rw [Payload.eventBy, hkind, Option.map_some]
  obtain ⟨htracks, hstale⟩ :=
    onSpaceEvent_tracks h.space (payload.episodeId.intOrZero.getD 0, kind) rfl
  have hlines : (lines ++ [some payload]).filterMap spaceEvent =
      lines.filterMap spaceEvent ++ [(payload.episodeId.intOrZero.getD 0, kind)] :=
    filterMap_snoc hevent lines
  have hmemlines : (lines ++ [some payload]).filterMap memoryEvent = lines.filterMap memoryEvent :=
    filterMap_snoc_none hmemory lines
  have hkept : (onSpaceEvent s kind payload).2.memoryEpisode = s.memoryEpisode ∧
      (onSpaceEvent s kind payload).2.memoryResumedSeen = s.memoryResumedSeen ∧
      (onSpaceEvent s kind payload).2.memoryWaiting = s.memoryWaiting := by
    unfold onSpaceEvent
    dsimp only
    split_ifs <;> exact ⟨rfl, rfl, rfl⟩
  refine ⟨⟨by rw [hlines]; exact htracks, onSpaceEvent_sourced h.space h.sourced hkind, ?_⟩,
    fun e he hpos => ?_, fun e he => absurd (hmemory.symm.trans he) (by simp)⟩
  · rw [hmemlines, TracksMemory, hkept.1, hkept.2.1, hkept.2.2]
    exact h.memory
  · obtain rfl := Option.some.inj (hevent.symm.trans he)
    have hover := Tracks.over_iff h.space hpos
    have holder := Tracks.older_iff h.space hpos
    have hreport : (if (onSpaceEvent s kind payload).1 = true then Report.accepted else .stale) =
        .stale ↔ (onSpaceEvent s kind payload).1 = false := by
      cases (onSpaceEvent s kind payload).1 <;> simp
    rw [hreport, hstale, ← holder]
    constructor
    · rintro (hlt | ⟨heq, hseen, hne⟩)
      · exact .inl hlt
      · refine .inr ⟨?_, hne⟩
        rw [heq]
        exact (Tracks.resumed_iff h.space).1 hseen
    · rintro (hlt | ⟨hmem, hne⟩)
      · exact .inl hlt
      · exact (hover.2 (.inr hmem)).imp_right fun hor => ⟨hor.1, hor.2, hne⟩

theorem Follows.applies_memory (h : Follows lines s) {payload : Payload} {kind : EpisodeKind}
    {episode : Int} (hkind : payload.kindBy memoryKind = some kind)
    (hspace : spaceEvent (some payload) = none)
    (hepisode : payload.episodeId.intOrZero = some episode) (hstatus : kind ≠ .status) :
    ∃ report s', onMemoryEvent s kind payload = some (report, s') ∧
      Applies lines (some payload) report s' := by
  have hevent : memoryEvent (some payload) = some (episode, kind) := by
    show payload.eventBy memoryKind = _
    rw [Payload.eventBy, hkind, Option.map_some, hepisode, Option.getD_some]
  obtain ⟨report, s', heq, htracks, hstale⟩ := onMemoryEvent_tracks h.memory hepisode hstatus
  have hlines : (lines ++ [some payload]).filterMap memoryEvent =
      lines.filterMap memoryEvent ++ [(episode, kind)] := filterMap_snoc hevent lines
  have hspacelines : (lines ++ [some payload]).filterMap spaceEvent = lines.filterMap spaceEvent :=
    filterMap_snoc_none hspace lines
  have hkept : s'.spaceEpisode = s.spaceEpisode ∧ s'.spaceResumedSeen = s.spaceResumedSeen ∧
      s'.spaceWaiting = s.spaceWaiting ∧ s'.spaceBlockedVolumeKey = s.spaceBlockedVolumeKey ∧
      s'.spaceBlockedWin32Error = s.spaceBlockedWin32Error := by
    unfold onMemoryEvent at heq
    rw [hepisode, Option.map_some] at heq
    split_ifs at heq
    · rw [← (Prod.mk.inj (Option.some.inj heq)).2]
      simp only [and_self]
    · rw [← (Prod.mk.inj (Option.some.inj heq)).2]
      simp only [and_self]
  refine ⟨report, s', heq, ⟨⟨?_, h.sourced.mono _ fun hin hseen => ?_, ?_⟩,
    fun e he => absurd (hspace.symm.trans he) (by simp), fun e he hpos => ?_⟩⟩
  · rw [hspacelines, TracksSpace, hkept.1, hkept.2.1, hkept.2.2.1]
    exact h.space
  · rw [hspacelines, hkept.1] at hin
    rw [hkept.2.1] at hseen
    exact ⟨hin, hseen, hkept.1, hkept.2.2.2⟩
  · rw [hlines]
    exact htracks
  · obtain rfl := Option.some.inj (hevent.symm.trans he)
    rw [hstale]
    exact Tracks.over_iff h.memory hpos

theorem Follows.step (h : Follows lines s) {line : Option Payload} (hread : Readable line) :
    ∃ report s', applyNativeEvent s line = some (report, s') ∧ Applies lines line report s' := by
  cases line with
  | none => exact ⟨_, s, rfl, h.applies_other rfl rfl rfl⟩
  | some payload =>
    have hevents (hkind : payload.kindBy spaceKind = none) (hkind' : payload.kindBy memoryKind = none) :
        spaceEvent (some payload) = none ∧ memoryEvent (some payload) = none := by
      refine ⟨?_, ?_⟩
      · show payload.eventBy spaceKind = none
        rw [Payload.eventBy, hkind, Option.map_none]
      · show payload.eventBy memoryKind = none
        rw [Payload.eventBy, hkind', Option.map_none]
    unfold applyNativeEvent
    dsimp only
    by_cases hresult : payload.type.toStr = "result".toList
    · rw [if_pos hresult]
      obtain ⟨hspace, hmemory⟩ := hevents (if_pos hresult) (if_pos hresult)
      exact ⟨_, _, rfl, h.applies_other hspace hmemory rfl⟩
    rw [if_neg hresult]
    have hby (kinds : Text → Option EpisodeKind) :
        payload.kindBy kinds = kinds payload.event.strOrEmpty := if_neg hresult
    by_cases hempty : payload.event.strOrEmpty.isEmpty = true
    · rw [if_pos hempty]
      have hnil := List.isEmpty_iff.1 hempty
      obtain ⟨hspace, hmemory⟩ := hevents (by rw [hby, hnil, spaceKind_nil])
        (by rw [hby, hnil, memoryKind_nil])
      exact ⟨_, s, rfl, h.applies_other hspace hmemory rfl⟩
    rw [if_neg hempty]
    cases hspace : spaceKind payload.event.strOrEmpty with
    | some kind =>
      have hmemory : memoryEvent (some payload) = none := by
        show payload.eventBy memoryKind = none
        rw [Payload.eventBy, hby, memoryKind_of_spaceKind hspace, Option.map_none]
      exact ⟨_, _, rfl, h.applies_space ((hby _).trans hspace) hmemory⟩
    | none =>
      cases hmemory : memoryKind payload.event.strOrEmpty with
      | some kind =>
        have hnone : spaceEvent (some payload) = none := by
          show payload.eventBy spaceKind = none
          rw [Payload.eventBy, hby, hspace, Option.map_none]
        have hsome : (memoryEvent (some payload)).isSome = true := by
          show (payload.eventBy memoryKind).isSome = true
          rw [Payload.eventBy, hby, hmemory]
          rfl
        obtain ⟨p, hp, hint⟩ := hread hsome
        obtain rfl := Option.some.inj hp
        obtain ⟨episode, hepisode⟩ := Option.isSome_iff_exists.1 hint
        exact h.applies_memory ((hby _).trans hmemory) hnone hepisode (memoryKind_ne_status hmemory)
      | none =>
        obtain ⟨hspace, hmemory⟩ := hevents ((hby _).trans hspace) ((hby _).trans hmemory)
        dsimp only
        split_ifs
        · exact ⟨_, s, rfl, h.applies_other hspace hmemory rfl⟩
        · exact ⟨_, _, rfl, h.applies_other hspace hmemory rfl⟩

/-- The lines are applied one after the other, and the state follows them. -/
theorem Follows.run (h : Follows lines s) {rest : List (Option Payload)}
    (hread : ∀ line ∈ rest, Readable line) :
    ∃ s', applyAll s rest = some s' ∧ Follows (lines ++ rest) s' := by
  induction rest generalizing lines s with
  | nil => exact ⟨s, rfl, by rwa [List.append_nil]⟩
  | cons line rest ih =>
    obtain ⟨report, s₁, heq, happlies⟩ := h.step (hread line List.mem_cons_self)
    obtain ⟨s', hrun, hs'⟩ := ih happlies.follows fun l hl => hread l (List.mem_cons_of_mem _ hl)
    refine ⟨s', ?_, ?_⟩
    · rw [applyAll, heq]
      exact hrun
    · rwa [List.append_assoc, List.singleton_append] at hs'

/-- How a line is reported after some others. -/
def reportAfter (before : List (Option Payload)) (line : Option Payload) : Option Report :=
  ((applyAll {} before).bind fun s => applyNativeEvent s line).map (·.1)

/-- An event is over when a newer episode was seen, or its own was resumed. -/
def Over (seen : List EpisodeEvent) (e : EpisodeEvent) : Prop :=
  (∃ x ∈ seen, e.1 < x.1) ∨ ((e.1, .resumed) ∈ seen ∧ e.2 ≠ .resumed)

/-- A number that cannot be read counts as zero, which is no episode. -/
theorem readable_of_episodes {lines : List (Option Payload)} {m : Int}
    (h : Episodes m (lines.filterMap memoryEvent)) : ∀ line ∈ lines, Readable line := by
  intro line hline hsome
  obtain ⟨e, he⟩ := Option.isSome_iff_exists.1 hsome
  have hrange := h.range e (List.mem_filterMap.2 ⟨line, hline, he⟩)
  obtain ⟨p, rfl, hp⟩ := Option.bind_eq_some_iff.1 he
  obtain ⟨kind, -, rfl⟩ := Option.map_eq_some_iff.1 hp
  refine ⟨p, rfl, ?_⟩
  cases hint : p.episodeId.intOrZero with
  | some episode => rfl
  | none =>
    rw [hint] at hrange
    exact absurd hrange.1 (by simp)

/-- In whatever order the events of a job come, it waits exactly when its last episode is not resumed,
for the volume of that episode, and the events that are over are reported stale. -/
theorem events_spec (lines : List (Option Payload)) (n m : Int)
    (hspace : Episodes n (lines.filterMap spaceEvent)) (hmemory : Episodes m (lines.filterMap memoryEvent)) :
    (∃ s, applyAll {} lines = some s ∧
      (s.spaceWaiting = true ↔ 1 ≤ n ∧ (n, .resumed) ∉ lines.filterMap spaceEvent) ∧
      (s.spaceWaiting = true → ∃ p, some p ∈ lines ∧ p.eventBy spaceKind = some (n, .blocked) ∧
        s.spaceBlockedVolumeKey = p.volumeKey.strOrEmpty ∧
        s.spaceBlockedWin32Error = p.win32Error.intOrZero.getD 0) ∧
      (s.memoryWaiting = true ↔ 1 ≤ m ∧ (m, .resumed) ∉ lines.filterMap memoryEvent)) ∧
    ∀ before line after, lines = before ++ line :: after →
      (∀ e, spaceEvent line = some e →
        (reportAfter before line = some .stale ↔ Over (before.filterMap spaceEvent) e)) ∧
      ∀ e, memoryEvent line = some e →
        (Over (before.filterMap memoryEvent) e → reportAfter before line = some .stale) := by
  have hread := readable_of_episodes hmemory
  constructor
  · obtain ⟨s, hrun, hs⟩ := follows_init.run hread
    rw [List.nil_append] at hs
    obtain ⟨hlatest, hwaiting⟩ := Tracks.final hs.space hspace
    refine ⟨s, hrun, hwaiting, fun hwaits => ?_, (Tracks.final hs.memory hmemory).2⟩
    obtain ⟨hone, hnot⟩ := hwaiting.1 hwaits
    have hsourced := hs.sourced
    unfold Sourced at hsourced
    rw [hlatest] at hsourced
    refine hsourced (hspace.blocked n hone le_rfl) (Bool.eq_false_iff.2 fun hseen => hnot ?_)
    rw [← hlatest]
    exact (Tracks.resumed_iff hs.space).1 hseen
  · rintro before line after rfl
    obtain ⟨s, hrun, hs⟩ := follows_init.run fun l hl => hread l (List.mem_append_left _ hl)
    obtain ⟨report, s', heq, happlies⟩ :=
      hs.step (hread line (List.mem_append_right _ List.mem_cons_self))
    rw [List.nil_append] at happlies
    have hreport : reportAfter before line = some report := by
      rw [reportAfter, hrun, Option.bind_some, heq, Option.map_some]
    rw [hreport]
    refine ⟨fun e he => ?_, fun e he hover => ?_⟩
    · have hin : e ∈ (before ++ line :: after).filterMap spaceEvent :=
        List.mem_filterMap.2 ⟨line, List.mem_append_right _ List.mem_cons_self, he⟩
      rw [Option.some.injEq]
      exact happlies.space e he (by have := (hspace.range e hin).1; omega)
    · have hin : e ∈ (before ++ line :: after).filterMap memoryEvent :=
        List.mem_filterMap.2 ⟨line, List.mem_append_right _ List.mem_cons_self, he⟩
      rw [Option.some.injEq]
      exact (happlies.memory e he (by have := (hmemory.range e hin).1; omega)).2
        (hover.imp_right And.left)

/-- A line as the worker prints it. -/
def printed (type event : String) (episode : Int) (volumeKey : String) (win32Error : Int) :
    Option Payload :=
  some ⟨.ofText type.toList, .ofText event.toList, .ofInt episode, .ofText volumeKey.toList,
    .ofInt win32Error⟩

/-- The second episode overtakes the end of the first one. -/
def overtakenLines : List (Option Payload) :=
  [printed "progress" "space_blocked" 1 "c:" 112, printed "progress" "space_blocked" 2 "d:" 39,
    printed "progress" "space_resumed" 1 "c:" 0]

theorem events_spec_overtaken : ∃ s, applyAll {} overtakenLines = some s ∧ s.spaceWaiting = true := by
  have hspace : Episodes 2 (overtakenLines.filterMap spaceEvent) := by
    have hevents : overtakenLines.filterMap spaceEvent =
        [(1, .blocked), (2, .blocked), (1, .resumed)] := by decide +kernel
    rw [hevents]
    refine ⟨by omega, by decide, fun k h h' => ?_, fun k h h' => ?_⟩
    · obtain rfl | rfl : k = 1 ∨ k = 2 := by omega
      · decide
      · decide
    · obtain rfl : k = 1 := by omega
      decide
  have hmemory : Episodes 0 (overtakenLines.filterMap memoryEvent) := by
    have hevents : overtakenLines.filterMap memoryEvent = [] := by decide +kernel
    rw [hevents]
    exact ⟨le_rfl, by simp, fun k h h' => by omega, fun k h h' => by omega⟩
  obtain ⟨⟨s, hrun, hwaiting, -⟩, -⟩ := events_spec overtakenLines 2 0 hspace hmemory
  exact ⟨s, hrun, hwaiting.2 ⟨by omega, by decide +kernel⟩⟩

end Sunpack.Runner
