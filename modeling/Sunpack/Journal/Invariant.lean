import Sunpack.Journal.Coverage

/-!
# The invariant of the shared state

Live streams are sound, retired ones left a sound frontier, and no two incarnations are mixed up.
`Calm` is what a critical section may do behind the back of the two threads.
-/

namespace Sunpack.Journal

/-- A frontier is right about the records of its incarnation. -/
structure FrontierSound (h : History) (retired : Nat) (frontier : StreamFrontier) : Prop where
  durable_le : frontier.durable ≤ frontier.written
  sealed_le : frontier.sealed ≤ frontier.durable
  seq_le : ∀ w ∈ h.writes, w.retired = retired → w.seq ≤ frontier.written
  dense : ∀ w ∈ h.writes, w.retired = retired → ∀ n, w.seq ≤ n → n ≤ frontier.written →
    ∃ x ∈ h.writes, x.retired = retired ∧ x.seq = n
  covered : ∀ w ∈ h.writes, w.retired = retired → w.seq ≤ frontier.durable → h.Covered w

theorem StreamState.Sound.frontier {h : History} {st : StreamState} (hs : st.Sound h) :
    FrontierSound h st.retired st.frontier :=
  ⟨hs.durable_le, hs.sealed_le, hs.seq_le, hs.dense, hs.covered⟩

structure StateInv (s : RuntimeState) (h : History) : Prop where
  retired_lt : ∀ key st, s.streams key = some st → st.retired < s.nextRetired
  frontier_lt : ∀ retired frontier, s.frontiers retired = some frontier → retired < s.nextRetired
  write_lt : ∀ w ∈ h.writes, w.retired < s.nextRetired
  distinct : ∀ key key' st st', s.streams key = some st → s.streams key' = some st' →
    st.retired = st'.retired → key = key'
  live : ∀ key st, s.streams key = some st → s.frontiers st.retired = none
  sound : ∀ key st, s.streams key = some st → st.Sound h
  frontier : ∀ retired frontier, s.frontiers retired = some frontier →
    FrontierSound h retired frontier

/-- The same records, with more syncs and a later clock. -/
structure History.Extends (h h' : History) : Prop where
  writes : h'.writes = h.writes
  syncs : h.syncs ⊆ h'.syncs
  clock : h.clock ≤ h'.clock

theorem History.Extends.refl (h : History) : h.Extends h := ⟨rfl, List.Subset.refl _, Nat.le_refl _⟩

theorem History.Extends.covered {h h' : History} (he : h.Extends h') {w : Write}
    (hw : h.Covered w) : h'.Covered w := by
  obtain ⟨sync, hsync, hrest⟩ := hw
  exact ⟨sync, he.syncs hsync, hrest⟩

theorem StreamState.Sound.extend {h h' : History} (he : h.Extends h') {st : StreamState}
    (hs : st.Sound h) : st.Sound h' where
  durable_le := hs.durable_le
  sealed_le := hs.sealed_le
  unwritten := by rw [he.writes]; exact hs.unwritten
  seq_le := by rw [he.writes]; exact hs.seq_le
  dense := by rw [he.writes]; exact hs.dense
  covered w hw hret hle := he.covered (hs.covered w (he.writes ▸ hw) hret hle)
  dirty w hw hret := (hs.dirty w (he.writes ▸ hw) hret).imp he.covered id
  flushed_le := hs.flushed_le
  lastSeq := hs.lastSeq

theorem FrontierSound.extend {h h' : History} (he : h.Extends h') {retired : Nat}
    {frontier : StreamFrontier} (hf : FrontierSound h retired frontier) :
    FrontierSound h' retired frontier where
  durable_le := hf.durable_le
  sealed_le := hf.sealed_le
  seq_le := by rw [he.writes]; exact hf.seq_le
  dense := by rw [he.writes]; exact hf.dense
  covered w hw hret hle := he.covered (hf.covered w (he.writes ▸ hw) hret hle)

theorem StateInv.extend {s : RuntimeState} {h h' : History} (he : h.Extends h')
    (hs : StateInv s h) : StateInv s h' where
  retired_lt := hs.retired_lt
  frontier_lt := hs.frontier_lt
  write_lt w hw := hs.write_lt w (he.writes ▸ hw)
  distinct := hs.distinct
  live := hs.live
  sound key st hst := (hs.sound key st hst).extend he
  frontier retired frontier hf := (hs.frontier retired frontier hf).extend he

/-! ## What the threads rely on -/

/-- A change that the writer may see while it appends: no segment gets another file. -/
structure KeepsFiles (st st' : StreamState) : Prop where
  retired : st'.retired = st.retired
  written : st'.writtenSeq = st.writtenSeq
  file : ∀ start segment', st'.segments.lookup start = some segment' →
    ∃ segment, st.segments.lookup start = some segment ∧ segment'.file = segment.file

/-- A change that the flusher may see while it syncs: no dirty segment goes away. -/
structure KeepsDirty (st st' : StreamState) : Prop where
  retired : st'.retired = st.retired
  written : st.writtenSeq ≤ st'.writtenSeq
  dirty : ∀ start segment, st.segments.lookup start = some segment →
    StreamState.clean segment = true ∨ ∃ segment', st'.segments.lookup start = some segment' ∧
      segment'.file = segment.file ∧ segment.writeEpoch ≤ segment'.writeEpoch ∧
      segment'.flushedEpoch = segment.flushedEpoch

theorem StreamState.Quiet.keepsFiles {st st' : StreamState} (h : st.Quiet st') :
    KeepsFiles st st' where
  retired := h.retired
  written := h.written
  file start segment' hs := by
    obtain ⟨segment, hlookup, hsame⟩ := h.old start segment' hs
    exact ⟨segment, hlookup, hsame.file⟩

theorem StreamState.Quiet.keepsDirty {st st' : StreamState} (h : st.Quiet st') :
    KeepsDirty st st' where
  retired := h.retired
  written := Nat.le_of_eq h.written.symm
  dirty start segment hs := (h.kept start segment hs).imp id fun ⟨segment', hs', hsame⟩ =>
    ⟨segment', hs', hsame.file, Nat.le_of_eq hsame.writeEpoch.symm, hsame.flushedEpoch⟩

/-- Every stream under the key is a changed old one, or it has just been created. -/
def FilesKept (s s' : RuntimeState) (key : Text) : Prop :=
  ∀ st', s'.streams key = some st' → (∃ st, s.streams key = some st ∧ KeepsFiles st st') ∨
    (s.nextRetired ≤ st'.retired ∧ st'.writtenSeq = 0 ∧
      ∀ start, st'.segments.lookup start = none)

def DirtyKept (s s' : RuntimeState) (key : Text) : Prop :=
  ∀ st', s'.streams key = some st' → (∃ st, s.streams key = some st ∧ KeepsDirty st st') ∨
    s.nextRetired ≤ st'.retired

/-- Nothing happened that a thread between two critical sections would have to know. -/
structure Calm (s s' : RuntimeState) : Prop where
  next_le : s.nextRetired ≤ s'.nextRetired
  files : ∀ key, FilesKept s s' key
  dirty : ∀ key, DirtyKept s s' key

theorem Calm.refl (s : RuntimeState) : Calm s s where
  next_le := Nat.le_refl _
  files _ st hst := .inl ⟨st, hst, (StreamState.Quiet.refl st).keepsFiles⟩
  dirty _ st hst := .inl ⟨st, hst, (StreamState.Quiet.refl st).keepsDirty⟩

theorem FilesKept.trans {s s' s'' : RuntimeState} {key : Text} (hn : s.nextRetired ≤ s'.nextRetired)
    (h : FilesKept s s' key) (h' : FilesKept s' s'' key) : FilesKept s s'' key := by
  intro st'' hst''
  rcases h' st'' hst'' with ⟨st', hst', hk'⟩ | ⟨hret, hnew⟩
  · rcases h st' hst' with ⟨st, hst, hk⟩ | ⟨hret, hwritten, hnone⟩
    · refine .inl ⟨st, hst, hk'.retired.trans hk.retired, hk'.written.trans hk.written, ?_⟩
      intro start segment'' hs''
      obtain ⟨segment', hs', hfile'⟩ := hk'.file start segment'' hs''
      obtain ⟨segment, hs, hfile⟩ := hk.file start segment' hs'
      exact ⟨segment, hs, hfile'.trans hfile⟩
    · refine .inr ⟨hk'.retired.symm ▸ hret, hk'.written.trans hwritten, fun start => ?_⟩
      cases hlookup : st''.segments.lookup start with
      | none => rfl
      | some segment'' =>
        obtain ⟨segment', hs', _⟩ := hk'.file start segment'' hlookup
        exact absurd (hs'.symm.trans (hnone start)) (by simp)
  · exact .inr ⟨hn.trans hret, hnew⟩

theorem DirtyKept.trans {s s' s'' : RuntimeState} {key : Text} (hn : s.nextRetired ≤ s'.nextRetired)
    (h : DirtyKept s s' key) (h' : DirtyKept s' s'' key) : DirtyKept s s'' key := by
  intro st'' hst''
  rcases h' st'' hst'' with ⟨st', hst', hk'⟩ | hret
  · rcases h st' hst' with ⟨st, hst, hk⟩ | hret
    · refine .inl ⟨st, hst, hk'.retired.trans hk.retired, hk.written.trans hk'.written, ?_⟩
      intro start segment hs
      rcases hk.dirty start segment hs with hclean | ⟨segment', hs', hfile, hwrite, hflushed⟩
      · exact .inl hclean
      rcases hk'.dirty start segment' hs' with hclean | ⟨segment'', hs'', hfile', hwrite', hflushed'⟩
      · rw [StreamState.clean, decide_eq_true_eq] at hclean ⊢
        exact .inl (by omega)
      · exact .inr ⟨segment'', hs'', hfile'.trans hfile, hwrite.trans hwrite',
          hflushed'.trans hflushed⟩
    · exact .inr (hk'.retired.symm ▸ hret)
  · exact .inr (hn.trans hret)

theorem Calm.trans {s s' s'' : RuntimeState} (h : Calm s s') (h' : Calm s' s'') : Calm s s'' where
  next_le := h.next_le.trans h'.next_le
  files key := (h.files key).trans h.next_le (h'.files key)
  dirty key := (h.dirty key).trans h.next_le (h'.dirty key)

/-! ## Critical sections -/

variable {s : RuntimeState} {h : History}

theorem streams_put (s : RuntimeState) (key : Text) (st : StreamState) :
    (s.put key st).streams key = some st := by
  simp [RuntimeState.put]

theorem streams_put_of_ne {key key' : Text} (hne : key' ≠ key) (st : StreamState) :
    (s.put key st).streams key' = s.streams key' := by
  simp [RuntimeState.put, hne]

/-- Records of another incarnation do not matter to a stream. -/
theorem StreamState.Sound.record {st : StreamState} (hs : st.Sound h) {writes : List Write}
    (hother : ∀ w ∈ writes, w.retired ≠ st.retired) : st.Sound (h.record writes) := by
  have hold {w : Write} (hw : w ∈ writes ++ h.writes) (hret : w.retired = st.retired) :
      w ∈ h.writes := (List.mem_append.1 hw).resolve_left fun hnew => hother w hnew hret
  constructor
  · exact hs.durable_le
  · exact hs.sealed_le
  · exact fun hcount w hw hret => hs.unwritten hcount w (hold hw hret) hret
  · exact fun w hw hret => hs.seq_le w (hold hw hret) hret
  · intro w hw hret n hle hn
    obtain ⟨x, hx, hrest⟩ := hs.dense w (hold hw hret) hret n hle hn
    exact ⟨x, List.mem_append_right _ hx, hrest⟩
  · exact fun w hw hret => hs.covered w (hold hw hret) hret
  · exact fun w hw hret => hs.dirty w (hold hw hret) hret
  · exact hs.flushed_le
  · exact hs.lastSeq

theorem FrontierSound.record {retired : Nat} {frontier : StreamFrontier}
    (hf : FrontierSound h retired frontier) {writes : List Write}
    (hother : ∀ w ∈ writes, w.retired ≠ retired) :
    FrontierSound (h.record writes) retired frontier := by
  have hold {w : Write} (hw : w ∈ writes ++ h.writes) (hret : w.retired = retired) :
      w ∈ h.writes := (List.mem_append.1 hw).resolve_left fun hnew => hother w hnew hret
  constructor
  · exact hf.durable_le
  · exact hf.sealed_le
  · exact fun w hw hret => hf.seq_le w (hold hw hret) hret
  · intro w hw hret n hle hn
    obtain ⟨x, hx, hrest⟩ := hf.dense w (hold hw hret) hret n hle hn
    exact ⟨x, List.mem_append_right _ hx, hrest⟩
  · exact fun w hw hret => hf.covered w (hold hw hret) hret

/-- A stream is replaced by a state of the same incarnation that is sound with the records that
were published for it. -/
theorem StateInv.putRecord (hs : StateInv s h) {key : Text} {st st' : StreamState}
    (hst : s.streams key = some st) (hretired : st'.retired = st.retired) {writes : List Write}
    (hwrites : ∀ w ∈ writes, w.retired = st.retired) (hsound : st'.Sound (h.record writes)) :
    StateInv (s.put key st') (h.record writes) := by
  have hcases {key' : Text} {other : StreamState} (ho : (s.put key st').streams key' = some other) :
      (key' = key ∧ other = st') ∨ (key' ≠ key ∧ s.streams key' = some other) := by
    by_cases hkey : key' = key
    · subst hkey
      rw [streams_put] at ho
      exact .inl ⟨rfl, (Option.some.inj ho).symm⟩
    · exact .inr ⟨hkey, (streams_put_of_ne hkey st').symm.trans ho⟩
  -- the incarnation under a key is the same as before
  have hold {key' : Text} {other : StreamState} (ho : (s.put key st').streams key' = some other) :
      ∃ st, s.streams key' = some st ∧ st.retired = other.retired := by
    rcases hcases ho with ⟨rfl, rfl⟩ | ⟨_, ho⟩
    · exact ⟨st, hst, hretired.symm⟩
    · exact ⟨other, ho, rfl⟩
  constructor
  · intro key' other ho
    obtain ⟨st₀, hst₀, hret⟩ := hold ho
    exact hret ▸ hs.retired_lt key' st₀ hst₀
  · exact hs.frontier_lt
  · intro w hw
    rcases List.mem_append.1 hw with hw | hw
    · rw [hwrites w hw]
      exact hs.retired_lt key st hst
    · exact hs.write_lt w hw
  · intro key₁ key₂ o₁ o₂ h₁ h₂ heq
    obtain ⟨st₁, hst₁, hret₁⟩ := hold h₁
    obtain ⟨st₂, hst₂, hret₂⟩ := hold h₂
    exact hs.distinct key₁ key₂ st₁ st₂ hst₁ hst₂ (by rw [hret₁, hret₂, heq])
  · intro key' other ho
    obtain ⟨st₀, hst₀, hret⟩ := hold ho
    exact hret ▸ hs.live key' st₀ hst₀
  · intro key' other ho
    rcases hcases ho with ⟨_, rfl⟩ | ⟨hne, ho⟩
    · exact hsound
    · refine (hs.sound key' other ho).record fun w hw heq => hne ?_
      exact hs.distinct key' key other st ho hst (heq.symm.trans (hwrites w hw))
  · intro retired frontier hf
    refine (hs.frontier retired frontier hf).record fun w hw heq => ?_
    -- the incarnation is live, so it left no frontier yet
    have hnone := hs.live key st hst
    rw [← hwrites w hw, heq] at hnone
    exact absurd (hnone.symm.trans hf) (by simp)

/-- A stream is replaced by a sound state of the same incarnation. -/
theorem StateInv.put (hs : StateInv s h) {key : Text} {st st' : StreamState}
    (hst : s.streams key = some st) (hretired : st'.retired = st.retired) (hsound : st'.Sound h) :
    StateInv (s.put key st') h :=
  have hnone : ∀ w ∈ ([] : List Write), w.retired = st.retired := by simp
  hs.putRecord hst hretired hnone hsound

theorem FilesKept.put {key : Text} {st st' : StreamState} (hst : s.streams key = some st)
    (hk : KeepsFiles st st') (key' : Text) : FilesKept s (s.put key st') key' := by
  intro other ho
  by_cases hkey : key' = key
  · subst hkey
    rw [streams_put] at ho
    exact .inl ⟨st, hst, Option.some.inj ho ▸ hk⟩
  · rw [streams_put_of_ne hkey] at ho
    exact .inl ⟨other, ho, (StreamState.Quiet.refl other).keepsFiles⟩

theorem DirtyKept.put {key : Text} {st st' : StreamState} (hst : s.streams key = some st)
    (hk : KeepsDirty st st') (key' : Text) : DirtyKept s (s.put key st') key' := by
  intro other ho
  by_cases hkey : key' = key
  · subst hkey
    rw [streams_put] at ho
    exact .inl ⟨st, hst, Option.some.inj ho ▸ hk⟩
  · rw [streams_put_of_ne hkey] at ho
    exact .inl ⟨other, ho, (StreamState.Quiet.refl other).keepsDirty⟩

theorem Calm.put {key : Text} {st st' : StreamState} (hst : s.streams key = some st)
    (hquiet : st.Quiet st') : Calm s (s.put key st') where
  next_le := Nat.le_refl _
  files := FilesKept.put hst hquiet.keepsFiles
  dirty := DirtyKept.put hst hquiet.keepsDirty

/-- A stream that is asked for exists afterwards. -/
theorem StateInv.entry (hs : StateInv s h) (key : Text) :
    StateInv (s.entry key).1 h ∧ Calm s (s.entry key).1 ∧
      (s.entry key).1.streams key = some (s.entry key).2 := by
  rw [RuntimeState.entry]
  cases hkey : s.streams key with
  | some st => exact ⟨hs, .refl s, hkey⟩
  | none =>
    have hcases {key' : Text} {other : StreamState} (ho : Function.update s.streams key
        (some { retired := s.nextRetired }) key' = some other) :
        (key' = key ∧ other = { retired := s.nextRetired }) ∨ s.streams key' = some other := by
      by_cases hkey' : key' = key
      · subst hkey'
        rw [Function.update_self] at ho
        exact .inl ⟨rfl, (Option.some.inj ho).symm⟩
      · exact .inr ((Function.update_of_ne hkey' _ _).symm.trans ho)
    have hfresh : ∀ w ∈ h.writes, w.retired ≠ s.nextRetired := fun w hw =>
      Nat.ne_of_lt (hs.write_lt w hw)
    refine ⟨⟨?_, ?_, ?_, ?_, ?_, ?_, hs.frontier⟩, ⟨Nat.le_succ _, ?_, ?_⟩,
      Function.update_self _ _ _⟩
    · intro key' other ho
      rcases hcases ho with ⟨_, rfl⟩ | ho
      · exact Nat.lt_succ_self _
      · exact Nat.lt_succ_of_lt (hs.retired_lt key' other ho)
    · exact fun retired frontier hf => Nat.lt_succ_of_lt (hs.frontier_lt retired frontier hf)
    · exact fun w hw => Nat.lt_succ_of_lt (hs.write_lt w hw)
    · intro key₁ key₂ o₁ o₂ h₁ h₂ heq
      rcases hcases h₁ with ⟨rfl, rfl⟩ | ho₁ <;> rcases hcases h₂ with ⟨rfl, rfl⟩ | ho₂
      · rfl
      · exact absurd heq.symm (Nat.ne_of_lt (hs.retired_lt key₂ o₂ ho₂))
      · exact absurd heq (Nat.ne_of_lt (hs.retired_lt key₁ o₁ ho₁))
      · exact hs.distinct key₁ key₂ o₁ o₂ ho₁ ho₂ heq
    · intro key' other ho
      rcases hcases ho with ⟨_, rfl⟩ | ho
      · by_contra hne
        obtain ⟨frontier, hf⟩ := Option.ne_none_iff_exists'.1 hne
        exact absurd (hs.frontier_lt _ _ hf) (Nat.lt_irrefl _)
      · exact hs.live key' other ho
    · intro key' other ho
      rcases hcases ho with ⟨_, rfl⟩ | ho
      · exact StreamState.Sound.fresh hfresh
      · exact hs.sound key' other ho
    · intro key' other ho
      rcases hcases ho with ⟨_, rfl⟩ | ho
      · exact .inr ⟨Nat.le_refl _, rfl, fun start => AList.lookup_empty start⟩
      · exact .inl ⟨other, ho, (StreamState.Quiet.refl other).keepsFiles⟩
    · intro key' other ho
      rcases hcases ho with ⟨_, rfl⟩ | ho
      · exact .inr (Nat.le_refl _)
      · exact .inl ⟨other, ho, (StreamState.Quiet.refl other).keepsDirty⟩

theorem StateInv.retireClosedStream (hs : StateInv s h) (key : Text) :
    StateInv (s.retireClosedStream key) h ∧ Calm s (s.retireClosedStream key) := by
  unfold RuntimeState.retireClosedStream
  split
  swap
  · exact ⟨hs, .refl s⟩
  rename_i st hst
  split_ifs
  swap
  · exact ⟨hs, .refl s⟩
  have hother {key' : Text} {other : StreamState}
      (ho : Function.update s.streams key none key' = some other) :
      key' ≠ key ∧ s.streams key' = some other := by
    by_cases hkey : key' = key
    · subst hkey
      rw [Function.update_self] at ho
      exact absurd ho (by simp)
    · exact ⟨hkey, (Function.update_of_ne hkey _ _).symm.trans ho⟩
  have hfrontier {retired : Nat} {frontier : StreamFrontier}
      (hf : Function.update s.frontiers st.retired (some st.frontier) retired = some frontier) :
      (retired = st.retired ∧ frontier = st.frontier) ∨ s.frontiers retired = some frontier := by
    by_cases hret : retired = st.retired
    · subst hret
      rw [Function.update_self] at hf
      exact .inl ⟨rfl, (Option.some.inj hf).symm⟩
    · exact .inr ((Function.update_of_ne hret _ _).symm.trans hf)
  refine ⟨⟨?_, ?_, hs.write_lt, ?_, ?_, ?_, ?_⟩, ⟨Nat.le_refl _, ?_, ?_⟩⟩
  · exact fun key' other ho => hs.retired_lt key' other (hother ho).2
  · intro retired frontier hf
    rcases hfrontier hf with ⟨rfl, _⟩ | hf
    · exact hs.retired_lt key st hst
    · exact hs.frontier_lt retired frontier hf
  · intro key₁ key₂ o₁ o₂ h₁ h₂
    exact hs.distinct key₁ key₂ o₁ o₂ (hother h₁).2 (hother h₂).2
  · intro key' other ho
    obtain ⟨hne, ho⟩ := hother ho
    have hret : other.retired ≠ st.retired := fun heq =>
      hne (hs.distinct key' key other st ho hst heq)
    exact (Function.update_of_ne hret _ _).trans (hs.live key' other ho)
  · exact fun key' other ho => hs.sound key' other (hother ho).2
  · intro retired frontier hf
    rcases hfrontier hf with ⟨rfl, rfl⟩ | hf
    · exact (hs.sound key st hst).frontier
    · exact hs.frontier retired frontier hf
  · exact fun key' other ho =>
      .inl ⟨other, (hother ho).2, (StreamState.Quiet.refl other).keepsFiles⟩
  · exact fun key' other ho =>
      .inl ⟨other, (hother ho).2, (StreamState.Quiet.refl other).keepsDirty⟩

end Sunpack.Journal
