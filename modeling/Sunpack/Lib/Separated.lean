import Mathlib

/-!
# Names with separators

Lists in which one element separates the names: cutting at the last separator, trimming, what lies
under what, and the lists with a common start in a sorted range.
-/

namespace Sunpack.Lib

variable {α : Type*} [DecidableEq α] {sep : α}

/-! ## Cutting and trimming -/

/-- What stands in front of the last separator and behind it. -/
def rsplitOnce (sep : α) (l : List α) : Option (List α × List α) :=
  if sep ∈ l then
    some ((l.reverse.dropWhile (· ≠ sep)).tail.reverse, (l.reverse.takeWhile (· ≠ sep)).reverse)
  else none

theorem rsplitOnce_eq_some {l front back : List α} (h : rsplitOnce sep l = some (front, back)) :
    l = front ++ sep :: back ∧ sep ∉ back := by
  rw [rsplitOnce] at h
  split_ifs at h with hmem
  obtain ⟨rfl, rfl⟩ := Prod.mk.inj (Option.some.inj h)
  have hnot : sep ∉ (l.reverse.takeWhile (· ≠ sep)).reverse := by
    rw [List.mem_reverse]
    intro hin
    simpa using List.mem_takeWhile_imp hin
  refine ⟨?_, hnot⟩
  have hsplit := List.takeWhile_append_dropWhile (p := (· ≠ sep)) (l := l.reverse)
  cases hdrop : l.reverse.dropWhile (· ≠ sep) with
  | nil =>
    have hall := List.dropWhile_eq_nil_iff.1 hdrop sep (List.mem_reverse.2 hmem)
    exact absurd hall (by simp)
  | cons a rest =>
    have ha : a = sep := by
      have hhead := List.head?_dropWhile_not (· ≠ sep) l.reverse
      rw [hdrop] at hhead
      simpa using hhead
    rw [hdrop, ha] at hsplit
    rw [← List.reverse_inj, List.tail_cons, List.reverse_append, List.reverse_cons,
      List.reverse_reverse, List.reverse_reverse, List.append_assoc, List.singleton_append, hsplit]

theorem rsplitOnce_eq_none {l : List α} : rsplitOnce sep l = none ↔ sep ∉ l := by
  rw [rsplitOnce]
  split_ifs with hmem <;> simp [hmem]

/-- Without the separators at the end. -/
def trimEnd (sep : α) (l : List α) : List α := l.rdropWhile (· = sep)

theorem trimEnd_of_getLast {l : List α} (h : l.getLast? ≠ some sep) : trimEnd sep l = l := by
  rw [trimEnd, List.rdropWhile_eq_self_iff]
  intro hne hlast
  apply h
  rw [List.getLast?_eq_some_getLast hne, of_decide_eq_true hlast]

/-- Only separators were trimmed. -/
theorem trimEnd_append (sep : α) (l : List α) : ∃ n, l = trimEnd sep l ++ List.replicate n sep := by
  refine ⟨(l.rtakeWhile (· = sep)).length, ?_⟩
  have htaken : l.rtakeWhile (· = sep) =
      List.replicate (l.rtakeWhile (· = sep)).length sep := by
    rw [List.eq_replicate_length]
    intro a ha
    simpa using List.mem_rtakeWhile_imp ha
  rw [trimEnd, ← htaken, List.rdropWhile, List.rtakeWhile, ← List.reverse_append,
    List.takeWhile_append_dropWhile, List.reverse_reverse]

/-! ## Under -/

section Under

omit [DecidableEq α]

/-- The list continues the other one with a separator. -/
def Under (sep : α) (path root : List α) : Prop := ∃ rest, path = root ++ sep :: rest

theorem Under.trans {a b c : List α} (h : Under sep a b) (h' : Under sep b c) : Under sep a c := by
  obtain ⟨rest, rfl⟩ := h
  obtain ⟨rest', rfl⟩ := h'
  exact ⟨rest' ++ sep :: rest, by rw [List.append_assoc, List.cons_append]⟩

theorem under_iff_prefix {path root : List α} : Under sep path root ↔ root ++ [sep] <+: path := by
  constructor
  · rintro ⟨rest, rfl⟩
    exact ⟨rest, by rw [List.append_assoc, List.singleton_append]⟩
  · rintro ⟨rest, rfl⟩
    exact ⟨rest, by rw [List.append_assoc, List.singleton_append]⟩

end Under

theorem Under.trimEnd {path root : List α} (h : Under sep path root) :
    Under sep path (trimEnd sep root) := by
  obtain ⟨rest, rfl⟩ := h
  obtain ⟨n, hn⟩ := trimEnd_append sep root
  cases n with
  | zero =>
    rw [List.replicate_zero, List.append_nil] at hn
    exact ⟨rest, by rw [← hn]⟩
  | succ n =>
    refine ⟨List.replicate n sep ++ sep :: rest, ?_⟩
    nth_rewrite 1 [hn]
    rw [List.replicate_succ, List.append_assoc, List.cons_append]

/-- Trimming leaves nothing to trim. -/
theorem getLast?_trimEnd (sep : α) (l : List α) : (trimEnd sep l).getLast? ≠ some sep := by
  intro hlast
  have hne : trimEnd sep l ≠ [] := by
    intro hnil
    rw [hnil] at hlast
    exact absurd hlast (by simp)
  rw [List.getLast?_eq_some_getLast hne] at hlast
  have hnot := List.rdropWhile_last_not (· = sep) l hne
  exact hnot (by simpa [trimEnd] using hlast)

/-- Separators at the end of the path matter for nothing but the path itself. -/
theorem under_trimEnd_iff {path root : List α} (h : trimEnd sep path ≠ trimEnd sep root) :
    Under sep (trimEnd sep path) (trimEnd sep root) ↔ Under sep path (trimEnd sep root) := by
  obtain ⟨n, hn⟩ := trimEnd_append sep path
  constructor
  · rintro ⟨rest, hrest⟩
    refine ⟨rest ++ List.replicate n sep, ?_⟩
    rw [hn, hrest, List.append_assoc, List.cons_append]
  · rintro ⟨rest, hrest⟩
    rw [hn] at hrest
    rcases List.append_eq_append_iff.1 hrest with ⟨extra, hroot, hextra⟩ | ⟨extra, hpath, hextra⟩
    · cases hlast : extra.getLast? with
      | none =>
        rw [List.getLast?_eq_none_iff.1 hlast, List.append_nil] at hroot
        exact absurd hroot.symm h
      | some a =>
        have ha : a ∈ List.replicate n sep := by
          rw [hextra]
          exact List.mem_append_left _ (List.mem_of_getLast? hlast)
        have htrim := getLast?_trimEnd sep root
        rw [hroot, List.getLast?_append, hlast, List.eq_of_mem_replicate ha] at htrim
        exact absurd rfl htrim
    · cases extra with
      | nil =>
        rw [List.append_nil] at hpath
        exact absurd hpath h
      | cons a extra =>
        rw [List.cons_append, List.cons.injEq] at hextra
        exact ⟨extra, by rw [hpath, ← hextra.1]⟩

omit [DecidableEq α] in
theorem intercalate_append {front back : List (List α)} (hfront : front ≠ []) (hback : back ≠ []) :
    [sep].intercalate (front ++ back) =
      [sep].intercalate front ++ sep :: [sep].intercalate back := by
  induction front with
  | nil => exact absurd rfl hfront
  | cons part front ih =>
    cases front with
    | nil =>
      rw [List.singleton_append, List.intercalate_cons_of_ne_nil hback]
      simp
    | cons part' front =>
      rw [List.cons_append, List.cons_append, List.intercalate_cons_cons, List.intercalate_cons_cons,
        ← List.cons_append, ih (List.cons_ne_nil _ _), List.append_assoc, List.append_assoc,
        List.append_assoc]

theorem splitOn_injective {l l' : List α} (h : l.splitOn sep = l'.splitOn sep) : l = l' := by
  have hjoin := congrArg [sep].intercalate h
  rwa [List.intercalate_splitOn, List.intercalate_splitOn] at hjoin

/-- Names compared component by component. -/
theorem splitOn_prefix_iff {path root : List α} :
    root.splitOn sep <+: path.splitOn sep ↔ root = path ∨ Under sep path root := by
  constructor
  · rintro ⟨more, hmore⟩
    cases more with
    | nil =>
      rw [List.append_nil] at hmore
      exact .inl (splitOn_injective hmore)
    | cons part more =>
      refine .inr ⟨[sep].intercalate (part :: more), ?_⟩
      have hjoin := congrArg [sep].intercalate hmore
      rw [List.intercalate_splitOn, intercalate_append (List.splitOn_ne_nil _ _)
        (List.cons_ne_nil _ _), List.intercalate_splitOn] at hjoin
      exact hjoin.symm
  · rintro (rfl | ⟨rest, rfl⟩)
    · exact List.prefix_rfl
    · rw [List.splitOn_append_cons_self]
      exact List.prefix_append _ _

theorem not_under_of_rsplitOnce {path root : List α} (h : rsplitOnce sep path = none) :
    ¬ Under sep path root := by
  rintro ⟨rest, rfl⟩
  exact rsplitOnce_eq_none.1 h (List.mem_append_right root List.mem_cons_self)

/-- What is above a list stands in front of its last separator, or above that. -/
theorem under_iff_of_rsplitOnce {path root front back : List α}
    (h : rsplitOnce sep path = some (front, back)) :
    Under sep path root ↔ root = front ∨ Under sep front root := by
  obtain ⟨rfl, hback⟩ := rsplitOnce_eq_some h
  constructor
  · rintro ⟨rest, hpath⟩
    rcases List.append_eq_append_iff.1 hpath.symm with ⟨a, hfront, ha⟩ | ⟨c, hroot, hc⟩
    · cases a with
      | nil => exact Or.inl (by rw [hfront, List.append_nil])
      | cons x a =>
        rw [List.cons_append, List.cons.injEq] at ha
        exact Or.inr ⟨a, by rw [hfront, ← ha.1]⟩
    · cases c with
      | nil => exact Or.inl (by rw [hroot, List.append_nil])
      | cons x c =>
        rw [List.cons_append, List.cons.injEq] at hc
        rw [hc.2] at hback
        exact absurd (List.mem_append_right c List.mem_cons_self) hback
  · rintro (rfl | hunder)
    · exact ⟨back, rfl⟩
    · exact Under.trans ⟨back, rfl⟩ hunder

/-! ## Sorted ranges -/

section Range

variable {α : Type*} [LinearOrder α]

theorem cons_le_cons {a b : α} {k l : List α} : a :: k ≤ b :: l ↔ a < b ∨ a = b ∧ k ≤ l := by
  rw [← not_lt, List.cons_lt_cons_iff, ← not_lt]
  rcases lt_trichotomy a b with hab | rfl | hab
  · simp [hab, hab.not_gt, hab.ne']
  · simp
  · simp [hab, hab.not_gt, hab.ne']

/-- What lies between a list and one that continues it continues it too. -/
theorem prefix_of_le_of_le {p k l : List α} (hpk : p ≤ k) (hkl : k ≤ l) (h : p <+: l) :
    p <+: k := by
  induction p generalizing k l with
  | nil => exact List.nil_prefix
  | cons a p ih =>
    obtain ⟨rest, rfl⟩ := h
    cases k with
    | nil => exact absurd hpk (by simp)
    | cons b k =>
      rw [List.cons_append] at hkl
      rcases cons_le_cons.1 hpk with hab | ⟨rfl, htail⟩
      · rcases cons_le_cons.1 hkl with hba | ⟨rfl, _⟩
        · exact absurd (lt_trans hab hba) (lt_irrefl a)
        · exact absurd hab (lt_irrefl b)
      · rcases cons_le_cons.1 hkl with hba | ⟨_, hback⟩
        · exact absurd hba (lt_irrefl a)
        · exact List.cons_prefix_cons.2 ⟨rfl, ih htail hback (List.prefix_append _ _)⟩

variable {V : Type*} {es : List (List α × V)}

theorem takeWhile_prefix_eq_filter (p : List α) (h : es.Pairwise fun a b => a.1 < b.1)
    (hle : ∀ e ∈ es, p ≤ e.1) :
    es.takeWhile (fun e => p <+: e.1) = es.filter fun e => p <+: e.1 := by
  induction es with
  | nil => rfl
  | cons e es ih =>
    obtain ⟨hfirst, hrest⟩ := List.pairwise_cons.1 h
    by_cases hp : p <+: e.1
    · rw [List.takeWhile_cons_of_pos (by simpa using hp), List.filter_cons_of_pos (by simpa using hp),
        ih hrest fun d hd => hle d (List.mem_cons_of_mem _ hd)]
    · have hnone : ∀ d ∈ es, ¬ p <+: d.1 := by
        intro d hd hpd
        exact hp (prefix_of_le_of_le (hle e List.mem_cons_self) (le_of_lt (hfirst d hd)) hpd)
      rw [List.takeWhile_cons_of_neg (by simpa using hp), List.filter_cons_of_neg (by simpa using hp),
        eq_comm, List.filter_eq_nil_iff]
      intro d hd
      simpa using hnone d hd

/-- The range from a key on, as long as the keys continue it. -/
theorem range_prefix (p : List α) (h : es.Pairwise fun a b => a.1 < b.1) :
    (es.dropWhile fun e => e.1 < p).takeWhile (fun e => p <+: e.1) =
      es.filter fun e => p <+: e.1 := by
  induction es with
  | nil => rfl
  | cons e es ih =>
    obtain ⟨hfirst, hrest⟩ := List.pairwise_cons.1 h
    by_cases hlt : e.1 < p
    · have hp : ¬ p <+: e.1 := fun hp => absurd hlt hp.le
      rw [List.dropWhile_cons_of_pos (by simpa using hlt), ih hrest,
        List.filter_cons_of_neg (by simpa using hp)]
    · rw [List.dropWhile_cons_of_neg (by simpa using hlt)]
      apply takeWhile_prefix_eq_filter p h
      intro d hd
      rcases List.mem_cons.1 hd with rfl | hd
      · exact not_lt.1 hlt
      · exact le_of_lt (lt_of_le_of_lt (not_lt.1 hlt) (hfirst d hd))

end Range

end Sunpack.Lib
