import Mathlib.Data.List.Sort
import Mathlib.Logic.Relation

/-!
# Chains

A partial function `next` on a type, followed from an element: the chain stops where `next` has no
value, or it runs into a cycle. And a rule by which such functions arise: among the versions of a
name, the latest one before a place, or else the first.
-/

namespace Sunpack.Lib

universe u v

section chains

variable {α : Type u} {β : Type v} {next : α → Option α}

/-- Following `next` from the first element stops at the second. -/
inductive EndsAt (next : α → Option α) : α → α → Prop
  | stop {a : α} : next a = none → EndsAt next a a
  | step {a b e : α} : next a = some b → EndsAt next b e → EndsAt next a e

def Follows (next : α → Option α) (a b : α) : Prop := next a = some b

/-- Following `next` leads to an element to which it comes back. -/
def RunsIntoCycle (next : α → Option α) (a : α) : Prop :=
  ∃ b, Relation.ReflTransGen (Follows next) a b ∧ Relation.TransGen (Follows next) b b

theorem EndsAt.next_eq_none {a e : α} (h : EndsAt next a e) : next e = none := by
  induction h with
  | stop hn => exact hn
  | step _ _ ih => exact ih

theorem EndsAt.reaches {a e : α} (h : EndsAt next a e) :
    Relation.ReflTransGen (Follows next) a e := by
  induction h with
  | stop _ => exact .refl
  | step hn _ ih => exact .head hn ih

theorem EndsAt.of_follows {a b e : α} (h : EndsAt next a e) (hab : Follows next a b) :
    EndsAt next b e := by
  cases h with
  | stop hn => exact absurd (hn.symm.trans hab) (by simp)
  | step hn h => exact Option.some.inj (hn.symm.trans hab) ▸ h

theorem EndsAt.unique {a e e' : α} (h : EndsAt next a e) (h' : EndsAt next a e') : e = e' := by
  induction h with
  | stop hn =>
    cases h' with
    | stop _ => rfl
    | step hn' _ => exact absurd (hn.symm.trans hn') (by simp)
  | step hn _ ih => exact ih (h'.of_follows hn)

/-- Everything on the way to the end has the same end. -/
theorem EndsAt.of_reaches {a b e : α} (h : EndsAt next a e)
    (hab : Relation.ReflTransGen (Follows next) a b) : EndsAt next b e := by
  induction hab with
  | refl => exact h
  | tail _ hbc ih => exact ih.of_follows hbc

theorem EndsAt.extend {a b e : α} (hab : Relation.ReflTransGen (Follows next) a b)
    (h : EndsAt next b e) : EndsAt next a e := by
  induction hab using Relation.ReflTransGen.head_induction_on with
  | refl => exact h
  | head hac _ ih => exact .step hac ih

theorem EndsAt.not_closed {a e : α} (h : EndsAt next a e) :
    ¬ Relation.TransGen (Follows next) a a := by
  induction h with
  | stop hn =>
    intro hloop
    obtain ⟨b, hab, -⟩ := Relation.TransGen.head'_iff.1 hloop
    exact absurd (hn.symm.trans hab) (by simp)
  | step hn _ ih =>
    intro hloop
    -- a step of the loop goes to the next element, which then lies on it
    obtain ⟨c, hac, hca⟩ := Relation.TransGen.head'_iff.1 hloop
    obtain rfl := Option.some.inj (Eq.trans (Eq.symm hn) hac)
    exact ih (Relation.TransGen.tail'_iff.2 ⟨_, hca, hac⟩)

/-- A chain that ends does not run into a cycle. -/
theorem EndsAt.not_runsIntoCycle {a e : α} (h : EndsAt next a e) : ¬ RunsIntoCycle next a := by
  rintro ⟨b, hab, hbb⟩
  exact (h.of_reaches hab).not_closed hbb

theorem RunsIntoCycle.extend {a b : α} (hab : Relation.ReflTransGen (Follows next) a b)
    (h : RunsIntoCycle next b) : RunsIntoCycle next a := by
  obtain ⟨c, hbc, hcc⟩ := h
  exact ⟨c, hab.trans hbc, hcc⟩

/-! ## Images of chains -/

variable {next' : β → Option β} {R : α → β → Prop}

theorem reaches_image (hR : ∀ a b c, R a b → next a = some c → ∃ d, next' b = some d ∧ R c d)
    {a c : α} {b : β} (hab : R a b) (h : Relation.ReflTransGen (Follows next) a c) :
    ∃ d, Relation.ReflTransGen (Follows next') b d ∧ R c d := by
  induction h with
  | refl => exact ⟨b, .refl, hab⟩
  | tail _ hcd ih =>
    obtain ⟨d, hbd, hd⟩ := ih
    obtain ⟨d', hdd', hd'⟩ := hR _ _ _ hd hcd
    exact ⟨d', hbd.tail hdd', hd'⟩

/-- A relation that every step keeps, and that gives each element one image, takes cycles to
cycles. -/
theorem RunsIntoCycle.image
    (hR : ∀ a b c, R a b → next a = some c → ∃ d, next' b = some d ∧ R c d)
    (hfun : ∀ a b b', R a b → R a b' → b = b') {a : α} {b : β} (hab : R a b)
    (h : RunsIntoCycle next a) : RunsIntoCycle next' b := by
  obtain ⟨c, hac, hcc⟩ := h
  obtain ⟨d, hbd, hcd⟩ := reaches_image hR hab hac
  obtain ⟨c', hcc', hc'c⟩ := Relation.TransGen.head'_iff.1 hcc
  obtain ⟨d', hdd', hc'd'⟩ := hR _ _ _ hcd hcc'
  obtain ⟨d'', hd'd'', hcd''⟩ := reaches_image hR hc'd' hc'c
  obtain rfl := hfun _ _ _ hcd hcd''
  exact ⟨d, hbd, Relation.TransGen.head'_iff.2 ⟨d', hdd', hd'd''⟩⟩

/-- A relation that both functions keep takes ends to ends. -/
theorem EndsAt.image
    (hsome : ∀ a b c, R a b → next a = some c → ∃ d, next' b = some d ∧ R c d)
    (hnone : ∀ a b, R a b → next a = none → next' b = none) {a e : α} {b : β} (hab : R a b)
    (h : EndsAt next a e) : ∃ e', EndsAt next' b e' ∧ R e e' := by
  induction h generalizing b with
  | stop hn => exact ⟨b, .stop (hnone _ _ hab hn), hab⟩
  | step hn _ ih =>
    obtain ⟨d, hbd, hd⟩ := hsome _ _ _ hab hn
    obtain ⟨e', hend, he'⟩ := ih hd
    exact ⟨e', .step hbd hend, he'⟩

end chains

/-! ## Versions of a name -/

section versions

variable {α : Type u} (before : α → Bool)

/-- The last version before a place, or else the first version. -/
def latestOrFirst (versions : List α) : Option α :=
  (versions.filter before).getLast?.or versions.head?

theorem mem_of_latestOrFirst {before : α → Bool} {versions : List α} {a : α}
    (h : latestOrFirst before versions = some a) : a ∈ versions := by
  unfold latestOrFirst at h
  rcases Option.or_eq_some_iff.1 h with h | ⟨-, h⟩
  · exact List.mem_of_mem_filter (List.mem_of_getLast? h)
  · exact List.mem_of_mem_head? h

theorem latestOrFirst_eq_none {before : α → Bool} {versions : List α} :
    latestOrFirst before versions = none ↔ versions = [] := by
  unfold latestOrFirst
  rw [Option.or_eq_none_iff, List.getLast?_eq_none_iff, List.head?_eq_none_iff]
  constructor
  · exact fun h => h.2
  · intro h
    rw [h]
    exact ⟨rfl, rfl⟩

theorem latestOrFirst_congr {before before' : α → Bool} {versions : List α}
    (h : ∀ a ∈ versions, before a = before' a) :
    latestOrFirst before versions = latestOrFirst before' versions := by
  unfold latestOrFirst
  rw [List.filter_congr h]

theorem latestOrFirst_map {β : Type v} (f : β → α) (versions : List β) :
    latestOrFirst before (versions.map f) =
      (latestOrFirst (before ∘ f) versions).map f := by
  unfold latestOrFirst
  rw [List.filter_map, List.getLast?_map, List.head?_map]
  cases (versions.filter (before ∘ f)).getLast? with
  | none => rfl
  | some a => rfl

variable {before}

theorem takeWhile_eq_filter {versions : List α}
    (h : versions.Pairwise fun a b => before b = true → before a = true) :
    versions.takeWhile before = versions.filter before := by
  induction versions with
  | nil => rfl
  | cons a versions ih =>
    obtain ⟨ha, hrest⟩ := List.pairwise_cons.1 h
    cases hb : before a with
    | true => rw [List.takeWhile_cons_of_pos hb, List.filter_cons_of_pos hb, ih hrest]
    | false =>
      have hnone : versions.filter before = [] := by
        rw [List.filter_eq_nil_iff]
        intro b hmem hbefore
        exact absurd (ha b hmem hbefore) (by simp [hb])
      rw [List.takeWhile_cons_of_neg (by simp [hb]), List.filter_cons_of_neg (by simp [hb]), hnone]

/-- Where the versions before a place come first, their number finds the last of them. -/
theorem getElem?_partition {versions : List α}
    (h : versions.Pairwise fun a b => before b = true → before a = true) :
    versions[(versions.takeWhile before).length - 1]? = latestOrFirst before versions := by
  have hpre : versions.takeWhile before <+: versions := List.takeWhile_prefix before
  unfold latestOrFirst
  rw [← takeWhile_eq_filter h]
  cases hlast : (versions.takeWhile before).getLast? with
  | none =>
    rw [List.getLast?_eq_none_iff.1 hlast, Option.none_or]
    exact List.head?_eq_getElem?.symm
  | some a =>
    rw [List.getLast?_eq_getElem?] at hlast
    have hlt := (List.getElem?_eq_some_iff.1 hlast).1
    rw [Option.some_or, ← hlast, List.getElem?_eq_getElem (hlt.trans_le hpre.length_le),
      List.getElem?_eq_getElem hlt, hpre.getElem hlt]

end versions

/-! ## Marks -/

/-- Marking an element leaves fewer without a mark. -/
theorem count_false_set_lt {marks : List Bool} {i : Nat}
    (h : marks[i]? = some false) :
    (marks.set i true).count false < marks.count false := by
  obtain ⟨hlt, hget⟩ := List.getElem?_eq_some_iff.1 h
  have hpos : 0 < marks.count false :=
    List.count_pos_iff.2 (hget ▸ List.getElem_mem hlt)
  rw [List.count_set hlt, hget, if_pos (beq_self_eq_true false), if_neg (by decide)]
  omega

end Sunpack.Lib
