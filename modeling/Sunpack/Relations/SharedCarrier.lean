import Sunpack.Lib.Dict
import Sunpack.Lib.Sweep
import Sunpack.Relations.Groups

/-!
# Proposals that share a carrier

The last part of `resolve_shared_carrier_volumes`: proposals for several archives inside of one file
may share it but not the same bytes of it. The byte ranges of all proposals are collected by physical
source and swept, and proposals that were flagged are dropped.
-/

namespace Sunpack.Relations

open Lib

variable (T : DowncaseTable)

/-- The bytes of a carrier that an anchor stands for. -/
def VolumeAnchor.extent (anchor : VolumeAnchor) (index : Nat) : Extent Nat Nat where
  start := anchor.structureOffset.getD 0
  stop := (anchor.payloadEnd <|> anchor.carrierLimit).getD anchor.size
  owner := index

/-- The extents of the parts of one proposal, with their sources. -/
def partExtents : NativeRelationGroup × Nat → List (Text × Extent Nat Nat)
  | (.ordinary _ _, _) => []
  | (.proposal validation _, index) =>
    validation.proposal.volumes.filterMap fun part =>
      (validation.anchors.lookup (T.pathKey part.path)).map fun anchor =>
        (T.pathKey part.path, anchor.extent index)

def intervals (proposals : List NativeRelationGroup) : Dict Text (List (Extent Nat Nat)) :=
  Dict.group (proposals.zipIdx.flatMap (partExtents T))

/-- The order of the tuples `(start, end, index)`. -/
def Extent.tupleLe (a b : Extent Nat Nat) : Bool :=
  a.start < b.start || a.start = b.start &&
    (a.stop < b.stop || a.stop = b.stop && a.owner ≤ b.owner)

def conflicted (proposals : List NativeRelationGroup) : List Nat :=
  (intervals T proposals).entries.flatMap fun ranges => sweep (ranges.2.mergeSort Extent.tupleLe)

/-- The proposals that are not conflicted, in order. -/
def keptProposals (proposals : List NativeRelationGroup) : List (NativeRelationGroup × Nat) :=
  proposals.zipIdx.filter fun proposal => !(proposal.2 ∈ conflicted T proposals)

/-! ## Sorted ranges -/

theorem Extent.tupleLe_iff {a b : Extent Nat Nat} : Extent.tupleLe a b = true ↔
    a.start < b.start ∨ a.start = b.start ∧
      (a.stop < b.stop ∨ a.stop = b.stop ∧ a.owner ≤ b.owner) := by
  simp [Extent.tupleLe]

theorem Extent.tupleLe_trans (a b c : Extent Nat Nat) (hab : Extent.tupleLe a b = true)
    (hbc : Extent.tupleLe b c = true) : Extent.tupleLe a c = true := by
  rw [Extent.tupleLe_iff] at hab hbc ⊢
  omega

theorem Extent.tupleLe_total (a b : Extent Nat Nat) :
    (Extent.tupleLe a b || Extent.tupleLe b a) = true := by
  rw [Bool.or_eq_true, Extent.tupleLe_iff, Extent.tupleLe_iff]
  omega

theorem sorted_by_start (ranges : List (Extent Nat Nat)) :
    (ranges.mergeSort Extent.tupleLe).Pairwise fun a b => a.start ≤ b.start := by
  apply (List.pairwise_mergeSort Extent.tupleLe_trans Extent.tupleLe_total ranges).imp
  intro a b hab
  rw [Extent.tupleLe_iff] at hab
  omega

/-! ## Conflicts -/

/-- A proposal has an extent on a source. -/
def HasExtent (proposals : List NativeRelationGroup) (source : Text) (e : Extent Nat Nat) : Prop :=
  (source, e) ∈ proposals.zipIdx.flatMap (partExtents T)

theorem owner_of_mem_partExtents {proposal : NativeRelationGroup × Nat} {source : Text}
    {e : Extent Nat Nat} (h : (source, e) ∈ partExtents T proposal) : e.owner = proposal.2 := by
  obtain ⟨group, index⟩ := proposal
  cases group with
  | ordinary row confirmed => simp [partExtents] at h
  | proposal validation kind =>
    obtain ⟨part, _, hanchor⟩ := List.mem_filterMap.1 h
    obtain ⟨anchor, _, heq⟩ := Option.map_eq_some_iff.1 hanchor
    rw [← (Prod.mk.inj heq).2]
    rfl

/-- The ranges of a source are the extents on it. -/
theorem mem_ranges {proposals : List NativeRelationGroup} {source : Text} {e : Extent Nat Nat} :
    e ∈ ((intervals T proposals).get? source).getD [] ↔ HasExtent T proposals source e := by
  rw [intervals, Dict.getD_group, HasExtent]
  simp

theorem mem_conflicted {proposals : List NativeRelationGroup}
    (hne : ∀ source e, HasExtent T proposals source e → e.start < e.stop) {index : Nat} :
    index ∈ conflicted T proposals ↔ ∃ source a b, HasExtent T proposals source a ∧
      HasExtent T proposals source b ∧ a.owner = index ∧ b.owner ≠ index ∧ a.Meet b := by
  have hsweep (source : Text) (ranges : List (Extent Nat Nat))
      (hget : (intervals T proposals).get? source = some ranges) :
      index ∈ sweep (ranges.mergeSort Extent.tupleLe) ↔ Clash ranges index := by
    have hnonempty : ∀ e ∈ ranges.mergeSort Extent.tupleLe, e.start < e.stop := by
      intro e he
      apply hne source e
      rw [← mem_ranges, hget]
      exact (List.mergeSort_perm ranges _).mem_iff.1 he
    rw [mem_sweep (sorted_by_start ranges) hnonempty]
    simp only [Clash, (List.mergeSort_perm ranges _).mem_iff]
  rw [conflicted, List.mem_flatMap]
  constructor
  · rintro ⟨⟨source, ranges⟩, hentry, hin⟩
    have hget := Dict.mem_entries.1 hentry
    have hiff : ∀ e, e ∈ ranges ↔ HasExtent T proposals source e := by
      intro e
      rw [← mem_ranges, hget, Option.getD_some]
    obtain ⟨a, ha, howner, b, hb, hother, hmeet⟩ := (hsweep source ranges hget).1 hin
    exact ⟨source, a, b, (hiff a).1 ha, (hiff b).1 hb, howner, hother, hmeet⟩
  · rintro ⟨source, a, b, ha, hb, howner, hother, hmeet⟩
    rw [← mem_ranges] at ha hb
    cases hget : (intervals T proposals).get? source with
    | none => simp [hget] at ha
    | some ranges =>
      rw [hget, Option.getD_some] at ha hb
      exact ⟨(source, ranges), Dict.mem_entries.2 hget,
        (hsweep source ranges hget).2 ⟨a, ha, howner, b, hb, hother, hmeet⟩⟩

/-- The sweep drops exactly the proposals that overlap another one, so what it keeps is disjoint. -/
theorem shared_carriers_disjoint (proposals : List NativeRelationGroup)
    (hne : ∀ source e, HasExtent T proposals source e → e.start < e.stop) :
    (∀ index, index ∈ conflicted T proposals ↔ ∃ source a b, HasExtent T proposals source a ∧
      HasExtent T proposals source b ∧ a.owner = index ∧ b.owner ≠ index ∧ a.Meet b) ∧
    (keptProposals T proposals).Pairwise fun p q => ∀ source a b,
      (source, a) ∈ partExtents T p → (source, b) ∈ partExtents T q → ¬ a.Meet b := by
  refine ⟨fun index => mem_conflicted T hne, ?_⟩
  have hdistinct : (keptProposals T proposals).Pairwise fun p q => p.2 ≠ q.2 := by
    have hnodup : (proposals.zipIdx.map Prod.snd).Nodup := by
      rw [List.zipIdx_map_snd]
      exact List.nodup_range'
    exact (List.pairwise_map.1 hnodup).sublist List.filter_sublist
  refine hdistinct.imp_of_mem ?_
  intro p q hp hq hpq source a b ha hb hmeet
  obtain ⟨hp, hkept⟩ := List.mem_filter.1 hp
  obtain ⟨hq, _⟩ := List.mem_filter.1 hq
  have hap : HasExtent T proposals source a := List.mem_flatMap.2 ⟨p, hp, ha⟩
  have hbq : HasExtent T proposals source b := List.mem_flatMap.2 ⟨q, hq, hb⟩
  have hconf : p.2 ∈ conflicted T proposals :=
    (mem_conflicted T hne).2 ⟨source, a, b, hap, hbq,
      owner_of_mem_partExtents T ha, owner_of_mem_partExtents T hb ▸ hpq.symm, hmeet⟩
  simp [hconf] at hkept

/-- An archive inside of `c`, between two offsets. -/
def proposalInside (start stop : Nat) : NativeRelationGroup :=
  .proposal
    { status := .valid
      proposal :=
        { format := "rar"
          logicalName := "c"
          style := "rar_part"
          volumes := [⟨['c'], 1, "rar_part", 3, false⟩]
          companions := [] }
      anchors := [(['c'], { structureOffset := some start, payloadEnd := some stop })]
      reason := none
      unresolved := []
      nameFeatures := [] } .valid

theorem shared_carriers_disjoint_two :
    0 ∈ conflicted DowncaseTable.asciiOnly [proposalInside 0 9, proposalInside 5 12] ↔
      ∃ source a b,
        HasExtent DowncaseTable.asciiOnly [proposalInside 0 9, proposalInside 5 12] source a ∧
        HasExtent DowncaseTable.asciiOnly [proposalInside 0 9, proposalInside 5 12] source b ∧
        a.owner = 0 ∧ b.owner ≠ 0 ∧ a.Meet b := by
  apply (shared_carriers_disjoint DowncaseTable.asciiOnly _ _).1 0
  intro source e he
  have hall : ∀ p ∈ [proposalInside 0 9, proposalInside 5 12].zipIdx.flatMap
      (partExtents DowncaseTable.asciiOnly), p.2.start < p.2.stop := by
    decide
  exact hall (source, e) he

end Sunpack.Relations
