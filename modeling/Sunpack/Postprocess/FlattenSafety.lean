import Sunpack.Postprocess.Flatten

/-!
# What flattening leaves behind

The disks of a call, and of calls that are cut off and run again, are those of a few phases: the tree at
the root, the tree at the work path, the leaf at the root with some empty wrappers left.
-/

namespace Sunpack.Postprocess

open Lib

/-! ## Chains -/

/-- A chain of single directories around a node. -/
def wrap : List Text → Node → Node
  | [], node => node
  | name :: names, node => .directory [(name, wrap names node)]

theorem wrap_append (names names' : List Text) (node : Node) :
    wrap (names ++ names') node = wrap names (wrap names' node) := by
  induction names with
  | nil => rfl
  | cons name names ih => rw [List.cons_append, wrap, ih, wrap]

theorem get_wrap (names names' : List Text) (node : Node) :
    Node.get (names ++ names') (wrap names node) = Node.get names' node := by
  induction names with
  | nil => rfl
  | cons name names ih =>
    show (Dict.find name [(name, wrap names node)]).bind (Node.get (names ++ names')) = _
    rw [Dict.find, if_pos rfl]
    exact ih

theorem remove_wrap (names : List Text) (name : Text) (node : Node) :
    Node.remove (names ++ [name]) (wrap (names ++ [name]) node) = wrap names (.directory []) := by
  induction names with
  | nil =>
    show Node.directory (Dict.drop name [(name, node)]) = _
    rw [Dict.drop, if_pos rfl]
    rfl
  | cons first names ih =>
    obtain ⟨next, rest, hnext⟩ : ∃ next rest, names ++ [name] = next :: rest := by
      cases names with
      | nil => exact ⟨name, [], rfl⟩
      | cons next rest => exact ⟨next, rest ++ [name], rfl⟩
    rw [List.cons_append, wrap]
    rw [hnext] at ih ⊢
    simp only [Node.remove, Dict.find, if_true]
    rw [ih, Dict.put, if_pos rfl]
    rfl

theorem discover_spec (node : Node) : ∃ leaf, node = wrap node.discoverFlattenLeaf leaf ∧
    leaf.onlyChildDirectory = none ∧ (node.discoverFlattenLeaf ≠ [] → leaf.isDir = true) := by
  fun_induction Node.discoverFlattenLeaf node with
  | case1 name entries ih =>
    obtain ⟨leaf, hwrap, honly, hdir⟩ := ih
    refine ⟨leaf, ?_, honly, fun _ => ?_⟩
    · rw [wrap, ← hwrap]
    · by_cases hchain : (Node.directory entries).discoverFlattenLeaf = []
      · rw [hchain] at hwrap
        rw [show leaf = Node.directory entries from hwrap.symm]
        rfl
      · exact hdir hchain
  | case2 node hnode =>
    refine ⟨node, rfl, ?_, fun h => absurd rfl h⟩
    unfold Node.onlyChildDirectory
    split
    · next name entries => exact absurd rfl (hnode name entries)
    · rfl

/-! ## Phases -/

/-- The leaf is at the root; at the work path are empty wrappers, or nothing. -/
def Published (names : List Text) (leaf : Node) (disk : Disk) : Prop :=
  disk.root = some leaf ∧ (disk.work = none ∨
    ∃ depth < names.length, disk.work = some (wrap (names.take depth) (.directory [])))

/-- A call that was told the leaf can go on from here. -/
def Resumable (names : List Text) (leaf : Node) (disk : Disk) : Prop :=
  disk = ⟨none, some (wrap names leaf)⟩ ∨ Published names leaf disk

theorem take_split (names : List Text) {i j : Nat} (hij : i < j) (hj : j ≤ names.length) :
    ∃ name rest, names.take j = names.take i ++ name :: rest := by
  have hadd := List.take_add (l := names) (i := i) (j := j - i)
  rw [Nat.add_sub_cancel' hij.le] at hadd
  have hlength : ((names.drop i).take (j - i)).length ≠ 0 := by
    rw [List.length_take, List.length_drop]
    omega
  obtain ⟨name, rest, hrest⟩ := List.exists_cons_of_ne_nil (List.ne_nil_of_length_pos
    (Nat.pos_of_ne_zero hlength))
  exact ⟨name, rest, by rw [hadd, hrest]⟩

section Wrappers

variable {names : List Text} {leaf : Node} {depth depth' : Nat} {disk disk' : Disk}

theorem removeDir_above (h : depth' < depth) (hdepth : depth ≤ names.length)
    (hwork : disk.work = some (wrap (names.take depth) (.directory []))) :
    disk.removeDir (names.take depth') = .error .notEmpty := by
  obtain ⟨name, rest, htake⟩ := take_split names h hdepth
  have hget := get_wrap (names.take depth') [] (wrap (name :: rest) (.directory []))
  rw [List.append_nil] at hget
  unfold Disk.removeDir
  rw [hwork, Option.bind_some, htake, wrap_append, hget]
  rfl

theorem removeDir_below (h : depth < depth') (hdepth' : depth' ≤ names.length)
    (hwork : disk.work = some (wrap (names.take depth) (.directory []))) :
    disk.removeDir (names.take depth') = .error .notFound := by
  obtain ⟨name, rest, htake⟩ := take_split names h hdepth'
  unfold Disk.removeDir
  rw [hwork, Option.bind_some, htake, get_wrap]
  rfl

/-- The innermost wrapper is removed; it is empty. -/
theorem removeDir_at (hdepth : depth ≤ names.length)
    (hwork : disk.work = some (wrap (names.take depth) (.directory []))) :
    disk.removeDir (names.take depth) = .ok { disk with
      work := if depth = 0 then none else some (wrap (names.take (depth - 1)) (.directory [])) } := by
  have hget := get_wrap (names.take depth) [] (.directory [])
  rw [List.append_nil] at hget
  unfold Disk.removeDir
  rw [hwork, Option.bind_some, hget]
  cases depth with
  | zero => rfl
  | succ depth =>
    have hlt : depth < names.length := hdepth
    have hne : names.take (depth + 1) ≠ [] := by
      rw [List.take_succ_eq_append_getElem hlt]
      exact List.append_ne_nil_of_right_ne_nil _ (List.cons_ne_nil _ _)
    show Except.ok { disk with work := if names.take (depth + 1) = [] then none else _ } = _
    rw [if_neg hne, if_neg (by omega), Option.map_some, List.take_succ_eq_append_getElem hlt, remove_wrap]
    rfl

theorem removeDir_none (hwork : disk.work = none) (names : List Text) :
    disk.removeDir names = .error .notFound := by
  unfold Disk.removeDir
  rw [hwork]
  rfl

/-- One call of `remove_dir` on the wrappers. -/
theorem Published.removeDir (h : Published names leaf disk) (hdepth' : depth' ≤ names.length)
    (hremoved : disk.removeDir (names.take depth') = .ok disk') : Published names leaf disk' ∧
      disk.work = some (wrap (names.take depth') (.directory [])) ∧
      (disk'.work = none ∨ ∃ depth < depth',
        disk'.work = some (wrap (names.take depth) (.directory []))) := by
  obtain ⟨hroot, hnone | ⟨depth, hdepth, hwork⟩⟩ := h
  · rw [removeDir_none hnone] at hremoved
    cases hremoved
  · rcases Nat.lt_trichotomy depth' depth with hlt | rfl | hgt
    · rw [removeDir_above hlt hdepth.le hwork] at hremoved
      cases hremoved
    · rw [removeDir_at hdepth.le hwork] at hremoved
      obtain rfl := Except.ok.inj hremoved
      have hrest : (if depth' = 0 then none
          else some (wrap (names.take (depth' - 1)) (.directory []))) = none ∨
          ∃ depth < depth', (if depth' = 0 then none
            else some (wrap (names.take (depth' - 1)) (.directory []))) =
              some (wrap (names.take depth) (.directory [])) := by
        split_ifs with hzero
        · exact .inl rfl
        · exact .inr ⟨depth' - 1, by omega, rfl⟩
      refine ⟨⟨hroot, hrest.imp_right ?_⟩, hwork, hrest⟩
      rintro ⟨depth, hlt, heq⟩
      exact ⟨depth, by omega, heq⟩
    · rw [removeDir_below hgt hdepth' hwork] at hremoved
      cases hremoved

/-- The removals went as they should: all disks have the leaf at the root and empty wrappers, without an
error no wrapper is left, and without a failure there is no error. -/
structure Removed (names : List Text) (leaf : Node) (unharmed : Prop) (disk : Disk)
    (result : Nat × Option Text × List Disk) : Prop where
  disks : ∀ d ∈ result.2.2, Published names leaf d
  cleaned : result.2.1 = none → ((result.2.2.getLast?).getD disk).work = none
  unharmed : unharmed → result.2.1 = none

/-- No wrapper is deeper. -/
def UpTo (names : List Text) (depth : Nat) (disk : Disk) : Prop :=
  disk.work = none ∨ ∃ d < depth, disk.work = some (wrap (names.take d) (.directory []))

theorem removeWrapper_spec {removals : List (Option Failure)} {directory : Text}
    {rest : Disk → Nat × Option Text × List Disk} (hdepth : depth < names.length)
    (h : Published names leaf disk) (hupTo : UpTo names (depth + 1) disk)
    (hrest : ∀ disk, Published names leaf disk → UpTo names depth disk →
      Removed names leaf (∀ removal ∈ removals.tail, removal = none) disk (rest disk)) :
    Removed names leaf (∀ removal ∈ removals, removal = none) disk
      (removeWrapper directory (tryRemove removals disk (names.take depth)) disk rest) := by
  have htail : (∀ removal ∈ removals, removal = none) → ∀ removal ∈ removals.tail, removal = none :=
    fun hall removal hmem => hall removal (List.mem_of_mem_tail hmem)
  unfold tryRemove
  cases hfailure : removals.headD none with
  | some failure =>
    have hmem : some failure ∈ removals := by
      cases removals with
      | nil => cases hfailure
      | cons removal removals => exact hfailure ▸ List.mem_cons_self
    unfold removeWrapper
    dsimp only
    rw [failure.found, if_neg Bool.false_ne_true]
    refine ⟨fun d hd => absurd hd List.not_mem_nil, fun hnone => ?_, fun hall => ?_⟩
    · cases hnone
    · cases hall _ hmem
  | none =>
    unfold removeWrapper
    dsimp only
    cases hremoved : disk.removeDir (names.take depth) with
    | ok disk' =>
      obtain ⟨hpublished, -, hupTo'⟩ := h.removeDir hdepth.le hremoved
      obtain ⟨hdisks, hcleaned, hunharmed⟩ := hrest disk' hpublished hupTo'
      refine ⟨fun d hd => ?_, fun hnone => ?_, fun hall => hunharmed (htail hall)⟩
      · rcases List.mem_cons.1 hd with rfl | hd
        · exact hpublished
        · exact hdisks d hd
      · have hlast := hcleaned hnone
        rwa [List.getLast?_cons, Option.getD_some]
    | error error =>
      have hmissing : UpTo names depth disk ∧ error.isNotFound = true := by
        rcases hupTo with hnone | ⟨d, hd, hwork⟩
        · rw [removeDir_none hnone] at hremoved
          obtain rfl := Except.error.inj hremoved
          exact ⟨.inl hnone, rfl⟩
        · rcases Nat.lt_or_eq_of_le (Nat.le_of_lt_succ hd) with hlt | rfl
          · rw [removeDir_below hlt hdepth.le hwork] at hremoved
            obtain rfl := Except.error.inj hremoved
            exact ⟨.inr ⟨d, hlt, hwork⟩, rfl⟩
          · rw [removeDir_at hdepth.le hwork] at hremoved
            cases hremoved
      obtain ⟨hupTo', hnotFound⟩ := hmissing
      dsimp only
      rw [if_pos hnotFound]
      obtain ⟨hdisks, hcleaned, hunharmed⟩ := hrest disk h hupTo'
      exact ⟨hdisks, hcleaned, fun hall => hunharmed (htail hall)⟩

theorem removeWrappers_spec (work : Text) {names : List Text} {leaf : Node} :
    ∀ (depth : Nat) (removals : List (Option Failure)) {disk : Disk}, depth < names.length →
      Published names leaf disk → UpTo names (depth + 1) disk →
      Removed names leaf (∀ removal ∈ removals, removal = none) disk
        (removeWrappers work names depth removals disk) := by
  intro depth
  induction depth with
  | zero =>
    intro removals disk hdepth h hupTo
    refine removeWrapper_spec hdepth h hupTo fun disk' h' hupTo' => ?_
    refine ⟨fun d hd => absurd hd List.not_mem_nil, fun _ => ?_, fun _ => rfl⟩
    obtain hnone | ⟨d, hd, -⟩ := hupTo'
    · exact hnone
    · exact absurd hd (Nat.not_lt_zero d)
  | succ depth ih =>
    intro removals disk hdepth h hupTo
    exact removeWrapper_spec hdepth h hupTo fun disk' h' hupTo' =>
      ih removals.tail (by omega) h' hupTo'

end Wrappers

/-! ## Calls -/

section Calls

variable {root : RootPath} {work : Text} {names : List Text} {leaf : Node} {faults : Faults}
  {disk : Disk}

/-- The trace of a call, the disk it ends on, and its errors. -/
structure Ends (names : List Text) (leaf : Node) (unharmed : Prop) (disk : Disk)
    (result : FlattenStats × List Disk) : Prop where
  disks : ∀ d ∈ result.2, Resumable names leaf d
  cleaned : result.1.errors = [] → (result.2.getLast?).getD disk = ⟨some leaf, none⟩
  unharmed : unharmed → result.1.errors = []

theorem Published.ends (root : RootPath) (work : Text) (faults : Faults) (hnames : names ≠ [])
    (h : Published names leaf disk) : Ends names leaf (∀ removal ∈ faults.removals, removal = none) disk
      (finishFlatten root work names faults disk) := by
  have hpos : 0 < names.length := List.length_pos_iff.2 hnames
  have hupTo : UpTo names (names.length - 1 + 1) disk := by
    rw [Nat.sub_add_cancel hpos]
    exact h.2
  obtain ⟨hdisks, hcleaned, hunharmed⟩ :=
    removeWrappers_spec work (names.length - 1) faults.removals (by omega) h hupTo
  refine ⟨fun d hd => .inr (hdisks d hd), fun herrors => ?_, fun hall => ?_⟩
  · have hnone := hcleaned (Option.toList_eq_nil_iff.1 herrors)
    have hroot : (((finishFlatten root work names faults disk).2.getLast?).getD disk).root =
        some leaf := by
      cases hlast : (finishFlatten root work names faults disk).2.getLast? with
      | none => exact h.1
      | some d => exact (hdisks d (List.mem_of_getLast? hlast)).1
    exact congrArg₂ Disk.mk hroot hnone
  · show Option.toList _ = []
    rw [hunharmed hall]
    rfl

/-- The leaf is published, or the tree stays at the work path. -/
theorem publish_wrap (hnames : names ≠ []) :
    (⟨none, some (wrap names leaf)⟩ : Disk).publish names =
      .ok ⟨some leaf, some (wrap (names.take (names.length - 1)) (.directory []))⟩ := by
  obtain ⟨front, name, rfl⟩ : ∃ front name, names = front ++ [name] :=
    ⟨_, _, (List.dropLast_append_getLast hnames).symm⟩
  have hget := get_wrap (front ++ [name]) [] leaf
  rw [List.append_nil] at hget
  unfold Disk.publish
  rw [Option.bind_some, hget]
  show Except.ok (Disk.mk (some leaf) (some (Node.remove _ _))) = _
  rw [remove_wrap, List.length_append, List.length_singleton, Nat.add_sub_cancel, List.take_left]

/-- The tree is at the work path, and nothing at the root. -/
theorem publishLeaf_moved (hnames : names ≠ []) (harrival : faults.arrival = none) (resume : Bool) :
    Ends names leaf (faults.publish = none ∧ ∀ removal ∈ faults.removals, removal = none)
      ⟨none, some (wrap names leaf)⟩
      (publishLeaf root work names resume faults ⟨none, some (wrap names leaf)⟩) := by
  unfold publishLeaf
  rw [Option.any_none, Bool.and_false, if_neg Bool.false_ne_true, harrival]
  dsimp only [Option.or]
  cases faults.publish with
  | some error =>
    refine ⟨fun d hd => ?_, fun hnone => ?_, fun hall => ?_⟩
    · obtain rfl := List.mem_singleton.1 hd
      exact .inl rfl
    · cases hnone
    · cases hall.1
  | none =>
    dsimp only
    rw [publish_wrap hnames]
    have hpublished : Published names leaf
        ⟨some leaf, some (wrap (names.take (names.length - 1)) (.directory []))⟩ :=
      ⟨rfl, .inr ⟨_, Nat.sub_lt (List.length_pos_iff.2 hnames) Nat.one_pos, rfl⟩⟩
    obtain ⟨hdisks, hcleaned, hunharmed⟩ := hpublished.ends root work faults hnames
    refine ⟨fun d hd => ?_, fun hnone => ?_, fun hall => hunharmed hall.2⟩
    · rcases List.mem_cons.1 hd with rfl | hd
      · exact .inr hpublished
      · exact hdisks d hd
    · have hlast := hcleaned hnone
      rwa [List.getLast?_cons, Option.getD_some]

/-- A call that was told the leaf, on a disk that it can go on from. -/
theorem Resumable.ends (hnames : names ≠ []) (hleaf : leaf.isDir = true)
    (h : Resumable names leaf disk) (harrival : faults.arrival = none) :
    Ends names leaf (faults.publish = none ∧ ∀ removal ∈ faults.removals, removal = none) disk
      (flatten root (some work) (some (.below names)) faults disk) := by
  obtain ⟨name, rest, rfl⟩ := List.exists_cons_of_ne_nil hnames
  show Ends (name :: rest) leaf _ disk (publishLeaf root work (name :: rest) true faults disk)
  rcases h with rfl | hpublished
  · exact publishLeaf_moved hnames harrival true
  · unfold publishLeaf
    rw [hpublished.1, Option.any_some, hleaf, Bool.and_true, if_pos rfl]
    obtain ⟨hdisks, hcleaned, hunharmed⟩ := hpublished.ends root work faults hnames
    exact ⟨hdisks, hcleaned, fun hall => hunharmed hall.2⟩

/-- Where the payload is, after a call that had errors: the whole tree at the root or at the work path,
or the leaf at the root. -/
def Kept (names : List Text) (leaf : Node) (arrival : Option Node) (disk : Disk) : Prop :=
  disk = ⟨some (wrap names leaf), none⟩ ∨ disk = ⟨arrival, some (wrap names leaf)⟩ ∨
    Published names leaf disk

theorem Ends.kept {unharmed : Prop} {result : FlattenStats × List Disk} {arrival : Option Node}
    (h : Ends names leaf unharmed disk result) (hstart : Kept names leaf arrival disk)
    (harrival : arrival = none) : Kept names leaf arrival ((result.2.getLast?).getD disk) := by
  cases hlast : result.2.getLast? with
  | none => exact hstart
  | some d =>
    rcases h.disks d (List.mem_of_getLast? hlast) with rfl | hpublished
    · rw [harrival]
      exact .inr (.inl rfl)
    · exact .inr (.inr hpublished)

/-- Somebody else is at the root. -/
theorem publishLeaf_occupied {node : Node} (harrival : faults.arrival = some node) :
    (publishLeaf root work names false faults ⟨none, some (wrap names leaf)⟩).1.errors ≠ [] ∧
      (publishLeaf root work names false faults ⟨none, some (wrap names leaf)⟩).2 =
        [⟨some node, some (wrap names leaf)⟩] := by
  have hget := get_wrap names [] leaf
  rw [List.append_nil] at hget
  unfold publishLeaf
  rw [Bool.false_and, if_neg Bool.false_ne_true, harrival]
  dsimp only [Option.or]
  cases faults.publish with
  | some error => exact ⟨List.cons_ne_nil _ _, rfl⟩
  | none =>
    unfold Disk.publish
    rw [Option.bind_some, hget]
    exact ⟨List.cons_ne_nil _ _, rfl⟩

theorem moveToWork_ok {reserved : Option Text} {node : Node} {work : Text}
    (h : moveToWork root reserved faults ⟨some node, none⟩ = .ok (work, disk)) :
    disk = ⟨none, some node⟩ := by
  have hvisible : ∀ (path : Text) (errors : List IoError) (attempt : Nat),
      moveToWork.visible root ⟨some node, none⟩ path errors attempt = .ok (work, disk) →
        disk = ⟨none, some node⟩ := by
    intro path errors
    induction errors with
    | nil =>
      intro attempt hok
      exact (Prod.mk.inj (Except.ok.inj hok)).2.symm
    | cons error errors ih =>
      intro attempt hok
      unfold moveToWork.visible at hok
      split_ifs at hok
      exact ih (attempt + 1) hok
  unfold moveToWork at h
  cases reserved with
  | some reserved =>
    dsimp only at h
    cases hrename : faults.rename with
    | cons error errors =>
      rw [hrename] at h
      cases h
    | nil =>
      rw [hrename] at h
      exact (Prod.mk.inj (Except.ok.inj h)).2.symm
  | none =>
    dsimp only at h
    cases hparent : root.parent with
    | none =>
      rw [hparent] at h
      cases h
    | some parent =>
      cases hname : root.name with
      | none =>
        rw [hparent, hname] at h
        cases h
      | some name =>
        rw [hparent, hname] at h
        exact hvisible _ _ _ h

/-- A first call, on a chain of at least one wrapper. -/
theorem flatten_chain (reserved : Option Text) {tree : Node} {name : Text} {rest : List Text}
    (hnames : tree.discoverFlattenLeaf = name :: rest) :
    (∃ error, flatten root reserved none faults ⟨some tree, none⟩ = ({ errors := [error] }, [])) ∨
      ∃ work, flatten root reserved none faults ⟨some tree, none⟩ =
        ((publishLeaf root work (name :: rest) false faults ⟨none, some tree⟩).1,
          ⟨none, some tree⟩ ::
            (publishLeaf root work (name :: rest) false faults ⟨none, some tree⟩).2) := by
  unfold flatten
  simp only [Option.map_some, hnames]
  cases hwork : moveToWork root reserved faults ⟨some tree, none⟩ with
  | error error =>
    left
    cases reserved with
    | none => exact ⟨error, rfl⟩
    | some work =>
      cases faults.beforeMove with
      | some error => exact ⟨_, rfl⟩
      | none => exact ⟨error, rfl⟩
  | ok moved =>
    obtain ⟨work, disk⟩ := moved
    obtain rfl := moveToWork_ok hwork
    cases reserved with
    | none => exact .inr ⟨work, rfl⟩
    | some reserved =>
      cases faults.beforeMove with
      | some error => exact .inl ⟨_, rfl⟩
      | none => exact .inr ⟨work, rfl⟩

/-- Without faults the first call succeeds, if there is a work path to be had. -/
theorem flatten_unharmed {reserved : Option Text} {tree : Node} {name : Text} {rest : List Text}
    (hnames : tree.discoverFlattenLeaf = name :: rest)
    (hpath : reserved.isSome = true ∨ root.parent.isSome = true ∧ root.name.isSome = true) :
    ∃ work, (flatten root reserved none {} ⟨some tree, none⟩).1 =
      (publishLeaf root work (name :: rest) false {} ⟨none, some tree⟩).1 := by
  unfold flatten
  simp only [Option.map_some, hnames]
  cases reserved with
  | some work => exact ⟨work, rfl⟩
  | none =>
    obtain hfalse | ⟨hparent, hname⟩ := hpath
    · cases hfalse
    · obtain ⟨parent, hparent⟩ := Option.isSome_iff_exists.1 hparent
      obtain ⟨rootName, hname⟩ := Option.isSome_iff_exists.1 hname
      unfold moveToWork
      dsimp only
      rw [hparent, hname]
      exact ⟨_, rfl⟩

end Calls

/-- A call that was told the leaf is cut off at one of its disks. -/
def Resumes (root : RootPath) (work : Text) (names : List Text) (disk disk' : Disk) : Prop :=
  ∃ faults : Faults, faults.arrival = none ∧
    disk' ∈ (flatten root (some work) (some (.below names)) faults disk).2

/-- A first call, and calls that go on with what it has recorded from any of its disks. -/
theorem flatten_spec (root : RootPath) (reserved : Option Text) (tree : Node) (faults : Faults) :
    ∃ leaf, tree = wrap tree.discoverFlattenLeaf leaf ∧ leaf.onlyChildDirectory = none ∧
      ((flatten root reserved none faults ⟨some tree, none⟩).1.errors = [] →
        ((flatten root reserved none faults ⟨some tree, none⟩).2.getLast?).getD ⟨some tree, none⟩ =
          ⟨some leaf, none⟩) ∧
      ((flatten root reserved none faults ⟨some tree, none⟩).1.errors ≠ [] →
        Kept tree.discoverFlattenLeaf leaf faults.arrival
          (((flatten root reserved none faults ⟨some tree, none⟩).2.getLast?).getD ⟨some tree, none⟩)) ∧
      (faults = {} → (reserved.isSome = true ∨ root.parent.isSome = true ∧ root.name.isSome = true) →
        (flatten root reserved none faults ⟨some tree, none⟩).1.errors = []) ∧
      (faults.arrival = none → ∀ disk ∈ (flatten root reserved none faults ⟨some tree, none⟩).2,
        Resumable tree.discoverFlattenLeaf leaf disk ∧
        ∀ work disk', Relation.ReflTransGen (Resumes root work tree.discoverFlattenLeaf) disk disk' →
          (flatten root (some work) (some (.below tree.discoverFlattenLeaf)) {} disk').1.errors = [] ∧
          ((flatten root (some work) (some (.below tree.discoverFlattenLeaf)) {} disk').2.getLast?).getD
            disk' = ⟨some leaf, none⟩) := by
  obtain ⟨leaf, hwrap, honly, hdir⟩ := discover_spec tree
  refine ⟨leaf, hwrap, honly, ?_⟩
  cases hnames : tree.discoverFlattenLeaf with
  | nil =>
    rw [hnames] at hwrap
    have hflat : flatten root reserved none faults ⟨some tree, none⟩ = ({}, []) := by
      unfold flatten
      simp only [Option.map_some, hnames]
    rw [hflat]
    refine ⟨fun _ => ?_, fun h => absurd rfl h, fun _ _ => rfl, fun _ disk hdisk =>
      absurd hdisk List.not_mem_nil⟩
    exact congrArg (fun node => (⟨some node, none⟩ : Disk)) hwrap
  | cons name rest =>
    have hleaf := hdir (by rw [hnames]; exact List.cons_ne_nil _ _)
    have hne : name :: rest ≠ [] := List.cons_ne_nil _ _
    rw [hnames] at hwrap
    have hresumed : ∀ disk, Resumable (name :: rest) leaf disk → ∀ work disk',
        Relation.ReflTransGen (Resumes root work (name :: rest)) disk disk' →
          (flatten root (some work) (some (.below (name :: rest))) {} disk').1.errors = [] ∧
          ((flatten root (some work) (some (.below (name :: rest))) {} disk').2.getLast?).getD
            disk' = ⟨some leaf, none⟩ := by
      intro disk hdisk work disk' hruns
      have hdisk' : Resumable (name :: rest) leaf disk' := by
        induction hruns with
        | refl => exact hdisk
        | tail _ hstep ih =>
          obtain ⟨faults', harrival, hmem⟩ := hstep
          exact (ih.ends hne hleaf harrival).disks _ hmem
      have hends : Ends (name :: rest) leaf _ disk'
        (flatten root (some work) (some (.below (name :: rest))) {} disk') :=
        hdisk'.ends hne hleaf rfl
      have herrors := hends.unharmed ⟨rfl, fun removal hmem => absurd hmem List.not_mem_nil⟩
      exact ⟨herrors, hends.cleaned herrors⟩
    have hunharmed : faults = {} →
        (reserved.isSome = true ∨ root.parent.isSome = true ∧ root.name.isSome = true) →
        (flatten root reserved none faults ⟨some tree, none⟩).1.errors = [] := by
      rintro rfl hpath
      obtain ⟨work, hwork⟩ := flatten_unharmed hnames hpath
      have hends : Ends (name :: rest) leaf _ _ (publishLeaf root work (name :: rest) false {} _) :=
        publishLeaf_moved hne rfl false
      rw [hwork, hwrap]
      exact hends.unharmed ⟨rfl, fun removal hmem => absurd hmem List.not_mem_nil⟩
    rcases @flatten_chain root faults reserved tree name rest hnames with
      ⟨error, hflat⟩ | ⟨work, hflat⟩
    · rw [hflat] at hunharmed ⊢
      refine ⟨fun h => absurd h (List.cons_ne_nil _ _), fun _ => .inl ?_, hunharmed,
        fun _ disk hdisk => absurd hdisk List.not_mem_nil⟩
      rw [hwrap]
      rfl
    · rw [hflat] at hunharmed ⊢
      dsimp only at hunharmed ⊢
      rw [List.getLast?_cons, Option.getD_some]
      rw [hwrap] at hunharmed ⊢
      cases harrival : faults.arrival with
      | none =>
        have hends : Ends (name :: rest) leaf _ ⟨none, some (wrap (name :: rest) leaf)⟩
          (publishLeaf root work (name :: rest) false faults _) :=
          publishLeaf_moved hne harrival false
        refine ⟨hends.cleaned, fun _ => hends.kept (.inr (.inl rfl)) rfl, hunharmed,
          fun _ disk hdisk => ?_⟩
        have hdisk : Resumable (name :: rest) leaf disk := by
          rcases List.mem_cons.1 hdisk with rfl | hdisk
          · exact .inl rfl
          · exact hends.disks disk hdisk
        exact ⟨hdisk, hresumed disk hdisk⟩
      | some node =>
        obtain ⟨herrors, htrace⟩ :=
          @publishLeaf_occupied root work (name :: rest) leaf faults node harrival
        refine ⟨fun h => absurd h herrors, fun _ => ?_, hunharmed, fun h => by cases h⟩
        rw [htrace]
        exact .inr (.inl rfl)

/-- A call that is told the leaf while the tree is still at the root takes it for published. -/
theorem flatten_intent : ¬ ∀ (root : RootPath) (work : Text) (tree leaf : Node),
    tree = wrap tree.discoverFlattenLeaf leaf → tree.discoverFlattenLeaf ≠ [] →
      ((flatten root (some work) (some (.below tree.discoverFlattenLeaf)) {} ⟨some tree, none⟩).2.getLast?
        ).getD ⟨some tree, none⟩ = ⟨some leaf, none⟩ := by
  intro h
  have hroot := h ⟨['o'], none, none⟩ ['w'] (.directory [(['a'], .directory [])]) (.directory []) rfl
    (List.cons_ne_nil _ _)
  have hsame : (⟨some (.directory [(['a'], .directory [])]), none⟩ : Disk) =
    ⟨some (.directory []), none⟩ := hroot
  cases hsame

end Sunpack.Postprocess
