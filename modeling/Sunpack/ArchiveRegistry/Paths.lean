import Sunpack.PathKeys
import Sunpack.Lib.Separated

/-!
# The parents of a key

`os.path.splitroot` and `os.path.dirname`, as they are on Windows, on the keys of absolute paths, and
the walk of `_contains_paths` from parent to parent. `path_key_is_under` does not walk: it compares
texts.
-/

namespace Sunpack.ArchiveRegistry

open Lib

def isSeparator (c : Char) : Bool := c = '\\' || c = '/'

/-- `normp.find(sep, start)`. -/
def findSeparator (normp : Text) (start : Nat) : Option Nat :=
  ((normp.drop start).idxOf? '\\').map (· + start)

/-- The drive, the root and what is left. -/
def splitroot (p : Text) : Text × Text × Text :=
  let normp := p.map fun c => if c = '/' then '\\' else c
  if normp[0]? = some '\\' then
    if normp[1]? = some '\\' then
      let start := if (normp.take 8).map Char.toUpper = "\\\\?\\UNC\\".toList then 8 else 2
      match findSeparator normp start with
      | none => (p, [], [])
      | some index =>
        match findSeparator normp (index + 1) with
        | none => (p, [], [])
        | some index2 => (p.take index2, (p.drop index2).take 1, (p.drop index2).drop 1)
    else ([], p.take 1, p.drop 1)
  else if normp[1]? = some ':' then
    if normp[2]? = some '\\' then (p.take 2, (p.drop 2).take 1, (p.drop 2).drop 1)
    else (p.take 2, [], p.drop 2)
  else ([], [], p)

def dirname (p : Text) : Text :=
  let parts := splitroot p
  parts.1 ++ parts.2.1 ++ (parts.2.2.rdropWhile fun c => !isSeparator c).rdropWhile isSeparator

theorem splitroot_append (p : Text) :
    (splitroot p).1 ++ (splitroot p).2.1 ++ (splitroot p).2.2 = p := by
  have htake : ∀ n, p.take n ++ (p.drop n).take 1 ++ (p.drop n).drop 1 = p := by
    intro n
    rw [List.append_assoc, List.take_append_drop, List.take_append_drop]
  unfold splitroot
  dsimp only
  split
  · split
    · split
      · simp
      · split
        · simp
        · exact htake _
    · exact htake 0
  · split
    · split
      · exact htake 2
      · simp
    · simp

theorem dirname_prefix (p : Text) : dirname p <+: p := by
  have hrest : (((splitroot p).2.2.rdropWhile fun c => !isSeparator c).rdropWhile isSeparator) <+:
      (splitroot p).2.2 :=
    (List.rdropWhile_prefix _ _).trans (List.rdropWhile_prefix _ _)
  have hwhole := (List.prefix_append_right_inj ((splitroot p).1 ++ (splitroot p).2.1)).2 hrest
  rwa [splitroot_append] at hwhole

theorem length_dirname {p : Text} (h : dirname p ≠ p) : (dirname p).length < p.length := by
  have hprefix := dirname_prefix p
  refine lt_of_le_of_ne hprefix.length_le fun hlength => h ?_
  exact hprefix.eq_of_length hlength

/-! ## The walk -/

/-- The walk from one path on: `none` where it meets a directory, else what is visited then. -/
def walk (directories visited : List Text) (path : Text) : Option (List Text) :=
  if path ∈ visited then some visited
  else if path ∈ directories then none
  else if dirname path = path then some (path :: visited)
  else walk directories (path :: visited) (dirname path)
termination_by path.length
decreasing_by exact length_dirname (by assumption)

def containsFrom (directories : List Text) : List Text → List Text → Bool
  | _, [] => false
  | visited, path :: paths =>
    match walk directories visited path with
    | none => true
    | some visited => containsFrom directories visited paths

/-- `_contains_paths`. -/
def containsPaths (directories paths : List Text) : Bool :=
  if directories.isEmpty then false else containsFrom directories [] paths

/-- The path, its parent, the parent of that. -/
def InChain (path ancestor : Text) : Prop := ∃ n, dirname^[n] path = ancestor

theorem InChain.refl (path : Text) : InChain path path := ⟨0, rfl⟩

theorem inChain_dirname {path ancestor : Text} :
    InChain path ancestor ↔ path = ancestor ∨ InChain (dirname path) ancestor := by
  constructor
  · rintro ⟨n, hn⟩
    cases n with
    | zero => exact .inl hn
    | succ n => exact .inr ⟨n, hn⟩
  · rintro (rfl | ⟨n, hn⟩)
    · exact InChain.refl path
    · exact ⟨n + 1, hn⟩

/-- No directory is visited, and the parents of what is visited are, but for one to come. -/
def Clean (directories visited : List Text) (next : Text) : Prop :=
  ∀ v ∈ visited, v ∉ directories ∧ (dirname v ∈ visited ∨ dirname v = next)

def Closed (directories visited : List Text) : Prop :=
  ∀ v ∈ visited, v ∉ directories ∧ dirname v ∈ visited

theorem Closed.notMem_chain {directories visited : List Text} (h : Closed directories visited)
    {path ancestor : Text} (hpath : path ∈ visited) (hchain : InChain path ancestor) :
    ancestor ∉ directories := by
  obtain ⟨n, rfl⟩ := hchain
  suffices hvisited : dirname^[n] path ∈ visited from (h _ hvisited).1
  induction n with
  | zero => exact hpath
  | succ n ih =>
    rw [Function.iterate_succ_apply']
    exact (h _ ih).2

theorem walk_opens (directories visited : List Text) (path : Text)
    (h : Clean directories visited path) :
    match walk directories visited path with
    | none => ∃ ancestor ∈ directories, InChain path ancestor
    | some visited' => visited ⊆ visited' ∧ path ∈ visited' ∧ Closed directories visited' := by
  fun_induction walk directories visited path with
  | case1 visited path hmem =>
    refine ⟨List.Subset.refl _, hmem, fun v hv => ⟨(h v hv).1, ?_⟩⟩
    rcases (h v hv).2 with hparent | heq
    · exact hparent
    · rwa [heq]
  | case2 visited path hmem hdirectory => exact ⟨path, hdirectory, InChain.refl path⟩
  | case3 visited path hmem hdirectory hroot =>
    refine ⟨List.subset_cons_self _ _, List.mem_cons_self, fun v hv => ?_⟩
    rcases List.mem_cons.1 hv with rfl | hv
    · rw [hroot]
      exact ⟨hdirectory, List.mem_cons_self⟩
    · refine ⟨(h v hv).1, ?_⟩
      rcases (h v hv).2 with hparent | heq
      · exact List.mem_cons_of_mem _ hparent
      · rw [heq]
        exact List.mem_cons_self
  | case4 visited path hmem hdirectory hroot ih =>
    have hclean : Clean directories (path :: visited) (dirname path) := by
      intro v hv
      rcases List.mem_cons.1 hv with rfl | hv
      · exact ⟨hdirectory, .inr rfl⟩
      · refine ⟨(h v hv).1, .inl ?_⟩
        rcases (h v hv).2 with hparent | heq
        · exact List.mem_cons_of_mem _ hparent
        · rw [heq]
          exact List.mem_cons_self
    have hrest := ih hclean
    cases hwalk : walk directories (path :: visited) (dirname path) with
    | none =>
      rw [hwalk] at hrest
      obtain ⟨ancestor, hancestor, hchain⟩ := hrest
      exact ⟨ancestor, hancestor, inChain_dirname.2 (.inr hchain)⟩
    | some visited' =>
      rw [hwalk] at hrest
      obtain ⟨hsub, hmem', hclosed⟩ := hrest
      exact ⟨fun v hv => hsub (List.mem_cons_of_mem _ hv), hsub List.mem_cons_self, hclosed⟩

theorem containsFrom_iff {directories visited : List Text} (h : Closed directories visited)
    (paths : List Text) : containsFrom directories visited paths = true ↔
      ∃ path ∈ paths, ∃ ancestor ∈ directories, InChain path ancestor := by
  induction paths generalizing visited with
  | nil => simp [containsFrom]
  | cons path paths ih =>
    have hwalk := walk_opens directories visited path fun v hv => ⟨(h v hv).1, .inl (h v hv).2⟩
    unfold containsFrom
    cases hresult : walk directories visited path with
    | none =>
      rw [hresult] at hwalk
      exact iff_of_true rfl ⟨path, List.mem_cons_self, hwalk⟩
    | some visited' =>
      rw [hresult] at hwalk
      obtain ⟨-, hmem, hclosed⟩ := hwalk
      refine (ih hclosed).trans ⟨?_, ?_⟩
      · rintro ⟨other, hother, hfound⟩
        exact ⟨other, List.mem_cons_of_mem _ hother, hfound⟩
      · rintro ⟨other, hother, ancestor, hancestor, hchain⟩
        rcases List.mem_cons.1 hother with rfl | hother
        · exact absurd hancestor (hclosed.notMem_chain hmem hchain)
        · exact ⟨other, hother, ancestor, hancestor, hchain⟩

/-- What the walks share does not matter. -/
theorem containsPaths_iff (directories paths : List Text) :
    containsPaths directories paths = true ↔
      ∃ path ∈ paths, ∃ ancestor ∈ directories, InChain path ancestor := by
  unfold containsPaths
  cases directories with
  | nil => simp
  | cons directory directories =>
    have hclosed : Closed (directory :: directories) [] := by
      intro v hv
      cases hv
    rw [if_neg (by simp)]
    exact containsFrom_iff hclosed paths

/-! ## Normal paths -/

/-- The key of an absolute path: a drive and a root with the names below it, or a drive alone. A share
(`\\server\share`) is a drive. -/
structure NormalPath where
  drive : Text
  rooted : Bool
  names : List Text
  splitRooted : rooted = true → drive.getLast? ≠ some '\\' ∧ drive.getLast? ≠ some '/' ∧
    ∀ rest, splitroot (drive ++ '\\' :: rest) = (drive, ['\\'], rest)
  splitBare : rooted = false → names = [] ∧ splitroot drive = (drive, [], [])
  name : ∀ name ∈ names, name ≠ [] ∧ ∀ c ∈ name, isSeparator c = false

namespace NormalPath

def text (p : NormalPath) : Text :=
  p.drive ++ if p.rooted then '\\' :: ['\\'].intercalate p.names else []

/-- `path_key_is_under`. -/
def isUnder (candidate root : Text) : Bool :=
  candidate = root || (root.rdropWhile isSeparator ++ ['\\']).isPrefixOf candidate

theorem splitroot_text (p : NormalPath) : splitroot p.text =
    (p.drive, if p.rooted then ['\\'] else [], if p.rooted then ['\\'].intercalate p.names else []) := by
  unfold text
  cases hrooted : p.rooted with
  | true => exact (p.splitRooted hrooted).2.2 _
  | false =>
    rw [if_neg Bool.false_ne_true, if_neg Bool.false_ne_true, if_neg Bool.false_ne_true,
      List.append_nil]
    exact (p.splitBare hrooted).2

/-- The names, joined. -/
def joined (p : NormalPath) : Text := ['\\'].intercalate p.names

theorem joined_last {p : NormalPath} (h : p.names ≠ []) :
    ∃ front c, p.joined = front ++ [c] ∧ isSeparator c = false := by
  obtain ⟨names, name, hnames⟩ : ∃ names name, p.names = names ++ [name] :=
    ⟨_, _, (List.dropLast_append_getLast h).symm⟩
  obtain ⟨hne, hchars⟩ := p.name name (by rw [hnames]; exact List.mem_append_right _ (by simp))
  obtain ⟨front, c, rfl⟩ : ∃ front c, name = front ++ [c] :=
    ⟨_, _, (List.dropLast_append_getLast hne).symm⟩
  have hc := hchars c (List.mem_append_right _ (by simp))
  unfold joined
  rw [hnames]
  cases names with
  | nil => exact ⟨front, c, by simp, hc⟩
  | cons first names =>
    rw [intercalate_append (List.cons_ne_nil _ _) (List.cons_ne_nil _ _)]
    refine ⟨['\\'].intercalate (first :: names) ++ '\\' :: front, c, ?_, hc⟩
    simp

theorem joined_eq_nil {p : NormalPath} : p.joined = [] ↔ p.names = [] := by
  constructor
  · intro h
    by_contra hne
    obtain ⟨front, c, hjoined, -⟩ := joined_last hne
    rw [h] at hjoined
    simp at hjoined
  · intro h
    rw [joined, h]
    rfl

theorem splitOn_joined {p : NormalPath} (h : p.names ≠ []) : p.joined.splitOn '\\' = p.names := by
  apply List.splitOn_intercalate
  · intro name hname hmem
    exact absurd ((p.name name hname).2 _ hmem) (by decide)
  · exact h

theorem names_eq_of_joined {p q : NormalPath} (h : p.joined = q.joined) : p.names = q.names := by
  by_cases hp : p.names = []
  · rw [hp, joined_eq_nil.1 (h.symm.trans (joined_eq_nil.2 hp))]
  · have hq : q.names ≠ [] := fun hq => hp (joined_eq_nil.1 (h.trans (joined_eq_nil.2 hq)))
    rw [← splitOn_joined hp, h, splitOn_joined hq]

theorem text_injective {p q : NormalPath} (h : p.text = q.text) :
    p.drive = q.drive ∧ p.rooted = q.rooted ∧ p.names = q.names := by
  have hsplit := p.splitroot_text.symm.trans ((congrArg splitroot h).trans q.splitroot_text)
  rw [Prod.mk.injEq, Prod.mk.injEq] at hsplit
  obtain ⟨hdrive, hroot, hrest⟩ := hsplit
  have hrooted : p.rooted = q.rooted := by
    cases hp : p.rooted <;> cases hq : q.rooted <;> rw [hp, hq] at hroot <;> simp at hroot ⊢
  refine ⟨hdrive, hrooted, ?_⟩
  cases hq : q.rooted with
  | false => rw [(p.splitBare (hrooted.trans hq)).1, (q.splitBare hq).1]
  | true =>
    rw [hrooted.trans hq, hq, if_pos rfl, if_pos rfl] at hrest
    exact names_eq_of_joined hrest

/-! ## Parents -/

/-- The path of the first names. -/
def upTo (p : NormalPath) (count : Nat) : NormalPath where
  drive := p.drive
  rooted := p.rooted
  names := p.names.take count
  splitRooted := p.splitRooted
  splitBare h := by rw [(p.splitBare h).1, List.take_nil]; exact ⟨rfl, (p.splitBare h).2⟩
  name name h := p.name name (List.mem_of_mem_take h)

theorem text_upTo_length (p : NormalPath) : (p.upTo p.names.length).text = p.text := by
  show p.drive ++ (if p.rooted then '\\' :: ['\\'].intercalate (p.names.take p.names.length) else []) =
    p.text
  rw [List.take_length]
  rfl

theorem rdropWhile_append_all {test : Char → Bool} {l : Text} (h : ∀ c ∈ l, test c = true)
    (front : Text) : (front ++ l).rdropWhile test = front.rdropWhile test := by
  induction l using List.reverseRecOn with
  | nil => rw [List.append_nil]
  | append_singleton l c ih =>
    rw [← List.append_assoc, List.rdropWhile_concat_pos _ _ _ (h c (by simp))]
    exact ih fun c hc => h c (List.mem_append_left _ hc)

theorem joined_upTo {p : NormalPath} {count : Nat} (h : count < p.names.length) :
    (p.upTo (count + 1)).joined =
      (if count = 0 then [] else (p.upTo count).joined ++ ['\\']) ++ p.names[count] := by
  unfold joined upTo
  dsimp only
  rw [List.take_succ_eq_append_getElem h]
  split_ifs with hzero
  · subst hzero
    simp
  · have hne : p.names.take count ≠ [] := by
      rw [ne_eq, List.take_eq_nil_iff, not_or]
      exact ⟨hzero, List.ne_nil_of_length_pos (by omega)⟩
    rw [intercalate_append hne (List.cons_ne_nil _ _)]
    simp

theorem dirname_root {p : NormalPath} (h : p.names = []) : dirname p.text = p.text := by
  unfold dirname
  rw [splitroot_text, text, h]
  cases p.rooted <;> simp

/-- The parent has one name less, but for a root or a drive. -/
theorem dirname_upTo {p : NormalPath} {count : Nat} (h : count ≤ p.names.length) :
    dirname (p.upTo count).text = (p.upTo (count - 1)).text := by
  cases count with
  | zero => exact dirname_root (show p.names.take 0 = [] from List.take_zero)
  | succ count =>
    have hrooted : p.rooted = true := by
      by_contra hbare
      rw [(p.splitBare (Bool.eq_false_iff.2 hbare)).1] at h
      exact absurd h (by simp)
    have hchars : ∀ c ∈ p.names[count], (!isSeparator c) = true := by
      intro c hc
      rw [(p.name _ (List.getElem_mem h)).2 c hc]
      rfl
    have hjoined := joined_upTo h
    unfold dirname
    rw [splitroot_text]
    show p.drive ++ (if p.rooted then ['\\'] else []) ++ (((if p.rooted then
      (p.upTo (count + 1)).joined else []).rdropWhile _).rdropWhile _) = p.drive ++ if p.rooted then
        '\\' :: (p.upTo count).joined else []
    rw [hrooted, if_pos rfl, if_pos rfl, if_pos rfl, hjoined, rdropWhile_append_all hchars,
      List.append_assoc]
    congr 1
    split_ifs with hzero
    · subst hzero
      rfl
    · have hne : (p.upTo count).names ≠ [] := by
        show p.names.take count ≠ []
        rw [ne_eq, List.take_eq_nil_iff, not_or]
        exact ⟨hzero, List.ne_nil_of_length_pos (by omega)⟩
      obtain ⟨front, c, hlast, hc⟩ := joined_last hne
      rw [List.rdropWhile_concat_neg _ _ _ (by decide), List.rdropWhile_concat_pos _ _ _ (by decide),
        hlast, List.rdropWhile_concat_neg _ _ _ (by rw [hc]; exact Bool.false_ne_true)]
      rfl

theorem iterate_dirname (p : NormalPath) (n : Nat) :
    dirname^[n] p.text = (p.upTo (p.names.length - n)).text := by
  induction n with
  | zero => exact (text_upTo_length p).symm
  | succ n ih =>
    rw [Function.iterate_succ_apply', ih, dirname_upTo (Nat.sub_le _ _), Nat.sub_sub]

/-- The chain of a path has the paths with its drive whose names it continues. -/
theorem inChain_iff {p d : NormalPath} : InChain p.text d.text ↔
    p.drive = d.drive ∧ p.rooted = d.rooted ∧ d.names <+: p.names := by
  constructor
  · rintro ⟨n, hn⟩
    rw [iterate_dirname] at hn
    obtain ⟨hdrive, hrooted, hnames⟩ := text_injective hn
    exact ⟨hdrive, hrooted, hnames ▸ List.take_prefix _ _⟩
  · rintro ⟨hdrive, hrooted, hnames⟩
    refine ⟨p.names.length - d.names.length, ?_⟩
    have hlength := hnames.length_le
    rw [iterate_dirname, Nat.sub_sub_self hlength]
    show p.drive ++ (if p.rooted then '\\' :: ['\\'].intercalate (p.names.take d.names.length) else [])
      = d.drive ++ if d.rooted then '\\' :: ['\\'].intercalate d.names else []
    rw [hdrive, hrooted, ← List.prefix_iff_eq_take.1 hnames]

/-! ## Texts compared -/

theorem isUnder_iff {candidate root : Text} : isUnder candidate root = true ↔
    candidate = root ∨ Under '\\' candidate (root.rdropWhile isSeparator) := by
  unfold isUnder
  rw [Bool.or_eq_true, decide_eq_true_eq, List.isPrefixOf_iff_prefix, under_iff_prefix]

theorem text_rooted {p : NormalPath} (h : p.rooted = true) :
    p.text = p.drive ++ '\\' :: p.joined := by
  rw [text, h, if_pos rfl, joined]

/-- A text that begins with the drive and a root. -/
theorem text_eq_append {p d : NormalPath} (hd : d.rooted = true) {rest : Text} :
    p.text = d.drive ++ '\\' :: rest ↔ p.drive = d.drive ∧ p.rooted = true ∧ p.joined = rest := by
  constructor
  · intro h
    have hsplit := p.splitroot_text.symm.trans
      ((congrArg splitroot h).trans ((d.splitRooted hd).2.2 rest))
    rw [Prod.mk.injEq, Prod.mk.injEq] at hsplit
    obtain ⟨hdrive, hroot, hrest⟩ := hsplit
    cases hp : p.rooted with
    | false =>
      rw [hp] at hroot
      cases hroot
    | true =>
      rw [hp] at hrest
      exact ⟨hdrive, rfl, hrest⟩
  · rintro ⟨hdrive, hrooted, rfl⟩
    rw [text_rooted hrooted, hdrive]

/-- The text of a rooted path without its separators at the end. -/
theorem rdropWhile_text {d : NormalPath} (hd : d.rooted = true) :
    d.text.rdropWhile isSeparator = if d.names = [] then d.drive else d.text := by
  rw [text_rooted hd]
  split_ifs with hnames
  · rw [joined_eq_nil.2 hnames, List.rdropWhile_concat_pos _ _ _ (by decide),
      List.rdropWhile_eq_self_iff]
    intro hne hlast
    obtain ⟨hback, hslash, -⟩ := d.splitRooted hd
    rw [List.getLast?_eq_getLast_of_ne_nil hne] at hback hslash
    unfold isSeparator at hlast
    rw [Bool.or_eq_true, decide_eq_true_eq, decide_eq_true_eq] at hlast
    exact hlast.elim (fun h => hback (congrArg some h)) fun h => hslash (congrArg some h)
  · obtain ⟨front, c, hjoined, hc⟩ := joined_last hnames
    rw [hjoined, ← List.cons_append, ← List.append_assoc,
      List.rdropWhile_concat_neg _ _ _ (by rw [hc]; exact Bool.false_ne_true)]

/-- Under a rooted path are the paths that continue its names. -/
theorem isUnder_rooted {p d : NormalPath} (hd : d.rooted = true) :
    isUnder p.text d.text = true ↔ InChain p.text d.text := by
  rw [isUnder_iff, rdropWhile_text hd, inChain_iff, hd]
  split_ifs with hnames
  · rw [hnames]
    constructor
    · rintro (heq | ⟨rest, hrest⟩)
      · obtain ⟨hdrive, hrooted, -⟩ := text_injective heq
        exact ⟨hdrive, hrooted.trans hd, List.nil_prefix⟩
      · obtain ⟨hdrive, hrooted, -⟩ := (text_eq_append hd).1 hrest
        exact ⟨hdrive, hrooted, List.nil_prefix⟩
    · rintro ⟨hdrive, hrooted, -⟩
      exact .inr ⟨p.joined, (text_eq_append hd).2 ⟨hdrive, hrooted, rfl⟩⟩
  · have hunder : p.text = d.text ∨ Under '\\' p.text d.text ↔
        p.drive = d.drive ∧ p.rooted = true ∧ (d.joined = p.joined ∨ Under '\\' p.joined d.joined) := by
      have hstrict : Under '\\' p.text d.text ↔
          p.drive = d.drive ∧ p.rooted = true ∧ Under '\\' p.joined d.joined := by
        unfold Under
        rw [text_rooted hd]
        constructor
        · rintro ⟨rest, hrest⟩
          rw [List.append_assoc, List.cons_append, text_eq_append hd] at hrest
          exact ⟨hrest.1, hrest.2.1, rest, hrest.2.2⟩
        · rintro ⟨hdrive, hrooted, rest, hrest⟩
          refine ⟨rest, ?_⟩
          rw [List.append_assoc, List.cons_append, text_eq_append hd]
          exact ⟨hdrive, hrooted, hrest⟩
      rw [hstrict, text_rooted hd, text_eq_append hd, eq_comm (a := p.joined)]
      tauto
    rw [hunder]
    refine and_congr_right fun _ => and_congr_right fun _ => ?_
    by_cases hp : p.names = []
    · have hjoined : p.joined = [] := joined_eq_nil.2 hp
      have hne : d.joined ≠ [] := fun h => hnames (joined_eq_nil.1 h)
      rw [hp, hjoined, List.prefix_nil]
      refine iff_of_false ?_ hnames
      rintro (h | ⟨rest, hrest⟩)
      · exact hne h
      · exact absurd hrest (by simp)
    · rw [← splitOn_joined hnames, ← splitOn_joined hp, splitOn_prefix_iff]

/-- Nothing but the drive itself continues a drive without a root. -/
theorem eq_of_inChain_bare {p d : NormalPath} (hd : d.rooted = false)
    (h : InChain p.text d.text) : p.text = d.text := by
  obtain ⟨hdrive, hrooted, -⟩ := inChain_iff.1 h
  rw [text, text, hdrive, hrooted, hd, if_neg Bool.false_ne_true, if_neg Bool.false_ne_true]

theorem isUnder_of_inChain {p d : NormalPath} (h : InChain p.text d.text) :
    isUnder p.text d.text = true := by
  cases hd : d.rooted with
  | true => exact (isUnder_rooted hd).2 h
  | false => exact isUnder_iff.2 (.inl (eq_of_inChain_bare hd h))

end NormalPath

end Sunpack.ArchiveRegistry
