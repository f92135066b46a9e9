import Sunpack.PathKeys
import Sunpack.Lib.Separated
import Sunpack.Lib.Trie

/-!
# Path maps and flat maps

`path_map.py` on the texts of absolute keys: a dictionary for the values and a trie of the components
for the subtrees. Next to it the flat map, which has only the dictionary and compares keys with
`path_key_is_under`.

Methods return what they return or raise, and the map they leave behind. The separator is the one of
Windows.
-/

namespace Sunpack.PathMaps

open Lib

/-! ## Keys -/

/-- A normalised absolute path. -/
@[ext]
structure AbsoluteKey where
  text : Text
  slash_notMem : '/' ∉ text

instance : DecidableEq AbsoluteKey := fun a b =>
  decidable_of_iff (a.text = b.text) AbsoluteKey.ext_iff.symm

/-- `absolute_path_key`; `abspath` is the system's. -/
def absolutePathKey (T : DowncaseTable) (abspath : Text → Text) (path : Text) : AbsoluteKey :=
  ⟨T.pathKey (abspath path), T.slash_notMem_pathKey (abspath path)⟩

namespace AbsoluteKey

/-- `key.rstrip(os.sep).split(os.sep)`. -/
def components (key : AbsoluteKey) : List Text := (trimEnd '\\' key.text).splitOn '\\'

/-- `root.rstrip("\\/")`. -/
def withoutSeparators (root : AbsoluteKey) : Text :=
  root.text.rdropWhile fun c => c = '\\' ∨ c = '/'

/-- `path_key_is_under`. -/
def isUnder (candidate root : AbsoluteKey) : Bool :=
  candidate = root || (root.withoutSeparators ++ ['\\']).isPrefixOf candidate.text

end AbsoluteKey

/-! ## The trie map -/

structure PathMap (V : Type) where
  values : Dict AbsoluteKey (Nat × V) := ∅
  root : Trie Text AbsoluteKey := .empty
  sequence : Nat := 0

namespace PathMap

variable {V : Type}

def get (m : PathMap V) (key : AbsoluteKey) : Option V := (m.values.get? key).map (·.2)

def set (m : PathMap V) (key : AbsoluteKey) (value : V) : PathMap V :=
  match m.values.get? key with
  | some previous => { m with values := m.values.set key (previous.1, value) }
  | none =>
    { values := m.values.set key (m.sequence + 1, value)
      root := m.root.insert key key.components
      sequence := m.sequence + 1 }

/-- `clear` where no value is left. -/
def clearIfEmpty (m : PathMap V) : PathMap V := if m.values.keys.isEmpty then {} else m

/-- `__delitem__`: the value goes first, then the walk to its node, which must hold a key. -/
def delete (m : PathMap V) (key : AbsoluteKey) : Except String Unit × PathMap V :=
  match m.values.get? key with
  | none => (.error "KeyError", m)
  | some _ =>
    let m := { m with values := m.values.erase key }
    match m.root.get key.components with
    | none => (.error "KeyError", m)
    | some _ => (.ok (), clearIfEmpty { m with root := m.root.erase key.components })

/-- The stored ancestors of a key, the key included, the root first. -/
def ancestors (m : PathMap V) (key : AbsoluteKey) : List (AbsoluteKey × V) :=
  (m.root.along key.components).filterMap fun stored =>
    (m.get stored).map fun value => (stored, value)

def hasUnder (m : PathMap V) (root : AbsoluteKey) : Bool := m.root.hasUnder root.components

theorem sizeOf_children {κ α : Type} [SizeOf κ] [SizeOf α] (cs : List (κ × Trie κ α)) :
    (cs.map fun c => sizeOf c.2).sum ≤ sizeOf cs := by
  induction cs with
  | nil => exact Nat.zero_le _
  | cons c cs ih =>
    obtain ⟨k, t⟩ := c
    simp only [List.map_cons, List.sum_cons, List.cons.sizeOf_spec, Prod.mk.sizeOf_spec]
    omega

/-- The keys at and below the pending nodes; the node to take next comes first. -/
def collect : List (Trie Text AbsoluteKey) → List AbsoluteKey → List AbsoluteKey
  | [], keys => keys
  | t :: pending, keys =>
    collect ((t.children.map (·.2)).reverse ++ pending) (keys ++ t.value.toList)
termination_by pending => (pending.map sizeOf).sum
decreasing_by
  obtain ⟨v, cs⟩ := t
  have hsize := sizeOf_children cs
  simp only [Trie.children, List.map_append, List.map_reverse, List.map_map, List.sum_append,
    List.sum_reverse, List.map_cons, List.sum_cons, Trie.node.sizeOf_spec, Function.comp_def]
  omega

/-- `(key, values.pop(key)[1])` for one key after the other. -/
def popAll (values : Dict AbsoluteKey (Nat × V)) :
    List AbsoluteKey → Option (List (AbsoluteKey × V)) × Dict AbsoluteKey (Nat × V)
  | [] => (some [], values)
  | key :: keys =>
    match values.get? key with
    | none => (none, values)
    | some entry =>
      let rest := popAll (values.erase key) keys
      (rest.1.map ((key, entry.2) :: ·), rest.2)

/-- The keys in the order of their sequence numbers. -/
def sortKeys (values : Dict AbsoluteKey (Nat × V)) (keys : List AbsoluteKey) :
    Option (List AbsoluteKey) :=
  (keys.mapM fun key => (values.get? key).map fun entry => (entry.1, key)).map fun sequenced =>
    (sequenced.mergeSort fun a b => a.1 ≤ b.1).map (·.2)

def popUnder (m : PathMap V) (root : AbsoluteKey) :
    Except String (List (AbsoluteKey × V)) × PathMap V :=
  match Trie.sub root.components m.root with
  | none => (.ok [], m)
  | some node =>
    match sortKeys m.values (collect [node] []) with
    | none => (.error "KeyError", m)
    | some keys =>
      let popped := popAll m.values keys
      let m := { m with values := popped.2 }
      match popped.1 with
      | none => (.error "KeyError", m)
      | some result => (.ok result, clearIfEmpty { m with root := m.root.cut root.components })

/-- `relocate`: the new keys are the ones of `result.relocate`. -/
def relocate (m : PathMap V) (path : AbsoluteKey) (relocated : AbsoluteKey → AbsoluteKey) :
    Except String Unit × PathMap V :=
  let popped := m.popUnder path
  match popped.1 with
  | .error e => (.error e, popped.2)
  | .ok moved =>
    (.ok (), moved.foldl (fun m entry => m.set (relocated entry.1) entry.2) popped.2)

end PathMap

/-! ## The flat map -/

/-- A map that remembers only the order of its keys. -/
abbrev Flat (V : Type) := Dict AbsoluteKey V

namespace Flat

variable {V : Type}

def delete (d : Flat V) (key : AbsoluteKey) : Except String Unit × Flat V :=
  match d.get? key with
  | none => (.error "KeyError", d)
  | some _ => (.ok (), d.erase key)

/-- The entries a key is under, those with the fewest components first. -/
def ancestors (d : Flat V) (key : AbsoluteKey) : List (AbsoluteKey × V) :=
  (d.entries.filter fun entry => key.isUnder entry.1).mergeSort fun a b =>
    a.1.components.length ≤ b.1.components.length

def hasUnder (d : Flat V) (root : AbsoluteKey) : Bool :=
  d.entries.any fun entry => entry.1.isUnder root

def popUnder (d : Flat V) (root : AbsoluteKey) : List (AbsoluteKey × V) × Flat V :=
  (d.entries.filter fun entry => entry.1.isUnder root, d.filter fun key => !key.isUnder root)

def relocate (d : Flat V) (path : AbsoluteKey) (relocated : AbsoluteKey → AbsoluteKey) : Flat V :=
  (d.popUnder path).1.foldl (fun d entry => d.set (relocated entry.1) entry.2) (d.popUnder path).2

end Flat

/-! ## Operations -/

inductive Op (V : Type)
  | get (key : AbsoluteKey)
  | keys
  | set (key : AbsoluteKey) (value : V)
  | delete (key : AbsoluteKey)
  | clear
  | ancestors (key : AbsoluteKey)
  | hasUnder (root : AbsoluteKey)
  | popUnder (root : AbsoluteKey)
  | relocate (path : AbsoluteKey) (relocated : AbsoluteKey → AbsoluteKey)

inductive Answer (V : Type)
  | done
  | keyError
  | value (value : V)
  | flag (found : Bool)
  | keys (keys : List AbsoluteKey)
  | entries (entries : List (AbsoluteKey × V))
deriving DecidableEq

namespace Answer

variable {V : Type}

def ofValue : Option V → Answer V
  | none => .keyError
  | some v => .value v

def ofUnit : Except String Unit → Answer V
  | .error _ => .keyError
  | .ok _ => .done

def ofEntries : Except String (List (AbsoluteKey × V)) → Answer V
  | .error _ => .keyError
  | .ok es => .entries es

end Answer

variable {V : Type}

def PathMap.apply (m : PathMap V) : Op V → Answer V × PathMap V
  | .get key => (.ofValue (m.get key), m)
  | .keys => (.keys m.values.keys, m)
  | .set key value => (.done, m.set key value)
  | .delete key => ((m.delete key).map .ofUnit id)
  | .clear => (.done, {})
  | .ancestors key => (.entries (m.ancestors key), m)
  | .hasUnder root => (.flag (m.hasUnder root), m)
  | .popUnder root => ((m.popUnder root).map .ofEntries id)
  | .relocate path relocated => ((m.relocate path relocated).map .ofUnit id)

def Flat.apply (d : Flat V) : Op V → Answer V × Flat V
  | .get key => (.ofValue (d.get? key), d)
  | .keys => (.keys d.keys, d)
  | .set key value => (.done, d.set key value)
  | .delete key => ((d.delete key).map .ofUnit id)
  | .clear => (.done, ∅)
  | .ancestors key => (.entries (d.ancestors key), d)
  | .hasUnder root => (.flag (d.hasUnder root), d)
  | .popUnder root => (.entries (d.popUnder root).1, (d.popUnder root).2)
  | .relocate path relocated => (.done, d.relocate path relocated)

/-- The answers to a list of operations, and the map they leave. -/
def run {S : Type} (apply : S → Op V → Answer V × S) (s : S) : List (Op V) → List (Answer V) × S
  | [] => ([], s)
  | op :: ops => ((apply s op).1 :: (run apply (apply s op).2 ops).1, (run apply (apply s op).2 ops).2)

end Sunpack.PathMaps
