import Mathlib.Data.List.Basic
import Mathlib.Tactic.Common

/-!
# Numbers in file names

`filename.rs`: the numbers that a parsed name offers, the fields that vary within a family of names, and
the channels that read one number from each name.
-/

namespace Sunpack.Relations.Assignment

structure NumberOccurrence where
  value : Nat
  width : Nat
  left : String
  right : String
  ordinal : Nat
  deriving DecidableEq

/-- A name that was read as a volume name; `logical` is the folded logical name. -/
structure ParsedVolume where
  family : String
  style : String
  number : Nat
  logical : String
  deriving DecidableEq

structure NameFeatures where
  numbers : List NumberOccurrence
  canonical : List ParsedVolume
  deriving DecidableEq

/-! ## Profiles -/

/-- First value of a field, whether it came again, and whether it came with another value. -/
abbrev FieldUse := Nat × Bool × Bool

structure NameProfile where
  fields : Nat × String × String → Option FieldUse

def NameProfile.seen (value : Nat) : Option FieldUse → FieldUse
  | some field => (field.1, true, field.2.2 || field.1 ≠ value)
  | none => (value, false, false)

def NameProfile.note (profile : NameProfile) (n : NumberOccurrence) : NameProfile where
  fields key :=
    if key = (n.ordinal, n.left, n.right) then some (seen n.value (profile.fields key))
    else profile.fields key

def NameProfile.new (names : List NameFeatures) : NameProfile :=
  (names.flatMap NameFeatures.numbers).foldl NameProfile.note ⟨fun _ => none⟩

namespace NameProfile

def activeField (profile : NameProfile) (ordinal : Nat) (left right : String) : Bool :=
  (profile.fields (ordinal, left, right)).all fun field => !field.2.1 || field.2.2

def active (profile : NameProfile) (n : NumberOccurrence) : Bool :=
  profile.activeField n.ordinal n.left n.right

end NameProfile

/-! ## Channels -/

inductive NumberChannel
  | rarPart
  | canonical (format style : String) (family : Option String)
  | token (ordinal : Nat) (left right : String)
  deriving DecidableEq

/-- The first number, if all others agree with it. -/
def agreed : List Nat → Option Nat
  | [] => none
  | value :: rest => if rest.all (· = value) then some value else none

/-- A canonical part of a channel; an SFX head counts as a part of its RAR set. -/
def partOf (format style : String) (family : Option String) (p : ParsedVolume) : Bool :=
  p.family = format &&
    (p.style = style || (format = "rar" && style = "rar_part" && p.style = "rar_sfx_part")) &&
    family.all (p.logical = ·)

namespace NumberChannel

def number (features : NameFeatures) : NumberChannel → Option Nat
  | rarPart =>
    agreed ((features.numbers.filter fun n => n.left = "part" && 0 < n.value).map (·.value))
  | canonical format style family =>
    agreed ((features.canonical.filter (partOf format style family)).map (·.number))
  | token ordinal left right =>
    (features.numbers.find? fun n => n.ordinal = ordinal && n.left = left && n.right = right).map
      (·.value)

def tokens (features : NameFeatures) : List NumberChannel :=
  features.numbers.map fun n => token n.ordinal n.left n.right

end NumberChannel

/-- A field that is the same in all names is not a number of a volume. -/
def NameProfile.keeps (profile : NameProfile) (name : NameFeatures) (value : Nat) :
    NumberChannel → Bool
  | .token ordinal left right => profile.activeField ordinal left right
  | _ => name.numbers.any fun n => n.value = value && profile.active n

def NameProfile.number (profile : NameProfile) (channel : NumberChannel) (name : NameFeatures) :
    Option Nat :=
  (channel.number name).filter fun value => profile.keeps name value channel

end Sunpack.Relations.Assignment
