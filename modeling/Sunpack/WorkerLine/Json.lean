import Sunpack.OutputPaths.Names

/-!
# The line of a job

`json.dumps(job, ensure_ascii=False, separators=(",", ":"))` on the values a job is made of, as the
UTF-8 bytes that go to the worker. Quotes, backslashes and the control characters below U+0020 are
escaped, everything else is written as it is.
-/

namespace Sunpack.WorkerLine

open Lib OutputPaths

/-- The characters of `repr(float)`, of `NaN` and of `Infinity` are among these. -/
def isNumeralChar (c : Char) : Bool :=
  c.isAlphanum || c == '.' || c == '-' || c == '+'

/-- A float as it is written. -/
structure FloatToken where
  text : Text
  nonempty : text ≠ []
  numeral : ∀ c ∈ text, isNumeralChar c = true

/-- What `json.dumps` takes; the keys of a dictionary come in its order. -/
inductive Json
  | null
  | bool (value : Bool)
  | int (value : Int)
  | float (token : FloatToken)
  | str (value : Text)
  | arr (items : List Json)
  | obj (members : List (Text × Json))

/-- A property of each value from its parts. -/
theorem Json.ofParts {P : Json → Prop} (null : P .null) (bool : ∀ b, P (.bool b))
    (int : ∀ n, P (.int n)) (float : ∀ token, P (.float token)) (str : ∀ s, P (.str s))
    (arr : ∀ items, (∀ item ∈ items, P item) → P (.arr items))
    (obj : ∀ members, (∀ member ∈ members, P member.2) → P (.obj members)) (value : Json) :
    P value :=
  @Json.rec P (fun items => ∀ item ∈ items, P item) (fun members => ∀ member ∈ members, P member.2)
    (fun member => P member.2) null bool int float str arr obj
    (by simp) (fun _ _ hitem hitems => List.forall_mem_cons.2 ⟨hitem, hitems⟩)
    (by simp) (fun _ _ hmember hmembers => List.forall_mem_cons.2 ⟨hmember, hmembers⟩)
    (fun _ _ hvalue => hvalue) value

/-! ## Strings -/

/-- `ESCAPE_DCT`, less its rows for the other control characters. -/
def shortEscapes : List (Char × Char) :=
  [('\\', '\\'), ('"', '"'), ('\x08', 'b'), ('\x0c', 'f'), ('\n', 'n'), ('\r', 'r'), ('\t', 't')]

/-- `'u{0:04x}'.format(i)` below 256. -/
def unicodeEscape (c : Char) : Text :=
  ['u', '0', '0', Nat.digitChar (c.toNat / 16), Nat.digitChar (c.toNat % 16)]

def escapeChar (c : Char) : Text :=
  match shortEscapes.lookup c with
  | some e => ['\\', e]
  | none => if c.toNat < 0x20 then '\\' :: unicodeEscape c else [c]

/-- The text of a string between its quotes. -/
def escape (s : Text) : Text := encode escapeChar s

/-- `py_encode_basestring`. -/
def quote (s : Text) : Text := '"' :: escape s ++ ['"']

/-! ## Values -/

/-- `int.__repr__`. -/
def intText : Int → Text
  | .ofNat n => Nat.toDigits 10 n
  | .negSucc n => '-' :: Nat.toDigits 10 (n + 1)

/-- Parts with commas between them, in brackets. -/
def enclose (start stop : Char) (parts : List Text) : Text :=
  start :: [','].intercalate parts ++ [stop]

mutual

def dumps : Json → Text
  | .null => "null".toList
  | .bool true => "true".toList
  | .bool false => "false".toList
  | .int n => intText n
  | .float token => token.text
  | .str s => quote s
  | .arr items => enclose '[' ']' (dumpItems items)
  | .obj members => enclose '{' '}' (dumpMembers members)

def dumpItems : List Json → List Text
  | [] => []
  | item :: items => dumps item :: dumpItems items

def dumpMembers : List (Text × Json) → List Text
  | [] => []
  | (key, value) :: members => (quote key ++ ':' :: dumps value) :: dumpMembers members

end

theorem dumpItems_eq (items : List Json) : dumpItems items = items.map dumps := by
  induction items with
  | nil => rw [dumpItems, List.map_nil]
  | cons item items ih => rw [dumpItems, List.map_cons, ih]

theorem dumpMembers_eq (members : List (Text × Json)) :
    dumpMembers members = members.map fun member => quote member.1 ++ ':' :: dumps member.2 := by
  induction members with
  | nil => rw [dumpMembers, List.map_nil]
  | cons member members ih => rw [dumpMembers, List.map_cons, ih]

end Sunpack.WorkerLine
