import Sunpack.OutputPaths.Names
import Sunpack.Lib.Loop

/-!
# The JSON scanner of the worker

`json_string_end`, `json_composite_end`, `json_value_end`, `decode_json_string`, `json_array_values`
and `JsonObjectView` of `worker.cpp`. A line is a list of bytes and a `string_view` a copy of a part
of it. A read outside of its view has no result, and neither has a loop that makes more turns than the
view is long.
-/

namespace Sunpack.WorkerLine

open Lib

abbrev Bytes := List UInt8

/-- A character literal. -/
def byte (c : Char) : UInt8 := c.toNat.toUInt8

/-- `view.substr(pos, count)`, which throws if it starts outside. -/
def substr (view : Bytes) (pos count : Nat) : Option Bytes :=
  if pos ≤ view.length then some ((view.drop pos).take count) else none

def isWs (ch : UInt8) : Bool := ch ≤ 0x20

/-! ## Ends of values -/

def skipWsBody (json : Bytes) (pos : Nat) : Option (Nat ⊕ Nat) :=
  if pos < json.length then do
    let ch ← json[pos]?
    some (if isWs ch then .inl (pos + 1) else .inr pos)
  else some (.inr pos)

/-- `skip_ws`. -/
def skipWs (json : Bytes) (pos : Nat) : Option Nat := loop (skipWsBody json) (json.length + 1) pos

def stringEndBody (json : Bytes) (s : Nat × Bool) : Option ((Nat × Bool) ⊕ Nat) :=
  if s.1 < json.length then do
    let ch ← json[s.1]?
    some <|
      if s.2 then .inl (s.1 + 1, false)
      else if ch = byte '\\' then .inl (s.1 + 1, true)
      else if ch = byte '"' then .inr (s.1 + 1)
      else .inl (s.1 + 1, false)
  else some (.inr json.length)

/-- `json_string_end`. -/
def jsonStringEnd (json : Bytes) (quotePos : Nat) : Option Nat :=
  if json.length ≤ quotePos then some quotePos
  else do
    let ch ← json[quotePos]?
    if ch ≠ byte '"' then some quotePos
    else loop (stringEndBody json) (json.length + 1) (quotePos + 1, false)

/-- The depths after a character outside of strings. -/
def deepen (ch : UInt8) (d : Int × Int) : Int × Int :=
  if ch = byte '{' then (d.1 + 1, d.2)
  else if ch = byte '}' then (d.1 - 1, d.2)
  else if ch = byte '[' then (d.1, d.2 + 1)
  else if ch = byte ']' then (d.1, d.2 - 1)
  else d

/-- The state is the position with the depths of objects and of arrays. -/
def compositeEndBody (json : Bytes) (s : Nat × Int × Int) : Option ((Nat × Int × Int) ⊕ Nat) :=
  if s.1 < json.length then do
    let ch ← json[s.1]?
    if ch = byte '"' then do
      let pos ← jsonStringEnd json s.1
      some (.inl (pos, s.2))
    else
      let d := deepen ch s.2
      some (if d = (0, 0) then .inr (s.1 + 1) else .inl (s.1 + 1, d))
  else some (.inr json.length)

/-- `json_composite_end`. -/
def jsonCompositeEnd (json : Bytes) (start : Nat) : Option Nat :=
  loop (compositeEndBody json) (json.length + 1) (start, 0, 0)

/-- What ends a number or a literal. -/
def endsScalar (ch : UInt8) : Bool :=
  ch = byte ',' || ch = byte '}' || ch = byte ']' || isWs ch

def scalarEndBody (json : Bytes) (pos : Nat) : Option (Nat ⊕ Nat) :=
  if pos < json.length then do
    let ch ← json[pos]?
    some (if endsScalar ch then .inr pos else .inl (pos + 1))
  else some (.inr pos)

/-- `json_value_end`. -/
def jsonValueEnd (json : Bytes) (start : Nat) : Option Nat := do
  let start ← skipWs json start
  if json.length ≤ start then some start
  else
    let ch ← json[start]?
    if ch = byte '"' then jsonStringEnd json start
    else if ch = byte '{' ∨ ch = byte '[' then jsonCompositeEnd json start
    else loop (scalarEndBody json) (json.length + 1) start

/-! ## Strings and arrays -/

/-- The characters of an escape. -/
def unescape (escaped : UInt8) : UInt8 :=
  if escaped = byte 'b' then 0x08
  else if escaped = byte 'f' then 0x0C
  else if escaped = byte 'n' then 0x0A
  else if escaped = byte 'r' then 0x0D
  else if escaped = byte 't' then 0x09
  else escaped

def decodeBody (token : Bytes) (s : Nat × Bytes) : Option ((Nat × Bytes) ⊕ Bytes) :=
  if s.1 + 1 < token.length then do
    let ch ← token[s.1]?
    if ch ≠ byte '\\' ∨ token.length ≤ s.1 + 2 then some (.inl (s.1 + 1, s.2 ++ [ch]))
    else do
      let escaped ← token[s.1 + 1]?
      some (.inl (s.1 + 2, s.2 ++ [unescape escaped]))
  else some (.inr s.2)

/-- `decode_json_string`. -/
def decodeJsonString (token : Bytes) : Option Bytes :=
  if token.length < 2 then some []
  else do
    let front ← token[0]?
    let back ← token[token.length - 1]?
    if front ≠ byte '"' ∨ back ≠ byte '"' then some []
    else loop (decodeBody token) (token.length + 1) (1, [])

def arrayValuesBody (array : Bytes) (s : Nat × List Bytes) :
    Option ((Nat × List Bytes) ⊕ List Bytes) :=
  if s.1 < array.length then do
    let pos ← skipWs array s.1
    if array.length ≤ pos then some (.inr s.2)
    else
      let ch ← array[pos]?
      if ch = byte ']' then some (.inr s.2)
      else do
        let stop ← jsonValueEnd array pos
        if stop ≤ pos then some (.inr s.2)
        else do
          let value ← substr array pos (stop - pos)
          let values := s.2 ++ [value]
          let pos ← skipWs array stop
          if pos < array.length then do
            let ch ← array[pos]?
            some <|
              if ch = byte ',' then .inl (pos + 1, values)
              else if ch ≠ byte ']' then .inr values
              else .inl (pos, values)
          else some (.inl (pos, values))
  else some (.inr s.2)

/-- `json_array_values`. -/
def jsonArrayValues (array : Bytes) : Option (List Bytes) := do
  let pos ← skipWs array 0
  if array.length ≤ pos then some []
  else
    let ch ← array[pos]?
    if ch ≠ byte '[' then some []
    else loop (arrayValuesBody array) (array.length + 1) (pos + 1, [])

/-! ## Objects -/

structure Field where
  key : Bytes
  value : Bytes
  deriving DecidableEq

structure JsonObjectView where
  fields : List Field := []
  valid : Bool := false
  deriving DecidableEq

/-- The turn of `reset` after a key and a value. -/
def afterField (source : Bytes) (fields : List Field) (valueEnd : Nat) :
    Option ((Nat × List Field) ⊕ JsonObjectView) := do
  let pos ← skipWs source valueEnd
  if pos < source.length then do
    let ch ← source[pos]?
    some <|
      if ch = byte ',' then .inl (pos + 1, fields)
      else if ch = byte '}' then .inr ⟨fields, true⟩
      else .inr ⟨fields, false⟩
  else some (.inr ⟨fields, false⟩)

/-- The turn of `reset` from the quote of a key on. -/
def fieldAt (source : Bytes) (fields : List Field) (pos : Nat) :
    Option ((Nat × List Field) ⊕ JsonObjectView) := do
  let keyEnd ← jsonStringEnd source pos
  if keyEnd ≤ pos + 1 ∨ source.length < keyEnd then some (.inr ⟨fields, false⟩)
  else do
    let key ← substr source (pos + 1) (keyEnd - pos - 2)
    let colon ← skipWs source keyEnd
    if source.length ≤ colon then some (.inr ⟨fields, false⟩)
    else do
      let ch ← source[colon]?
      if ch ≠ byte ':' then some (.inr ⟨fields, false⟩)
      else do
        let start ← skipWs source (colon + 1)
        let valueEnd ← jsonValueEnd source start
        if valueEnd ≤ start then some (.inr ⟨fields, false⟩)
        else do
          let value ← substr source start (valueEnd - start)
          afterField source (fields ++ [⟨key, value⟩]) valueEnd

def resetBody (source : Bytes) (s : Nat × List Field) :
    Option ((Nat × List Field) ⊕ JsonObjectView) :=
  if s.1 < source.length then do
    let pos ← skipWs source s.1
    if source.length ≤ pos then some (.inr ⟨s.2, false⟩)
    else do
      let ch ← source[pos]?
      if ch = byte '}' then some (.inr ⟨s.2, true⟩)
      else if ch ≠ byte '"' then some (.inr ⟨s.2, false⟩)
      else fieldAt source s.2 pos
  else some (.inr ⟨s.2, false⟩)

namespace JsonObjectView

/-- `JsonObjectView::reset`. -/
def ofBytes (json : Bytes) : Option JsonObjectView := do
  let pos ← skipWs json 0
  if json.length ≤ pos then some {}
  else do
    let ch ← json[pos]?
    if ch ≠ byte '{' then some {}
    else loop (resetBody json) (json.length + 1) (pos + 1, [])

variable (view : JsonObjectView)

/-- `raw_field`: the first field with the key. -/
def rawField (key : Bytes) : Option Bytes :=
  (view.fields.find? fun field => field.key = key).map (·.value)

/-- `string_field`. -/
def stringField (key fallback : Bytes) : Option Bytes :=
  match view.rawField key with
  | none => some fallback
  | some value =>
    if value.length < 2 then some fallback
    else do
      let front ← value[0]?
      if front ≠ byte '"' then some fallback else decodeJsonString value

def uintBody (raw : Bytes) (s : Nat × Option UInt64) :
    Option ((Nat × Option UInt64) ⊕ Option UInt64) :=
  if s.1 < raw.length then do
    let ch ← raw[s.1]?
    some <|
      if byte '0' ≤ ch ∧ ch ≤ byte '9' then
        .inl (s.1 + 1, some (s.2.getD 0 * 10 + (ch - byte '0').toUInt64))
      else .inr s.2
  else some (.inr s.2)

/-- `uint_field`, with the number if there is any digit. -/
def uintField (key : Bytes) : Option (Option UInt64) :=
  match view.rawField key with
  | none => some none
  | some raw => do
    let pos ← skipWs raw 0
    loop (uintBody raw) (raw.length + 1) (pos, none)

/-- `bool_field`. -/
def boolField (key : Bytes) (fallback : Bool) : Option Bool :=
  match view.rawField key with
  | none => some fallback
  | some raw => do
    let pos ← skipWs raw 0
    if (← substr raw pos 4) = ['t', 'r', 'u', 'e'].map byte then some true
    else if (← substr raw pos 5) = ['f', 'a', 'l', 's', 'e'].map byte then some false
    else if pos < raw.length then do
      let ch ← raw[pos]?
      if ch = byte '"' then do
        let text ← decodeJsonString (← substr raw pos raw.length)
        some (text = ['t', 'r', 'u', 'e'].map byte || text = ['1'].map byte ||
          text = ['y', 'e', 's'].map byte)
      else some fallback
    else some fallback

/-- `object_field`. -/
def objectField (key : Bytes) : Option JsonObjectView :=
  match view.rawField key with
  | none => some {}
  | some raw => do
    let pos ← skipWs raw 0
    if raw.length ≤ pos then some {}
    else do
      let ch ← raw[pos]?
      if ch ≠ byte '{' then some {} else ofBytes (← substr raw pos raw.length)

/-- The strings of the values of an array. -/
def stringsOf : List Bytes → Option (List Bytes)
  | [] => some []
  | item :: items => do
    let rest ← stringsOf items
    if item.length < 2 then some rest
    else do
      let front ← item[0]?
      let back ← item[item.length - 1]?
      if front = byte '"' ∧ back = byte '"' then some ((← decodeJsonString item) :: rest)
      else some rest

/-- `string_array_field`. -/
def stringArrayField (key : Bytes) : Option (List Bytes) :=
  match view.rawField key with
  | none => some []
  | some raw => do stringsOf (← jsonArrayValues raw)

/-- `object_array_field`. -/
def objectArrayField (key : Bytes) : Option (List Bytes) :=
  match view.rawField key with
  | none => some []
  | some raw => do
    let items ← jsonArrayValues raw
    some (items.filter fun item => item[0]? = some (byte '{'))

end JsonObjectView

end Sunpack.WorkerLine
