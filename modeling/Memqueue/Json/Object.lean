import Memqueue.Json.Linkhash
import Memqueue.Json.Printbuf

/-! json_object.c: values and how they are written. An object holds the pairs of its table in the order
of the list of entries, an array the pointers of its array_list. -/
namespace Memqueue

/-- %lf of libc, as sprintf writes and sscanf reads it. -/
class DoubleFormat (δ : Type) where
  print : δ → List UInt8
  scan : List UInt8 → Option δ

/-- The doubles that the six decimals of %lf determine, as that number of millionths. -/
structure Millionths where
  count : Int
  deriving DecidableEq

instance : DoubleFormat Millionths where
  print d :=
    let n := d.count.natAbs
    let text := decimal (n / 10^6) ++ 46 :: ((List.range 6).map fun i => UInt8.ofNat (48 + n / 10^(5 - i) % 10))
    if d.count < 0 then 45 :: text else text
  scan s :=
    let u := if s.head? = some 45 then s.tail else s
    let after := ((u.dropWhile isdigit).drop 1).takeWhile isdigit
    let n : Int := digits u * 10^6 + digits after * 10^(6 - after.length)
    some ⟨if s.head? = some 45 then -n else n⟩

/-- struct json_object by `o_type`; the NULL pointer stands for null. -/
inductive JsonObject (δ : Type) where
  | null
  | boolean (b : Bool)
  | double (d : δ)
  | int (i : Int)
  | object (fields : List (List UInt8 × JsonObject δ))
  | array (items : List (JsonObject δ))
  | string (s : List UInt8)

namespace JsonObject
variable {δ : Type}

/-- json_object_object_add; the key is duplicated up to its NUL. -/
def objectAdd (jso : JsonObject δ) (key : List UInt8) (val : JsonObject δ) : JsonObject δ :=
  match jso with
  | .object fields => .object (Table.put fields (cString key) val)
  | jso => jso

/-- json_object_object_get -/
def objectGet (jso : JsonObject δ) (key : List UInt8) : Option (JsonObject δ) :=
  match jso with
  | .object fields => Table.get fields (cString key)
  | _ => none

/-- json_object_array_add -/
def arrayAdd (jso val : JsonObject δ) : JsonObject δ :=
  match jso with
  | .array items => .array (items ++ [val])
  | jso => jso

/-- json_object_new_string -/
def newString (s : List UInt8) : JsonObject δ := .string (cString s)

variable [DoubleFormat δ]

/-- " \"" before a key, after the comma that all but the first are preceded by. -/
def sprintKey (p : Printbuf) (i : Nat) (key : List UInt8) : Option Printbuf := do
  let p ← (if i ≠ 0 then sprintbuf p [44] else some p)
  let p ← sprintbuf p [32,34]
  let p ← jsonEscapeStr p key
  sprintbuf p [34,58,32]

mutual

/-- The function `_to_json_string` points to. -/
def toJsonString : JsonObject δ → Printbuf → Option Printbuf
  | .null,p => sprintbuf p (bytes "null")
  | .boolean b,p => if b then sprintbuf p (bytes "true") else sprintbuf p (bytes "false")
  | .double d,p => sprintbuf p (DoubleFormat.print d)
  | .int i,p => sprintbuf p (formatInt i)
  | .object fields,p => do
    let p ← sprintbuf p [123]
    let p ← objectToJsonString 0 fields p
    sprintbuf p [32,125]
  | .array items,p => do
    let p ← sprintbuf p [91]
    let p ← arrayToJsonString 0 items p
    sprintbuf p [32,93]
  | .string s,p => do
    let p ← sprintbuf p [34]
    let p ← jsonEscapeStr p s
    sprintbuf p [34]

/-- The loop of json_object_object_to_json_string from field `i` on. -/
def objectToJsonString (i : Nat) : List (List UInt8 × JsonObject δ) → Printbuf → Option Printbuf
  | [],p => some p
  | (key,val) :: fields,p => do
    let p ← sprintKey p i key
    let p ← toJsonString val p
    objectToJsonString (i + 1) fields p

/-- The loop of json_object_array_to_json_string from item `i` on. -/
def arrayToJsonString (i : Nat) : List (JsonObject δ) → Printbuf → Option Printbuf
  | [],p => some p
  | val :: items,p => do
    let p ← (if i ≠ 0 then sprintbuf p [44,32] else sprintbuf p [32])
    let p ← toJsonString val p
    arrayToJsonString (i + 1) items p

end

mutual

/-- The text of a value. -/
def text : JsonObject δ → List UInt8
  | .null => bytes "null"
  | .boolean true => bytes "true"
  | .boolean false => bytes "false"
  | .double d => DoubleFormat.print d
  | .int i => formatInt i
  | .object fields => 123 :: (fieldsText true fields ++ [32,125])
  | .array items => 91 :: (itemsText true items ++ [32,93])
  | .string s => 34 :: (escaped s ++ [34])

/-- The fields of an object, each but the first after a comma. -/
def fieldsText (first : Bool) : List (List UInt8 × JsonObject δ) → List UInt8
  | [] => []
  | (key,val) :: fields =>
    (if first then [] else [44]) ++ ([32,34] ++ escaped key ++ [34,58,32]) ++ text val ++ fieldsText false fields

def itemsText (first : Bool) : List (JsonObject δ) → List UInt8
  | [] => []
  | val :: items => (if first then [32] else [44,32]) ++ text val ++ itemsText false items

end

/-- json_object_to_json_string of a value other than NULL. `pb` is the buffer of an earlier call, if there
was one; otherwise malloc leaves `junk` in the new one. -/
def jsonObjectToJsonString (pb : Option Printbuf) (junk : Buffer) (jso : JsonObject δ) : Option Printbuf :=
  match pb with
  | none => toJsonString jso (printbufNew junk)
  | some p => toJsonString jso (printbufReset p)

theorem writes_sprintKey (p : Printbuf) (i : Nat) (key : List UInt8) :
    p.Writes ((if decide (i = 0) then [] else [44]) ++ ([32,34] ++ escaped key ++ [34,58,32])) (sprintKey p i key) := by
  have hrest : ∀ q : Printbuf, q.Writes ([32,34] ++ escaped key ++ [34,58,32]) (do
      let p ← sprintbuf q [32,34]
      let p ← jsonEscapeStr p key
      sprintbuf p [34,58,32]) := by
    intro q
    rw [List.append_assoc]
    exact (q.writes_sprintbuf _).bind fun q => (writes_jsonEscapeStr q key).bind fun q => q.writes_sprintbuf _
  rcases eq_or_ne i 0 with rfl | hi
  · exact p.writes_nothing.bind hrest
  · have hcomma : p.Writes (if decide (i = 0) then [] else [44]) (if i ≠ 0 then sprintbuf p [44] else some p) := by
      rw [if_neg (by simpa using hi),if_pos hi]
      exact p.writes_sprintbuf _
    exact hcomma.bind hrest

mutual

/-- What is appended to the buffer is the text of the value. -/
theorem writes_toJsonString : ∀ (v : JsonObject δ) (p : Printbuf), p.Writes (text v) (toJsonString v p)
  | .null,p => by
    rw [toJsonString,text]
    exact p.writes_sprintbuf _
  | .boolean true,p => by
    rw [toJsonString,text,if_pos rfl]
    exact p.writes_sprintbuf _
  | .boolean false,p => by
    rw [toJsonString,text,if_neg Bool.false_ne_true]
    exact p.writes_sprintbuf _
  | .double d,p => by
    rw [toJsonString,text]
    exact p.writes_sprintbuf _
  | .int i,p => by
    rw [toJsonString,text]
    exact p.writes_sprintbuf _
  | .object fields,p => by
    rw [toJsonString,text]
    exact (p.writes_sprintbuf [123]).bind fun q =>
      (writes_objectToJsonString fields 0 q).bind fun q => q.writes_sprintbuf _
  | .array items,p => by
    rw [toJsonString,text]
    exact (p.writes_sprintbuf [91]).bind fun q =>
      (writes_arrayToJsonString items 0 q).bind fun q => q.writes_sprintbuf _
  | .string s,p => by
    rw [toJsonString,text]
    exact (p.writes_sprintbuf [34]).bind fun q =>
      (writes_jsonEscapeStr q s).bind fun q => q.writes_sprintbuf _

theorem writes_objectToJsonString : ∀ (fields : List (List UInt8 × JsonObject δ)) (i : Nat) (p : Printbuf),
    p.Writes (fieldsText (decide (i = 0)) fields) (objectToJsonString i fields p)
  | [],i,p => by
    rw [objectToJsonString,fieldsText]
    exact p.writes_nothing
  | (key,val) :: fields,i,p => by
    rw [objectToJsonString,fieldsText,List.append_assoc]
    exact (writes_sprintKey p i key).bind fun q =>
      (writes_toJsonString val q).bind fun q => writes_objectToJsonString fields (i + 1) q

theorem writes_arrayToJsonString : ∀ (items : List (JsonObject δ)) (i : Nat) (p : Printbuf),
    p.Writes (itemsText (decide (i = 0)) items) (arrayToJsonString i items p)
  | [],i,p => by
    rw [arrayToJsonString,itemsText]
    exact p.writes_nothing
  | val :: items,i,p => by
    have hgap : p.Writes (if decide (i = 0) then [32] else [44,32])
        (if i ≠ 0 then sprintbuf p [44,32] else sprintbuf p [32]) := by
      rcases eq_or_ne i 0 with rfl | hi
      · exact p.writes_sprintbuf _
      · rw [if_neg (by simpa using hi),if_pos hi]
        exact p.writes_sprintbuf _
    rw [arrayToJsonString,itemsText,List.append_assoc]
    exact hgap.bind fun q => (writes_toJsonString val q).bind fun q => writes_arrayToJsonString items (i + 1) q

end

/-- A text of less than 2^30 bytes is written whole, whatever the buffer held before. -/
theorem exists_jsonObjectToJsonString (pb : Option Printbuf) (junk : Buffer) {jso : JsonObject δ}
    (h : (text jso).length < 2^30) :
    ∃ p, jsonObjectToJsonString pb junk jso = some p ∧ p.text = text jso := by
  cases pb with
  | none => exact writes_toJsonString jso (printbufNew junk) h
  | some p => exact writes_toJsonString jso (printbufReset p) h

end JsonObject
end Memqueue
