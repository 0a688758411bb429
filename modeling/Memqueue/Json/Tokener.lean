import Memqueue.Json.Object

/-! json_tokener.c: the parser as a machine that takes one turn of the main loop at a time.
Characters are written as their ASCII codes. -/
namespace Memqueue

/-- enum json_tokener_state -/
inductive TokenerState where
  | eatws
  | start
  | finish
  | null
  | commentStart
  | comment
  | commentEol
  | commentEnd
  | string
  | stringEscape
  | escapeUnicode
  | boolean
  | number
  | array
  | arrayAdd
  | arraySep
  | objectFieldStart
  | objectField
  | objectFieldEnd
  | objectValue
  | objectValueAdd
  | objectSep
  deriving DecidableEq, Repr

/-- enum json_tokener_error -/
inductive TokenerError where
  | success
  | continued
  | depth
  | parseEof
  | parseUnexpected
  | parseNull
  | parseBoolean
  | parseNumber
  | parseArray
  | parseObjectKeyName
  | parseObjectKeySep
  | parseObjectValueSep
  | parseString
  | parseComment
  deriving DecidableEq, Repr

/-- struct json_tokener_srec -/
structure Srec (δ : Type) where
  state : TokenerState
  savedState : TokenerState
  current : JsonObject δ
  objFieldName : Option (List UInt8)

/-- struct json_tokener with the local variable `obj` of json_tokener_parse_ex. `pb` is the text of the
buffer (whose ints do not wrap while a text has less than 2^30 bytes), `top` is stack[depth] and `below` holds the
levels under it, the nearest first. -/
structure Tokener (δ : Type) where
  pb : List UInt8
  top : Srec δ
  below : List (Srec δ)
  obj : JsonObject δ
  isDouble : Bool
  stPos : Nat
  ucsChar : UInt32
  quoteChar : UInt8
  err : TokenerError

/-- One turn of the loop: it goes on with the rest of the input, or leaves to `out` with `c` the last
character read. -/
inductive Turn (δ : Type) where
  | next (t : Tokener δ) (s : List UInt8)
  | out (t : Tokener δ) (c : UInt8) (s : List UInt8)

/-- json_number_chars -/
def jsonNumberChars : List UInt8 := bytes "0123456789.+-eE"

def jsonNullStr : List UInt8 := bytes "null"
def jsonTrueStr : List UInt8 := bytes "true"
def jsonFalseStr : List UInt8 := bytes "false"

/-- JSON_TOKENER_MAX_DEPTH -/
def jsonTokenerMaxDepth : Nat := 32

/-- sscanf with "%d", which converts as strtol does and keeps the low 32 bits. -/
def scanInt (s : List UInt8) : Option Int :=
  let t := s.dropWhile isspace
  let u := match t with
    | 43 :: u => u
    | 45 :: u => u
    | u => u
  if u.head?.any isdigit then some ((strtol s).bmod (2^32)) else none

/-- The macro hexdigit of bits.h. -/
def hexdigit (c : UInt8) : UInt32 := if c ≤ 57 then c.toUInt32 - 48 else (c.toUInt32 &&& 7) + 9

/-- The bytes put out for a \u escape. -/
def utfOut (ucs : UInt32) : List UInt8 :=
  if ucs < 0x80 then [ucs.toUInt8]
  else if ucs < 0x800 then [((ucs >>> 6) ||| 0xc0).toUInt8,((ucs &&& 0x3f) ||| 0x80).toUInt8]
  else [((ucs >>> 12) ||| 0xe0).toUInt8,(((ucs >>> 6) &&& 0x3f) ||| 0x80).toUInt8,((ucs &&& 0x3f) ||| 0x80).toUInt8]

namespace Tokener
variable {δ : Type}

/-- json_tokener_reset_level -/
def resetLevel : Srec δ := ⟨.eatws,.start,.null,none⟩

def depth (t : Tokener δ) : Nat := t.below.length

def goto (t : Tokener δ) (state : TokenerState) : Tokener δ := { t with top := { t.top with state } }

/-- `saved_state = savedState; state = json_tokener_state_eatws` -/
def eat (t : Tokener δ) (savedState : TokenerState) : Tokener δ :=
  { t with top := { t.top with state := .eatws, savedState } }

def set (t : Tokener δ) (current : JsonObject δ) : Tokener δ := { t with top := { t.top with current } }

def append (t : Tokener δ) (bs : List UInt8) : Tokener δ := { t with pb := t.pb ++ bs }

/-- `depth++` and json_tokener_reset_level -/
def push (t : Tokener δ) : Tokener δ := { t with top := resetLevel, below := t.top :: t.below }

/-- ADVANCE_CHAR at the end of the loop body. -/
def advance (t : Tokener δ) (c : UInt8) (s : List UInt8) : Turn δ := if c = 0 then .out t c s else .next t s

/-- `goto redo_char` -/
def redo (t : Tokener δ) (c : UInt8) (s : List UInt8) : Turn δ := .next t (c :: s)

/-- `tok->err = err; goto out` -/
def fail (t : Tokener δ) (err : TokenerError) (c : UInt8) (s : List UInt8) : Turn δ := .out { t with err } c (c :: s)

def eatws (t : Tokener δ) (s : List UInt8) : Turn δ :=
  match s.dropWhile isspace with
  | [] => .next t []
  | c :: s =>
    if c = 47 then advance ({ t with pb := [c] }.goto .commentStart) c s
    else redo (t.goto t.top.savedState) c s

def start (t : Tokener δ) (c : UInt8) (s : List UInt8) : Turn δ :=
  if c = 123 then advance ((t.eat .objectFieldStart).set (.object [])) c s
  else if c = 91 then advance ((t.eat .array).set (.array [])) c s
  else if c = 78 ∨ c = 110 then redo ({ t with pb := [], stPos := 0 }.goto .null) c s
  else if c = 34 ∨ c = 39 then advance ({ t with pb := [], quoteChar := c }.goto .string) c s
  else if c = 84 ∨ c = 116 ∨ c = 70 ∨ c = 102 then redo ({ t with pb := [], stPos := 0 }.goto .boolean) c s
  else if isdigit c ∨ c = 45 then redo ({ t with pb := [], isDouble := false }.goto .number) c s
  else fail t .parseUnexpected c s

def finish (t : Tokener δ) (c : UInt8) (s : List UInt8) : Turn δ :=
  match t.below with
  | [] => .out t c (c :: s)
  | top :: below => redo { t with obj := t.top.current, top, below } c s

def null (t : Tokener δ) (c : UInt8) (s : List UInt8) : Turn δ :=
  let t := t.append [c]
  if caseEq (jsonNullStr.take (t.stPos + 1)) t.pb then
    if t.stPos = jsonNullStr.length then redo ((t.set .null).eat .finish) c s
    else advance { t with stPos := t.stPos + 1 } c s
  else fail t .parseNull c s

def commentStart (t : Tokener δ) (c : UInt8) (s : List UInt8) : Turn δ :=
  if c = 42 then advance ((t.goto .comment).append [c]) c s
  else if c = 47 then advance ((t.goto .commentEol).append [c]) c s
  else fail t .parseComment c s

/-- The loops that go on until one of some characters. A NUL leaves them, counted to the run. -/
def scanRun (t : Tokener δ) (stop : UInt8 → Bool) (s : List UInt8)
    (found : Tokener δ → UInt8 → List UInt8 → Turn δ) : Turn δ :=
  let run := s.takeWhile fun c => !stop c && c ≠ 0
  match s.dropWhile (fun c => !stop c && c ≠ 0) with
  | [] => .next (t.append run) []
  | c :: s => if stop c then found (t.append run) c s else .out (t.append (run ++ [c])) c s

def comment (t : Tokener δ) (s : List UInt8) : Turn δ :=
  scanRun t (· = 42) s fun t c s => advance ((t.append [c]).goto .commentEnd) c s

def commentEol (t : Tokener δ) (s : List UInt8) : Turn δ :=
  scanRun t (· = 10) s fun t c s => advance (t.goto .eatws) c s

def commentEnd (t : Tokener δ) (c : UInt8) (s : List UInt8) : Turn δ :=
  let t := t.append [c]
  if c = 47 then advance (t.goto .eatws) c s else advance (t.goto .comment) c s

/-- The loop over the characters between quotes, in a value or in the name of a field. -/
def quoted (t : Tokener δ) (self : TokenerState) (s : List UInt8) (close : Tokener δ → Tokener δ) : Turn δ :=
  scanRun t (fun c => c = t.quoteChar || c = 92) s fun t c s =>
    if c = t.quoteChar then advance (close t) c s
    else advance { t with top := { t.top with savedState := self, state := .stringEscape } } c s

def string (t : Tokener δ) (s : List UInt8) : Turn δ :=
  quoted t .string s fun t => (t.set (.newString t.pb)).eat .finish

def stringEscape (t : Tokener δ) (c : UInt8) (s : List UInt8) : Turn δ :=
  if c = 34 ∨ c = 92 ∨ c = 47 then advance ((t.append [c]).goto t.top.savedState) c s
  else if c = 98 then advance ((t.append [8]).goto t.top.savedState) c s
  else if c = 110 then advance ((t.append [10]).goto t.top.savedState) c s
  else if c = 114 then advance ((t.append [13]).goto t.top.savedState) c s
  else if c = 116 then advance ((t.append [9]).goto t.top.savedState) c s
  else if c = 117 then advance ({ t with ucsChar := 0, stPos := 0 }.goto .escapeUnicode) c s
  else fail t .parseString c s

/-- strchr also finds the NUL at the end of json_hex_chars. -/
def escapeUnicode (t : Tokener δ) (c : UInt8) (s : List UInt8) : Turn δ :=
  if c = 0 ∨ c ∈ jsonHexChars then
    let ucsChar := t.ucsChar + (hexdigit c <<< (UInt32.ofNat ((3 - t.stPos) * 4)))
    let t := { t with ucsChar, stPos := t.stPos + 1 }
    if t.stPos = 4 then advance ((t.append (utfOut ucsChar)).goto t.top.savedState) c s else advance t c s
  else fail t .parseString c s

def boolean (t : Tokener δ) (c : UInt8) (s : List UInt8) : Turn δ :=
  let t := t.append [c]
  if caseEq (jsonTrueStr.take (t.stPos + 1)) t.pb then
    if t.stPos = jsonTrueStr.length then redo ((t.set (.boolean true)).eat .finish) c s
    else advance { t with stPos := t.stPos + 1 } c s
  else if caseEq (jsonFalseStr.take (t.stPos + 1)) t.pb then
    if t.stPos = jsonFalseStr.length then redo ((t.set (.boolean false)).eat .finish) c s
    else advance { t with stPos := t.stPos + 1 } c s
  else fail t .parseBoolean c s

/-- The characters of a number in front. -/
def isNumberChar (c : UInt8) : Bool := c ≠ 0 && jsonNumberChars.contains c

def number [DoubleFormat δ] (t : Tokener δ) (s : List UInt8) : Turn δ :=
  let run := s.takeWhile isNumberChar
  let t := { t with isDouble := t.isDouble || run.any fun c => c = 46 || c = 101 }.append run
  match s.dropWhile isNumberChar with
  | [] => .next t []
  | c :: s =>
    let value := if t.isDouble then (DoubleFormat.scan (cString t.pb)).map .double
      else (scanInt (cString t.pb)).map .int
    match value with
    | some v => redo ((t.set v).eat .finish) c s
    | none => fail t .parseNumber c s

/-- `json_tokener_state_array` and `json_tokener_state_object_value` go one level down, if there is one. -/
def descend (t : Tokener δ) (back : TokenerState) (c : UInt8) (s : List UInt8) : Turn δ :=
  if jsonTokenerMaxDepth - 1 ≤ t.depth then fail t .depth c s else redo (t.goto back).push c s

def array (t : Tokener δ) (c : UInt8) (s : List UInt8) : Turn δ :=
  if c = 93 then advance (t.eat .finish) c s else descend t .arrayAdd c s

def arrayAdd (t : Tokener δ) (c : UInt8) (s : List UInt8) : Turn δ :=
  redo ((t.set (t.top.current.arrayAdd t.obj)).eat .arraySep) c s

/-- What follows an item of an array or of an object: its end, a comma, or an error. -/
def separator (t : Tokener δ) (close : UInt8) (more : TokenerState) (err : TokenerError) (c : UInt8)
    (s : List UInt8) : Turn δ :=
  if c = close then advance (t.eat .finish) c s
  else if c = 44 then advance (t.eat more) c s
  else fail t err c s

def arraySep (t : Tokener δ) (c : UInt8) (s : List UInt8) : Turn δ := separator t 93 .array .parseArray c s

def objectFieldStart (t : Tokener δ) (c : UInt8) (s : List UInt8) : Turn δ :=
  if c = 125 then advance (t.eat .finish) c s
  else if c = 34 ∨ c = 39 then advance ({ t with pb := [], quoteChar := c }.goto .objectField) c s
  else fail t .parseObjectKeyName c s

def objectField (t : Tokener δ) (s : List UInt8) : Turn δ :=
  quoted t .objectField s fun t =>
    { t with top := { t.top with objFieldName := some (cString t.pb) } }.eat .objectFieldEnd

def objectFieldEnd (t : Tokener δ) (c : UInt8) (s : List UInt8) : Turn δ :=
  if c = 58 then advance (t.eat .objectValue) c s else fail t .parseObjectKeySep c s

def objectValue (t : Tokener δ) (c : UInt8) (s : List UInt8) : Turn δ := descend t .objectValueAdd c s

def objectValueAdd (t : Tokener δ) (c : UInt8) (s : List UInt8) : Turn δ :=
  let t := t.set (t.top.current.objectAdd (t.top.objFieldName.getD []) t.obj)
  redo ({ t with top := { t.top with objFieldName := none } }.eat .objectSep) c s

def objectSep (t : Tokener δ) (c : UInt8) (s : List UInt8) : Turn δ :=
  separator t 125 .objectFieldStart .parseObjectValueSep c s

/-- The switch on the state. -/
def turn [DoubleFormat δ] (t : Tokener δ) (c : UInt8) (s : List UInt8) : Turn δ :=
  match t.top.state with
  | .eatws => eatws t (c :: s)
  | .start => start t c s
  | .finish => finish t c s
  | .null => null t c s
  | .commentStart => commentStart t c s
  | .comment => comment t (c :: s)
  | .commentEol => commentEol t (c :: s)
  | .commentEnd => commentEnd t c s
  | .string => string t (c :: s)
  | .stringEscape => stringEscape t c s
  | .escapeUnicode => escapeUnicode t c s
  | .boolean => boolean t c s
  | .number => number t (c :: s)
  | .array => array t c s
  | .arrayAdd => arrayAdd t c s
  | .arraySep => arraySep t c s
  | .objectFieldStart => objectFieldStart t c s
  | .objectField => objectField t (c :: s)
  | .objectFieldEnd => objectFieldEnd t c s
  | .objectValue => objectValue t c s
  | .objectValueAdd => objectValueAdd t c s
  | .objectSep => objectSep t c s

/-- POP_CHAR where the input is at its end. -/
def popFailed (t : Tokener δ) : Tokener δ :=
  { t with
    err := if t.depth = 0 ∧ t.top.state = .eatws ∧ t.top.savedState = .finish then .success else .continued }

/-- The main loop up to `out`, with the last character read and the rest of the input. -/
def loop [DoubleFormat δ] : Nat → Tokener δ → List UInt8 → Option (Tokener δ × UInt8 × List UInt8)
  | 0,_,_ => none
  | _ + 1,t,[] => some (popFailed t,1,[])
  | fuel + 1,t,c :: s =>
    match turn t c s with
    | .next t s => loop fuel t s
    | .out t c s => some (t,c,s)

/-- What is done at `out`. -/
def leave (t : Tokener δ) (c : UInt8) : Tokener δ :=
  { t with
    err := if c = 0 ∧ t.top.state ≠ .finish ∧ t.top.savedState ≠ .finish then .parseEof else t.err
    obj := .null }

/-- The value json_tokener_parse_ex returns. -/
def value (t : Tokener δ) : JsonObject δ := if t.err = .success then t.top.current else .null

end Tokener

section Parse
variable {δ : Type}

/-- json_tokener_new -/
def jsonTokenerNew : Tokener δ := ⟨[],Tokener.resetLevel,[],.null,false,0,0,0,.success⟩

variable [DoubleFormat δ]

/-- json_tokener_parse_ex on `len` bytes: the tokener after it and the offset it stopped at. A string of
length -1 is given with its NUL, which is never passed. -/
def jsonTokenerParseEx (t : Tokener δ) (str : List UInt8) : Option (Tokener δ × Nat) :=
  (Tokener.loop (10 * str.length + 10) { t with err := .success, obj := .null } str).map fun r =>
    (r.1.leave r.2.1,str.length - r.2.2.length)

/-- json_tokener_parse; an error is returned as a pointer that is_error recognises. -/
def jsonTokenerParse (str : List UInt8) : Option (Except TokenerError (JsonObject δ)) :=
  (jsonTokenerParseEx jsonTokenerNew (cString str ++ [0])).map fun r =>
    if r.1.err = .success then .ok r.1.value else .error r.1.err

end Parse
end Memqueue
