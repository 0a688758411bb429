import Memqueue.Lib.CString

/-! printbuf.c: a growing buffer that texts are appended to, and the string escaping of json_object.c.
Allocation is taken to succeed for sizes that an int holds. -/
namespace Memqueue

/-- The bytes of a C string literal. -/
def bytes (s : String) : List UInt8 := s.toUTF8.data.toList

/-- struct printbuf. A text is followed by its NUL, inside the allocated `size` bytes. -/
structure Printbuf where
  buf : Buffer
  bpos : Nat
  size : Nat
  bpos_lt : bpos < size
  size_lt : size < 2^31
  nul : 0 < bpos → buf bpos = 0

/-- malloc leaves `junk` in the buffer. -/
def printbufNew (junk : Buffer) : Printbuf := ⟨junk,0,32,by decide,by decide,fun h => absurd h (Nat.lt_irrefl 0)⟩

/-- memcpy of `bs` to the end of the text, and the NUL after it. -/
def Printbuf.copy (p : Printbuf) (bs : List UInt8) : Buffer :=
  Function.update (p.buf.write p.bpos bs) (p.bpos + bs.length) 0

/-- The size of the buffer that `n` more bytes are written to, in ints that wrap. -/
def Printbuf.newSize (p : Printbuf) (n : Nat) : Int :=
  if (p.size - p.bpos : Int) ≤ wrapInt n then max (wrapInt (p.size * 2)) (wrapInt (p.bpos + n + 8)) else p.size

theorem Printbuf.newSize_lt (p : Printbuf) (n : Nat) : p.newSize n < 2^31 := by
  unfold newSize
  split
  case isTrue => exact max_lt (wrapInt_bounds _).2 (wrapInt_bounds _).2
  case isFalse => exact_mod_cast p.size_lt

/-- The buffer of `newSize` bytes, when they are enough for the text and its NUL. -/
def Printbuf.append (p : Printbuf) (bs : List UInt8) (h : (p.bpos + bs.length : Nat) < p.newSize bs.length) :
    Printbuf where
  buf := p.copy bs
  bpos := p.bpos + bs.length
  size := (p.newSize bs.length).toNat
  bpos_lt := by omega
  size_lt := by
    have hlt := p.newSize_lt bs.length
    omega
  nul := fun _ => Function.update_self _ _ _

/-- A size that has wrapped below 0 is too much for realloc: then the bytes are dropped. None is a memcpy past
the end of the buffer. No caller looks at what is returned. -/
def printbufMemappend (p : Printbuf) (bs : List UInt8) : Option Printbuf :=
  if p.newSize bs.length < 0 then some p
  else if h : (p.bpos + bs.length : Nat) < p.newSize bs.length then some (p.append bs h)
  else none

/-- sprintbuf; a text of more than 127 bytes takes the way over vasprintf to the same call. -/
def sprintbuf (p : Printbuf) (text : List UInt8) : Option Printbuf := printbufMemappend p text

def printbufReset (p : Printbuf) : Printbuf :=
  ⟨Function.update p.buf 0 0,0,p.size,Nat.lt_of_le_of_lt (Nat.zero_le _) p.bpos_lt,p.size_lt,
    fun h => absurd h (Nat.lt_irrefl 0)⟩

namespace Printbuf

/-- What has been written. -/
def text (p : Printbuf) : List UInt8 := p.buf.slice 0 p.bpos

theorem length_text (p : Printbuf) : p.text.length = p.bpos := Buffer.length_slice _ _ _

theorem text_append (p : Printbuf) (bs : List UInt8) (h : (p.bpos + bs.length : Nat) < p.newSize bs.length) :
    (p.append bs h).text = p.text ++ bs := by
  rw [text,text,← Buffer.slice_append]
  refine Buffer.slice_congr fun j hj => ?_
  change Function.update _ _ _ _ = _
  rw [Function.update_of_ne]
  have hlt : j < p.bpos + bs.length := hj
  omega

/-- `r` is what `p` becomes when `bs` is written behind its text, as long as all of it stays below 2^30 bytes. -/
def Writes (p : Printbuf) (bs : List UInt8) (r : Option Printbuf) : Prop :=
  (p.text ++ bs).length < 2^30 → ∃ q, r = some q ∧ q.text = p.text ++ bs

theorem writes_nothing (p : Printbuf) : p.Writes [] (some p) := fun _ => ⟨p,rfl,(List.append_nil _).symm⟩

/-- One write after the other. -/
theorem Writes.bind {p : Printbuf} {bs cs : List UInt8} {r : Option Printbuf} {f : Printbuf → Option Printbuf}
    (h : p.Writes bs r) (hf : ∀ q, Writes q cs (f q)) : p.Writes (bs ++ cs) (r >>= f) := by
  intro hlen
  rw [← List.append_assoc] at hlen
  have hfirst : (p.text ++ bs).length < 2^30 := lt_of_le_of_lt (List.prefix_append _ cs).length_le hlen
  obtain ⟨q,rfl,hq⟩ := h hfirst
  obtain ⟨u,hu,htext⟩ := hf q (hq ▸ hlen)
  exact ⟨u,hu,by rw [htext,hq,List.append_assoc]⟩

/-- No int wraps on the way to 2^30 bytes. -/
theorem newSize_of_lt {p : Printbuf} {n : Nat} (h : p.bpos + n < 2^30) : ((p.bpos + n : Nat) : Int) < p.newSize n := by
  have hn : wrapInt n = n := wrapInt_of_bounds (by omega) (by omega)
  unfold newSize
  rw [hn]
  split
  case isTrue hle =>
    have hsum : wrapInt (p.bpos + n + 8) = p.bpos + n + 8 := wrapInt_of_bounds (by omega) (by omega)
    rw [hsum]
    exact lt_of_lt_of_le (by push_cast; omega) (le_max_right _ _)
  case isFalse hgt => push_cast; omega

theorem writes_memappend (p : Printbuf) (bs : List UInt8) : p.Writes bs (printbufMemappend p bs) := by
  intro hlen
  rw [List.length_append,length_text] at hlen
  have hlt := newSize_of_lt hlen
  refine ⟨p.append bs hlt,?_,p.text_append bs hlt⟩
  rw [printbufMemappend,if_neg (by omega),dif_pos hlt]

theorem writes_sprintbuf (p : Printbuf) (bs : List UInt8) : p.Writes bs (sprintbuf p bs) := p.writes_memappend bs

/-- What was written is a C string, if no NUL was. -/
theorem stringAt_text {p : Printbuf} (hne : p.text ≠ []) (h : 0 ∉ p.text) : StringAt p.buf 0 p.text where
  text := by
    rw [length_text]
    rfl
  nul := by
    have hpos := List.length_pos_iff.mpr hne
    rw [length_text] at hpos ⊢
    rw [Nat.zero_add]
    exact p.nul hpos
  free := h

end Printbuf

/-- json_hex_chars -/
def jsonHexChars : List UInt8 := bytes "0123456789abcdef"

/-- The escapes with a letter of their own: \b \n \r \t \" \\ \/ -/
def escapeLetter (c : UInt8) : Option UInt8 :=
  match c with
  | 8 => some 98
  | 10 => some 110
  | 13 => some 114
  | 9 => some 116
  | 34 => some 34
  | 92 => some 92
  | 47 => some 47
  | _ => none

/-- \u00%c%c -/
def escapeHex (c : UInt8) : List UInt8 :=
  [92,117,48,48,jsonHexChars.getD (c >>> 4).toNat 0,jsonHexChars.getD (c &&& 0xf).toNat 0]

/-- The run of bytes from `start_offset` to `pos`, written if there are any. -/
def flushRun (p : Printbuf) (run : List UInt8) : Option Printbuf :=
  if 0 < run.length then printbufMemappend p run else some p

/-- The loop of json_escape_str; `run` has been passed over and not yet been written. The positions are ints, for
strings below 2^31 bytes. -/
def escapeLoop (p : Printbuf) (run : List UInt8) : List UInt8 → Option Printbuf
  | [] => flushRun p run
  | c :: str =>
    if c = 0 then flushRun p run
    else match escapeLetter c with
      | some l => do
        let p ← flushRun p run
        let p ← printbufMemappend p [92,l]
        escapeLoop p [] str
      | none =>
        if c < 32 then do
          let p ← flushRun p run
          let p ← sprintbuf p (escapeHex c)
          escapeLoop p [] str
        else escapeLoop p (run ++ [c]) str

def jsonEscapeStr (p : Printbuf) (str : List UInt8) : Option Printbuf := escapeLoop p [] str

/-- What becomes of one byte. -/
def escapeByte (c : UInt8) : List UInt8 :=
  match escapeLetter c with
  | some l => [92,l]
  | none => if c < 32 then escapeHex c else [c]

/-- A string escaped byte by byte up to its NUL. -/
def escaped (str : List UInt8) : List UInt8 := (cString str).flatMap escapeByte

theorem writes_flushRun (p : Printbuf) (run : List UInt8) : p.Writes run (flushRun p run) := by
  unfold flushRun
  split
  case isTrue => exact p.writes_memappend run
  case isFalse h =>
    rw [List.length_eq_zero_iff.mp (Nat.eq_zero_of_not_pos h)]
    exact p.writes_nothing

theorem escaped_cons {c : UInt8} (hc : c ≠ 0) (str : List UInt8) :
    escaped (c :: str) = escapeByte c ++ escaped str := by
  rw [escaped,cString,List.takeWhile_cons_of_pos (by simpa using hc),List.flatMap_cons]
  rfl

private theorem writes_escapeLoop (p : Printbuf) (run str : List UInt8) :
    p.Writes (run ++ escaped str) (escapeLoop p run str) := by
  induction str generalizing p run with
  | nil =>
    rw [escapeLoop,escaped,cString,List.takeWhile_nil,List.flatMap_nil,List.append_nil]
    exact writes_flushRun p run
  | cons c str ih =>
    rw [escapeLoop]
    split
    case isTrue hc =>
      rw [escaped,cString,List.takeWhile_cons_of_neg (by simpa using hc),List.flatMap_nil,List.append_nil]
      exact writes_flushRun p run
    case isFalse hc =>
      rw [escaped_cons hc,escapeByte]
      cases escapeLetter c with
      | some l => exact (writes_flushRun p run).bind fun q => (q.writes_memappend _).bind fun u => ih u []
      | none =>
        dsimp only
        split
        · exact (writes_flushRun p run).bind fun q => (q.writes_sprintbuf _).bind fun u => ih u []
        · rw [← List.append_assoc]
          exact ih p (run ++ [c])

/-- The runs that json_escape_str writes make up the string escaped byte by byte. -/
theorem writes_jsonEscapeStr (p : Printbuf) (str : List UInt8) : p.Writes (escaped str) (jsonEscapeStr p str) :=
  writes_escapeLoop p [] str

end Memqueue
