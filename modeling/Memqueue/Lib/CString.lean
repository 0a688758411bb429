import Mathlib

/-! Byte buffers as total maps, and the C string functions over them.
A pointer into a buffer is an offset; a string ends at its first NUL. An int has 32 bits. -/
namespace Memqueue

/-- Wrap-around of a C int. -/
def wrapInt (x : Int) : Int := x.bmod (2^32)

theorem wrapInt_bounds (x : Int) : -2^31 ≤ wrapInt x ∧ wrapInt x < 2^31 := by
  have hlow := Int.le_bmod (x := x) (m := 2^32) (by decide)
  have hhigh := Int.bmod_lt (x := x) (m := 2^32) (by decide)
  unfold wrapInt
  omega

theorem wrapInt_of_bounds {x : Int} (h : -2^31 ≤ x) (h' : x < 2^31) : wrapInt x = x := by
  apply Int.bmod_eq_of_le
  · omega
  · omega

abbrev Buffer := Nat → UInt8

namespace Buffer

/-- The `len` bytes from `off` on. -/
def slice (f : Buffer) (off len : Nat) : List UInt8 := (List.range len).map fun j => f (off + j)

/-- memcpy of `bs` to offset `off`. -/
def write (f : Buffer) (off : Nat) (bs : List UInt8) : Buffer :=
  fun j => if off ≤ j then bs.getD (j - off) (f j) else f j

@[simp] theorem length_slice (f : Buffer) (off len : Nat) : (f.slice off len).length = len := by
  simp [slice]

theorem slice_add (f : Buffer) (off m n : Nat) :
    f.slice off (m + n) = f.slice off m ++ f.slice (off + m) n := by
  simp [slice,List.range_add,Nat.add_assoc]

theorem take_slice (f : Buffer) (off : Nat) {m n : Nat} (h : m ≤ n) : (f.slice off n).take m = f.slice off m := by
  obtain ⟨k,rfl⟩ := Nat.exists_eq_add_of_le h
  rw [slice_add,List.take_left' (length_slice f off m)]

theorem drop_slice (f : Buffer) (off : Nat) {m n : Nat} (h : m ≤ n) :
    (f.slice off n).drop m = f.slice (off + m) (n - m) := by
  obtain ⟨k,rfl⟩ := Nat.exists_eq_add_of_le h
  rw [slice_add,List.drop_left' (length_slice f off m),Nat.add_sub_cancel_left]

theorem slice_congr {f g : Buffer} {off off' len : Nat} (h : ∀ j < len, f (off + j) = g (off' + j)) :
    f.slice off len = g.slice off' len :=
  List.map_congr_left fun j hj => h j (List.mem_range.mp hj)

theorem write_before (f : Buffer) {off j : Nat} (bs : List UInt8) (h : j < off) : f.write off bs j = f j :=
  if_neg (Nat.not_le.mpr h)

theorem slice_write_before (f : Buffer) {off len : Nat} (bs : List UInt8) (h : len ≤ off) :
    (f.write off bs).slice 0 len = f.slice 0 len := by
  refine slice_congr fun j hj => ?_
  rw [Nat.zero_add]
  exact write_before f bs (by omega)

theorem slice_write (f : Buffer) (off : Nat) (bs : List UInt8) : (f.write off bs).slice off bs.length = bs := by
  apply List.ext_getElem (length_slice _ _ _)
  intro j hj hj'
  simp only [slice,List.getElem_map,List.getElem_range,write,Nat.le_add_right,if_true,Nat.add_sub_cancel_left]
  rw [List.getD_eq_getElem?_getD,List.getElem?_eq_getElem hj',Option.getD_some]

theorem write_after (f : Buffer) {off j : Nat} (bs : List UInt8) (h : off + bs.length ≤ j) :
    f.write off bs j = f j := by
  rw [write,if_pos (by omega),List.getD_eq_getElem?_getD,List.getElem?_eq_none (by omega),Option.getD_none]

/-- A text of two parts in a buffer. -/
theorem slice_eq_append {f : Buffer} {off : Nat} {s t : List UInt8} :
    f.slice off (s ++ t).length = s ++ t ↔ f.slice off s.length = s ∧ f.slice (off + s.length) t.length = t := by
  rw [List.length_append,slice_add]
  constructor
  · intro h
    exact List.append_inj h (length_slice _ _ _)
  · rintro ⟨h₁,h₂⟩
    rw [h₁,h₂]

theorem slice_getElem {f : Buffer} {off : Nat} {s : List UInt8} (h : f.slice off s.length = s) {j : Nat}
    (hj : j < s.length) : f (off + j) = s[j] := by
  have hget : (f.slice off s.length)[j]? = s[j]? := by rw [h]
  simpa [slice,hj] using hget

theorem mem_of_slice {f : Buffer} {off : Nat} {s : List UInt8} (h : f.slice off s.length = s) {i : Nat} (hi : off ≤ i)
    (hlt : i < off + s.length) : f i ∈ s := by
  obtain ⟨j,rfl⟩ := Nat.exists_eq_add_of_le hi
  rw [slice_getElem h (by omega)]
  exact List.getElem_mem _

/-- Bytes appended to what a buffer holds. -/
theorem slice_append (f : Buffer) (off : Nat) (bs : List UInt8) :
    (f.write off bs).slice 0 (off + bs.length) = f.slice 0 off ++ bs := by
  rw [slice_add,slice_write_before f bs le_rfl,Nat.zero_add,slice_write]

end Buffer

section Search
variable {α : Type} [DecidableEq α]

/-- Where `pat` first occurs. -/
def strstr (pat : List α) : List α → Option Nat
  | [] => if pat = [] then some 0 else none
  | c :: s => if pat.isPrefixOf (c :: s) then some 0 else (strstr pat s).map (· + 1)

private theorem isPrefixOf_take {pat : List α} (s : List α) (r : Nat) :
    pat.isPrefixOf (s.take r) = (pat.isPrefixOf s && decide (pat.length ≤ r)) := by
  rw [Bool.eq_iff_iff]
  simp only [List.isPrefixOf_iff_prefix,Bool.and_eq_true,decide_eq_true_eq]
  constructor
  · intro h
    exact ⟨h.trans (List.take_prefix r s),by simpa using h.length_le.trans (List.length_take_le r s)⟩
  · rintro ⟨h,hr⟩
    rw [List.prefix_take_iff]
    exact ⟨h,hr⟩

/-- A search in a shortened text finds the same place, if that lies inside. -/
theorem strstr_take {pat : List α} (hp : pat ≠ []) {s : List α} {r i : Nat} :
    strstr pat (s.take r) = some i ↔ strstr pat s = some i ∧ i + pat.length ≤ r := by
  have hpos : 0 < pat.length := List.length_pos_iff.mpr hp
  induction s generalizing r i with
  | nil => simp [strstr,hp]
  | cons c s ih =>
    cases r with
    | zero =>
      simp only [List.take_zero,strstr,hp,if_false]
      constructor
      · intro h
        cases h
      · intro h
        omega
    | succ r =>
      rw [List.take_succ_cons]
      simp only [strstr]
      rw [← List.take_succ_cons,isPrefixOf_take]
      by_cases hc : pat.isPrefixOf (c :: s) = true
      · by_cases hr : pat.length ≤ r + 1
        · simp only [hc,hr,decide_true,Bool.and_self,if_true,Option.some.injEq]
          constructor
          · rintro rfl
            exact ⟨rfl,by omega⟩
          · exact fun h => h.1
        · have hnone : ∀ j, strstr pat (s.take r) ≠ some j := by
            intro j hj
            have := (ih.mp hj).2
            omega
          simp only [hc,hr,decide_false,Bool.and_false,Bool.false_eq_true,if_false,if_true,Option.map_eq_some_iff]
          constructor
          · rintro ⟨j,hj,_⟩
            exact absurd hj (hnone j)
          · rintro ⟨_,hi⟩
            omega
      · simp only [hc,Bool.false_and,Bool.false_eq_true,if_false,Option.map_eq_some_iff]
        constructor
        · rintro ⟨j,hj,rfl⟩
          obtain ⟨hj,hle⟩ := ih.mp hj
          exact ⟨⟨j,hj,rfl⟩,by omega⟩
        · rintro ⟨⟨j,hj,rfl⟩,hle⟩
          exact ⟨j,ih.mpr ⟨hj,by omega⟩,rfl⟩

theorem strstr_spec {pat : List α} {s : List α} {i : Nat} (h : strstr pat s = some i) : pat <+: s.drop i := by
  induction s generalizing i with
  | nil =>
    rw [strstr] at h
    split at h
    · rename_i hnil
      rw [hnil]
      exact List.nil_prefix
    · cases h
  | cons c s ih =>
    rw [strstr] at h
    split at h
    · rename_i hp
      cases h
      exact List.isPrefixOf_iff_prefix.mp hp
    · obtain ⟨j,hj,rfl⟩ := Option.map_eq_some_iff.mp h
      exact ih hj

theorem strstr_le {pat : List α} (hp : pat ≠ []) {s : List α} {i : Nat} (h : strstr pat s = some i) :
    i + pat.length ≤ s.length := by
  rw [← List.take_length (l := s)] at h
  exact ((strstr_take hp).mp h).2

end Search

theorem takeWhile_take {α : Type} (p : α → Bool) (s : List α) (r : Nat) :
    (s.take r).takeWhile p = (s.takeWhile p).take r := by
  induction s generalizing r with
  | nil => simp
  | cons c s ih =>
    cases r with
    | zero => simp
    | succ r =>
      rw [List.take_succ_cons,List.takeWhile_cons,List.takeWhile_cons]
      split
      · rw [ih,List.take_succ_cons]
      · rfl

/-- The C string at the head of `s`. -/
def cString (s : List UInt8) : List UInt8 := s.takeWhile (· ≠ 0)

/-- `f` holds the C string `s` from `i` on. -/
structure StringAt (f : Buffer) (i : Nat) (s : List UInt8) : Prop where
  text : f.slice i s.length = s
  nul : f (i + s.length) = 0
  free : 0 ∉ s

namespace StringAt
variable {f g : Buffer} {i : Nat} {s : List UInt8}

theorem byte (h : StringAt f i s) {j : Nat} (hj : j < s.length) : f (i + j) = s[j] := Buffer.slice_getElem h.text hj

/-- Only the bytes of the string and its NUL count. -/
theorem congr (h : StringAt f i s) (hg : ∀ j ≤ s.length, g (i + j) = f (i + j)) : StringAt g i s where
  text := (Buffer.slice_congr fun j hj => hg j hj.le).trans h.text
  nul := (hg _ le_rfl).trans h.nul
  free := h.free

theorem drop (h : StringAt f i s) {k : Nat} (hk : k ≤ s.length) : StringAt f (i + k) (s.drop k) where
  text := by
    rw [List.length_drop,← Buffer.drop_slice f i hk,h.text]
  nul := by
    rw [List.length_drop,Nat.add_assoc,Nat.add_sub_cancel' hk]
    exact h.nul
  free hmem := h.free (List.mem_of_mem_drop hmem)

/-- A NUL in the middle ends the string there. -/
theorem cut (h : StringAt f i s) {k : Nat} (hk : k ≤ s.length) :
    StringAt (Function.update f (i + k) 0) i (s.take k) where
  text := by
    have hpre : f.slice i k = s.take k := by rw [← Buffer.take_slice f i hk,h.text]
    rw [List.length_take,min_eq_left hk,← hpre]
    refine Buffer.slice_congr fun j hj => ?_
    rw [Function.update_of_ne (by omega)]
  nul := by
    rw [List.length_take,min_eq_left hk,Function.update_self]
  free hmem := h.free (List.mem_of_mem_take hmem)

theorem cString_slice (h : StringAt f i s) {n : Nat} (hn : s.length < n) : cString (f.slice i n) = s := by
  obtain ⟨k,rfl⟩ := Nat.exists_eq_add_of_lt hn
  rw [cString,Nat.add_assoc,Buffer.slice_add,h.text,List.takeWhile_append_of_pos]
  · have hhead : f.slice (i + s.length) (k + 1) = 0 :: f.slice (i + s.length + 1) k := by
      rw [Nat.add_comm k 1,Buffer.slice_add]
      simp [Buffer.slice,h.nul]
    rw [hhead,List.takeWhile_cons_of_neg (by decide),List.append_nil]
  · intro c hc
    exact decide_eq_true fun hzero => h.free (hzero ▸ hc)

/-- A buffer holds one string at a place. -/
theorem unique {t : List UInt8} (h : StringAt f i s) (h' : StringAt f i t) : s = t := by
  have hs := h.cString_slice (n := max s.length t.length + 1) (by omega)
  have ht := h'.cString_slice (n := max s.length t.length + 1) (by omega)
  exact hs.symm.trans ht

end StringAt

/-- isspace in the C locale. -/
def isspace (c : UInt8) : Bool := c = 32 || (9 ≤ c && c ≤ 13)

/-- tolower in the C locale. -/
def tolower (c : UInt8) : UInt8 := if 65 ≤ c ∧ c ≤ 90 then c + 32 else c

def isdigit (c : UInt8) : Bool := 48 ≤ c && c ≤ 57

/-- strncasecmp with the length of `word`, equal or not. -/
def caseEq (word s : List UInt8) : Bool := (s.take word.length).map tolower = word.map tolower

/-- The value of the leading decimal digits. -/
def digits (s : List UInt8) : Nat := (s.takeWhile isdigit).foldl (fun n c => 10 * n + (c.toNat - 48)) 0

/-- strtol in base 10, which stops at the bounds of a long. -/
def strtol (s : List UInt8) : Int :=
  match s.dropWhile isspace with
  | 45 :: t => max (-(digits t : Int)) (-2^63)
  | 43 :: t => min (digits t) (2^63 - 1)
  | t => min (digits t) (2^63 - 1)

/-- %d of a number that is not negative. -/
def decimal (n : Nat) : List UInt8 :=
  if n = 0 then [48] else (Nat.digits 10 n).reverse.map fun d => UInt8.ofNat (48 + d)

/-- %d -/
def formatInt (x : Int) : List UInt8 := if x < 0 then 45 :: decimal x.natAbs else decimal x.natAbs

@[simp] theorem formatInt_natCast (n : Nat) : formatInt n = decimal n := if_neg (by omega)

section Decimal

private theorem digit_toNat {d : Nat} (h : d < 10) : (UInt8.ofNat (48 + d)).toNat = 48 + d := by
  rw [UInt8.toNat_ofNat']
  omega

private theorem decimal_digit {n : Nat} {c : UInt8} (h : c ∈ decimal n) : ∃ d < 10, c = UInt8.ofNat (48 + d) := by
  rw [decimal] at h
  split at h
  · exact ⟨0,by decide,List.mem_singleton.mp h⟩
  · obtain ⟨d,hd,rfl⟩ := List.mem_map.mp h
    exact ⟨d,Nat.digits_lt_base (by decide) (List.mem_reverse.mp hd),rfl⟩

theorem decimal_bounds {n : Nat} {c : UInt8} (h : c ∈ decimal n) : 48 ≤ c ∧ c ≤ 57 := by
  obtain ⟨d,hd,rfl⟩ := decimal_digit h
  rw [UInt8.le_iff_toNat_le,UInt8.le_iff_toNat_le,digit_toNat hd]
  exact ⟨by simp,by simp; omega⟩

theorem decimal_plain {n : Nat} {c : UInt8} (h : c ∈ decimal n) : isspace c = false ∧ c ≠ 0 := by
  have := decimal_bounds h
  rw [isspace]
  grind

/-- The digits of a number are read back, up to what is no digit. -/
theorem digits_decimal_append (n : Nat) {t : List UInt8} (hstop : ∀ c ∈ t.head?, isdigit c = false) :
    digits (decimal n ++ t) = n := by
  have hall : ∀ c ∈ decimal n, isdigit c = true := fun c hc => by simpa [isdigit] using decimal_bounds hc
  have htail : t.takeWhile isdigit = [] := by
    cases t with
    | nil => rfl
    | cons c t => rw [List.takeWhile_cons_of_neg (by simpa using hstop c rfl)]
  rw [digits,List.takeWhile_append_of_pos hall,htail,List.append_nil,decimal]
  split
  · rename_i h
    rw [h]
    rfl
  · rw [List.foldl_map,List.foldl_reverse]
    calc
      _ = (Nat.digits 10 n).foldr (fun d m => d + 10 * m) 0 := by
        refine List.foldr_ext _ _ _ fun d hd m => ?_
        rw [digit_toNat (Nat.digits_lt_base (by decide) hd)]
        omega
      _ = Nat.ofDigits 10 (Nat.digits 10 n) := (Nat.ofDigits_eq_foldr 10 _).symm
      _ = n := Nat.ofDigits_digits 10 n

theorem digits_decimal (n : Nat) : digits (decimal n) = n := by
  rw [← List.append_nil (decimal n),digits_decimal_append n (by simp)]

/-- Whitespace in front is passed over. -/
theorem strtol_blanks {s : List UInt8} (hs : ∀ c ∈ s, isspace c = true) (t : List UInt8) :
    strtol (s ++ t) = strtol t := by
  rw [strtol,strtol,List.dropWhile_append_of_pos hs]

theorem strtol_decimal (n : Nat) {t : List UInt8} (hstop : ∀ c ∈ t.head?, isdigit c = false) :
    strtol (decimal n ++ t) = min (n : Int) (2^63 - 1) := by
  have hn := digits_decimal_append n hstop
  cases hs : decimal n with
  | nil =>
    have hzero := digits_decimal n
    rw [hs] at hzero
    exact absurd (congrArg List.length hs) (by rw [← hzero]; decide)
  | cons c s =>
    have hmem : c ∈ decimal n := hs ▸ List.mem_cons_self
    have hc := decimal_bounds hmem
    have h45 : c ≠ 45 := by
      rintro rfl
      exact absurd hc.1 (by decide)
    have h43 : c ≠ 43 := by
      rintro rfl
      exact absurd hc.1 (by decide)
    rw [hs,List.cons_append] at hn
    rw [List.cons_append,strtol,List.dropWhile_cons_of_neg (by simp [(decimal_plain hmem).1])]
    split
    · rename_i heq
      exact absurd (List.cons.inj heq).1 h45
    · rename_i heq
      exact absurd (List.cons.inj heq).1 h43
    · rw [hn]

private theorem strtol_minus (n : Nat) : strtol (45 :: decimal n) = max (-(n : Int)) (-2^63) := by
  rw [strtol,List.dropWhile_cons_of_neg (by decide)]
  simp only [digits_decimal]

/-- strtol reads a number back that fits into a long. -/
theorem strtol_formatInt {x : Int} (hmin : -2^63 ≤ x) (hmax : x < 2^63) : strtol (formatInt x) = x := by
  rw [formatInt]
  split
  · rw [strtol_minus]
    omega
  · rw [← List.append_nil (decimal _),strtol_decimal _ (by simp)]
    omega

end Decimal

end Memqueue
