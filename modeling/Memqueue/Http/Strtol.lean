import Memqueue.Lib.Horner
import Memqueue.Http.Receive

/-! http_strtol against the number its text denotes, and the signed arithmetic on the way to it. -/
namespace Memqueue

section Steps

/-- The signed values the conversion loop computes: each digit, and the two results where it is taken. -/
def strtolLoopSteps (s1 : Buffer) (len : Nat) (base cutoff cutlim : Int) : Nat → UInt8 → Nat → Int → Int → List Int
  | 0, _, _, _, _ => []
  | fuel + 1, c, s, acc, any =>
    if s ≤ len then
      match digitOf c with
      | none => []
      | some d =>
        if base ≤ d then [(d : Int)]
        else if any < 0 ∨ cutoff < acc ∨ acc = cutoff ∧ cutlim < d then
          (d : Int) :: strtolLoopSteps s1 len base cutoff cutlim fuel (s1 s) (s + 1) acc (-1)
        else (d : Int) :: acc * base :: (acc * base + d) ::
          strtolLoopSteps s1 len base cutoff cutlim fuel (s1 s) (s + 1) (acc * base + d) 1
    else []

/-- The sum behind cutoff, the quotient and the remainder, the loop, and the last change of sign. -/
def strtolConvertSteps (s1 : Buffer) (len : Nat) (base : Int) (neg : Bool) (c : UInt8) (s : Nat) : List Int :=
  if base < 2 ∨ 36 < base then []
  else
    let cutoff := strtolCutoff neg
    let r := strtolLoop s1 len base (cutoff.tdiv base) (cutoff.tmod base) (len + 1) c s 0 0
    (if neg then [longMin + longMax,-(longMin + longMax)] else []) ++ [cutoff.tmod base,cutoff.tdiv base] ++
      strtolLoopSteps s1 len base (cutoff.tdiv base) (cutoff.tmod base) (len + 1) c s 0 0 ++
      if 0 < r.2 ∧ neg = true then [-r.1] else []

def strtolFromSteps (s1 : Buffer) (len : Nat) (base : Int) (neg : Bool) (c : UInt8) (s : Nat) : List Int :=
  if (base = 0 ∨ base = 16) ∧ httpIsHex (s1 s) ∧ c = 48 then
    if s + 2 ≤ len then [] else strtolConvertSteps s1 len 16 neg (s1 (s + 1)) (s + 2)
  else strtolConvertSteps s1 len (if base = 0 then if c = 48 then 8 else 10 else base) neg c s

def httpStrtolSteps (s1 : Buffer) (len : Nat) (base : Int) : List Int :=
  let (c,s) := strtolBlanks s1 len len 0
  if c = 45 then strtolFromSteps s1 len base true (s1 s) (s + 1)
  else if c = 43 then strtolFromSteps s1 len base false (s1 s) (s + 1)
  else strtolFromSteps s1 len base false c s

/-- A value a long holds. -/
def InLong (x : Int) : Prop := longMin ≤ x ∧ x ≤ longMax

instance (x : Int) : Decidable (InLong x) := inferInstanceAs (Decidable (_ ∧ _))

private theorem strtolCutoff_neg : strtolCutoff true = longMin := by decide

private theorem digitOf_lt {c : UInt8} {d : Nat} (h : digitOf c = some d) : d < 36 := by
  simp only [digitOf,isdigit,Bool.and_eq_true,decide_eq_true_eq,UInt8.le_iff_toNat_le] at h
  split at h
  · rename_i hc
    cases h
    have : c.toNat ≤ 57 := hc.2
    omega
  split at h
  · rename_i hc
    cases h
    have : c.toNat ≤ 90 := hc.2
    omega
  split at h
  · rename_i hc
    cases h
    have : c.toNat ≤ 122 := hc.2
    omega
  · cases h

/-- The quotient and the remainder of a positive cutoff. -/
private theorem cutoff_pos (b : Nat) : (strtolCutoff false).tdiv b = ((2^63 - 1) / b : Nat) ∧
    (strtolCutoff false).tmod b = ((2^63 - 1) % b : Nat) := by
  have hcut : strtolCutoff false = ((2^63 - 1 : Nat) : Int) := by decide
  rw [hcut,Int.tdiv_eq_ediv_of_nonneg (Int.natCast_nonneg _),Int.tmod_eq_emod_of_nonneg (Int.natCast_nonneg _)]
  exact ⟨rfl,rfl⟩

/-- A negative cutoff lets no digit through. -/
private theorem cutoff_neg {b : Nat} (hb : 2 ≤ b) (hb' : b ≤ 36) : (strtolCutoff true).tdiv b < 0 := by
  rw [strtolCutoff_neg]
  interval_cases b
  all_goals decide

private theorem step_fits {b : Nat} (hb : 2 ≤ b) (hb' : b ≤ 36) (neg : Bool) {acc : Int} {d : Nat} (hacc : 0 ≤ acc)
    (hd : d < b)
    (h : ¬((strtolCutoff neg).tdiv b < acc ∨ acc = (strtolCutoff neg).tdiv b ∧ (strtolCutoff neg).tmod b < d)) :
    acc * b + d ≤ longMax := by
  cases neg with
  | true =>
    have := cutoff_neg hb hb'
    exact absurd (.inl (by omega)) h
  | false =>
    obtain ⟨v,rfl⟩ := Int.eq_ofNat_of_zero_le hacc
    rw [(cutoff_pos b).1,(cutoff_pos b).2] at h
    have hfits := (@fits_iff b v (2^63 - 1) d hd).mpr (by exact_mod_cast h)
    have hcast : ((v * b + d : Nat) : Int) ≤ ((2^63 - 1 : Nat) : Int) := by exact_mod_cast hfits
    rw [Nat.cast_add,Nat.cast_mul] at hcast
    exact hcast.trans (by decide)

private theorem loopSteps_inLong {b : Nat} (hb : 2 ≤ b) (hb' : b ≤ 36) (neg : Bool) {s1 : Buffer} {len fuel s : Nat}
    {c : UInt8} {acc any x : Int} (hacc : 0 ≤ acc)
    (h : x ∈ strtolLoopSteps s1 len b ((strtolCutoff neg).tdiv b) ((strtolCutoff neg).tmod b) fuel c s acc any) :
    InLong x := by
  induction fuel generalizing c s acc any with
  | zero => cases h
  | succ fuel ih =>
    rw [strtolLoopSteps] at h
    split at h
    swap
    · cases h
    split at h
    · cases h
    rename_i d hd
    have hd36 := digitOf_lt hd
    have hdigit : InLong d := ⟨by unfold longMin; omega,by unfold longMax; omega⟩
    split at h
    · rw [List.mem_singleton.mp h]
      exact hdigit
    rename_i hdb
    split at h
    · rcases List.mem_cons.mp h with rfl | h
      · exact hdigit
      · exact ih hacc h
    · rename_i hfits
      have hmax := step_fits hb hb' neg hacc (d := d) (by omega) fun hover => hfits (.inr hover)
      have hprod : 0 ≤ acc * b := mul_nonneg hacc (Int.natCast_nonneg b)
      rcases List.mem_cons.mp h with rfl | h
      · exact hdigit
      rcases List.mem_cons.mp h with rfl | h
      · exact ⟨by unfold longMin; omega,by omega⟩
      rcases List.mem_cons.mp h with rfl | h
      · exact ⟨by unfold longMin; omega,hmax⟩
      · exact ih (by omega) h

private theorem loop_inLong {b : Nat} (hb : 2 ≤ b) (hb' : b ≤ 36) (neg : Bool) {s1 : Buffer} {len fuel s : Nat}
    {c : UInt8} {acc any : Int} (hacc : 0 ≤ acc) (hmax : acc ≤ longMax) :
    let r := strtolLoop s1 len b ((strtolCutoff neg).tdiv b) ((strtolCutoff neg).tmod b) fuel c s acc any
    0 ≤ r.1 ∧ r.1 ≤ longMax := by
  induction fuel generalizing c s acc any with
  | zero => exact ⟨hacc,hmax⟩
  | succ fuel ih =>
    rw [strtolLoop]
    split
    swap
    · exact ⟨hacc,hmax⟩
    split
    · exact ⟨hacc,hmax⟩
    rename_i d hd
    split
    · exact ⟨hacc,hmax⟩
    rename_i hdb
    split
    · exact ih hacc hmax
    · rename_i hfits
      have hnext := step_fits hb hb' neg hacc (d := d) (by omega) fun hover => hfits (.inr hover)
      exact ih (add_nonneg (mul_nonneg hacc (Int.natCast_nonneg b)) (Int.natCast_nonneg d)) hnext

private theorem convertSteps_inLong {s1 : Buffer} {len s : Nat} {base : Int} {neg : Bool} {c : UInt8} {x : Int}
    (h : x ∈ strtolConvertSteps s1 len base neg c s) : InLong x := by
  rw [strtolConvertSteps] at h
  split at h
  · cases h
  rename_i hbase
  obtain ⟨b,rfl⟩ := Int.eq_ofNat_of_zero_le (show 0 ≤ base by omega)
  have hb : 2 ≤ b := by omega
  have hb' : b ≤ 36 := by omega
  simp only [List.mem_append,List.mem_cons,List.not_mem_nil,or_false] at h
  rcases h with ((hsum | hquot) | hloop) | hlast
  · split at hsum
    · rcases List.mem_pair.mp hsum with rfl | rfl
      · decide
      · decide
    · cases hsum
  · -- the cutoff is one of two numbers, and a quotient or a remainder is no larger
    have hle : InLong ((strtolCutoff neg).tmod b) ∧ InLong ((strtolCutoff neg).tdiv b) := by
      cases neg with
      | true =>
        rw [strtolCutoff_neg]
        interval_cases b
        all_goals decide
      | false =>
        rw [(cutoff_pos b).1,(cutoff_pos b).2]
        have h₁ := Nat.div_le_self (2^63 - 1) b
        have h₂ := Nat.mod_le (2^63 - 1) b
        generalize (2^63 - 1) / b = q at *
        generalize (2^63 - 1) % b = r at *
        unfold InLong longMin longMax
        omega
    rcases hquot with rfl | rfl
    · exact hle.1
    · exact hle.2
  · exact loopSteps_inLong hb hb' neg le_rfl hloop
  · split at hlast
    · obtain ⟨hlow,hhigh⟩ := @loop_inLong b hb hb' neg s1 len (len + 1) s c 0 0 le_rfl (by decide)
      rw [List.mem_singleton.mp hlast]
      exact ⟨by unfold longMin longMax at *; omega,by unfold longMax; omega⟩
    · cases hlast

private theorem fromSteps_inLong {s1 : Buffer} {len s : Nat} {base : Int} {neg : Bool} {c : UInt8} {x : Int}
    (h : x ∈ strtolFromSteps s1 len base neg c s) : InLong x := by
  rw [strtolFromSteps] at h
  split at h
  · split at h
    · cases h
    · exact convertSteps_inLong h
  · exact convertSteps_inLong h

/-- No signed operation of http_strtol overflows, on any bytes and in any base. -/
theorem httpStrtolSteps_inLong {s1 : Buffer} {len : Nat} {base x : Int} (h : x ∈ httpStrtolSteps s1 len base) :
    InLong x := by
  rw [httpStrtolSteps] at h
  generalize strtolBlanks s1 len len 0 = r at h
  obtain ⟨c,s⟩ := r
  dsimp only at h
  split at h
  · exact fromSteps_inLong h
  split at h
  · exact fromSteps_inLong h
  · exact fromSteps_inLong h

end Steps

/-- A digit as a character, with its letter in upper or lower case. -/
def digitByte (upper : Bool) (d : Nat) : UInt8 := UInt8.ofNat ((if d < 10 then 48 else if upper then 55 else 87) + d)

/-- A number as it is written: an optional sign, and at least one digit. -/
structure Numeral (base : Nat) where
  sign : Option Bool
  digits : List (Bool × Nat)
  nonempty : digits ≠ []
  small : ∀ d ∈ digits, d.2 < base

namespace Numeral
variable {base : Nat}

def signText (n : Numeral base) : List UInt8 :=
  match n.sign with
  | none => []
  | some minus => [if minus then 45 else 43]

def text (n : Numeral base) : List UInt8 := n.signText ++ n.digits.map fun d => digitByte d.1 d.2

def magnitude (n : Numeral base) : Nat := Nat.ofDigits base (n.digits.map Prod.snd).reverse

/-- The integer denoted. -/
def value (n : Numeral base) : Int := if n.sign = some true then -(n.magnitude : Int) else n.magnitude

end Numeral

/-- The nearest value that a long holds. -/
def saturate (x : Int) : Int := max longMin (min longMax x)

section Digits

private theorem digitOf_digitByte (upper : Bool) {d : Nat} (h : d < 16) : digitOf (digitByte upper d) = some d := by
  have hall : ∀ upper, ∀ d < 16, digitOf (digitByte upper d) = some d := by decide
  exact hall upper d h

private theorem httpIsHex_digitByte (upper : Bool) {d : Nat} (h : d < 16) : httpIsHex (digitByte upper d) = true := by
  have hall : ∀ upper, ∀ d < 16, httpIsHex (digitByte upper d) = true := by decide
  exact hall upper d h

private theorem digitByte_ne (upper : Bool) {d : Nat} (h : d < 16) :
    digitByte upper d ≠ 32 ∧ digitByte upper d ≠ 43 ∧ digitByte upper d ≠ 45 ∧ (digitByte upper d = 48 ↔ d = 0) := by
  have hall : ∀ upper, ∀ d < 16, digitByte upper d ≠ 32 ∧ digitByte upper d ≠ 43 ∧ digitByte upper d ≠ 45 ∧
      (digitByte upper d = 48 ↔ d = 0) := by decide
  exact hall upper d h

/-- One turn of the conversion loop. -/
def strtolStep (base cutoff cutlim : Int) (r : Int × Int) (d : Nat) : Int × Int :=
  if r.2 < 0 ∨ cutoff < r.1 ∨ r.1 = cutoff ∧ cutlim < d then (r.1,-1) else (r.1 * base + d,1)

/-- Over the digits up to the end of the text the loop is a fold. -/
private theorem loop_digits {base : Nat} (hbase : base ≤ 16) {s1 : Buffer} {cutoff cutlim : Int} {len fuel i : Nat}
    {r : Int × Int} {ds : List (Bool × Nat)} (hsmall : ∀ d ∈ ds, d.2 < base)
    (htext : s1.slice i ds.length = ds.map fun d => digitByte d.1 d.2) (hend : i + ds.length = len)
    (hfuel : ds.length ≤ fuel) :
    strtolLoop s1 len base cutoff cutlim fuel (s1 i) (i + 1) r.1 r.2 =
      (ds.map Prod.snd).foldl (strtolStep base cutoff cutlim) r := by
  induction ds generalizing fuel i r with
  | nil =>
    cases fuel with
    | zero => rfl
    | succ fuel =>
      rw [strtolLoop,if_neg (by rw [← hend]; simp)]
      rfl
  | cons d ds ih =>
    obtain ⟨fuel,rfl⟩ := Nat.exists_eq_add_one.mpr (Nat.lt_of_lt_of_le (Nat.succ_pos _) hfuel)
    obtain ⟨hd,hds⟩ := List.forall_mem_cons.mp hsmall
    rw [List.length_cons,Nat.add_comm ds.length 1,Buffer.slice_add,List.map_cons] at htext
    have hone : s1.slice i 1 = [s1 i] := by simp [Buffer.slice]
    rw [hone,List.singleton_append] at htext
    obtain ⟨hhead,htail⟩ := List.cons.inj htext
    have hnext := fun r => @ih fuel (i + 1) r hds htail (by rw [List.length_cons] at hend; omega)
      (by rw [List.length_cons] at hfuel; omega)
    rw [List.length_cons] at hend
    rw [strtolLoop,if_pos (by omega),hhead,digitOf_digitByte d.1 (hd.trans_le hbase)]
    dsimp only
    rw [if_neg (by omega),List.map_cons,List.foldl_cons,strtolStep]
    split
    · exact hnext (r.1,-1)
    · exact hnext (r.1 * base + d.2,1)

private theorem fold_stuck {base cutoff cutlim acc : Int} (ds : List Nat) :
    ds.foldl (strtolStep base cutoff cutlim) (acc,-1) = (acc,-1) := by
  induction ds with
  | nil => rfl
  | cons d ds ih =>
    rw [List.foldl_cons,strtolStep,if_pos (.inl (show (-1 : Int) < 0 by decide))]
    exact ih

private theorem fold_pos {b : Nat} {ds : List Nat} (hds : ∀ d ∈ ds, d < b) {v : Nat} (hv : v ≤ 2^63 - 1) {any : Int}
    (hany : 0 ≤ any) :
    strtolResult false
        (ds.foldl (strtolStep b ((strtolCutoff false).tdiv b) ((strtolCutoff false).tmod b)) ((v : Int),any)) =
      min (horner b v ds : Int) longMax := by
  induction ds generalizing v any with
  | nil =>
    rw [List.foldl_nil,horner_nil,strtolResult,if_neg (by omega)]
    have hmin : min (v : Int) longMax = v := min_eq_left (by unfold longMax; omega)
    rw [hmin]
    split
    · rfl
    · exact if_neg Bool.false_ne_true
  | cons d ds ih =>
    obtain ⟨hd,hds⟩ := List.forall_mem_cons.mp hds
    have hfits := @fits_iff b v (2^63 - 1) d hd
    rw [List.foldl_cons,horner_cons,strtolStep,(cutoff_pos b).1,(cutoff_pos b).2]
    dsimp only
    split
    · rename_i hover
      rw [fold_stuck,strtolResult,if_pos (by decide),if_neg Bool.false_ne_true]
      have hlarge : ¬ v * b + d ≤ 2^63 - 1 := by
        rw [hfits,not_not]
        rcases hover with hneg | hover
        · exact absurd hneg (not_lt.mpr hany)
        · exact_mod_cast hover
      have hle := le_horner (Nat.zero_lt_of_lt hd) (v * b + d) ds
      refine (min_eq_right ?_).symm
      unfold longMax
      omega
    · rename_i hok
      have hsmall : v * b + d ≤ 2^63 - 1 := by
        rw [hfits]
        intro hover
        exact hok (.inr (by exact_mod_cast hover))
      have hcast : (v : Int) * b + d = ((v * b + d : Nat) : Int) := by
        rw [Nat.cast_add,Nat.cast_mul]
      rw [hcast,← (cutoff_pos b).1,← (cutoff_pos b).2]
      exact ih hds hsmall (by decide)

private theorem fold_neg {b : Nat} (hb : 2 ≤ b) (hb' : b ≤ 36) {ds : List Nat} (hne : ds ≠ []) :
    ds.foldl (strtolStep b ((strtolCutoff true).tdiv b) ((strtolCutoff true).tmod b)) (0,0) = (0,-1) := by
  cases ds with
  | nil => exact absurd rfl hne
  | cons d ds =>
    rw [List.foldl_cons,strtolStep,if_pos (.inr (.inl (cutoff_neg hb hb')))]
    exact fold_stuck ds

end Digits

namespace Numeral
variable {base : Nat}

private theorem convert (n : Numeral base) (hb : 2 ≤ base) (hb' : base ≤ 16) {s1 : Buffer} {i : Nat} (neg : Bool)
    (h : s1.slice i n.digits.length = n.digits.map fun d => digitByte d.1 d.2) :
    strtolConvert s1 (i + n.digits.length) base neg (s1 i) (i + 1) = if neg then longMin
      else min (n.magnitude : Int) longMax := by
  have hloop := fun cutoff cutlim => @loop_digits base hb' s1 cutoff cutlim (i + n.digits.length)
      (i + n.digits.length + 1) i (0,0)
    n.digits n.small h rfl (by omega)
  have hne : n.digits.map Prod.snd ≠ [] := by
    rw [Ne,List.map_eq_nil_iff]
    exact n.nonempty
  rw [strtolConvert,if_neg (by omega)]
  dsimp only at hloop ⊢
  rw [hloop]
  cases neg with
  | true =>
    rw [fold_neg hb (by omega) hne]
    rfl
  | false =>
    have hsmall : ∀ d ∈ n.digits.map Prod.snd, d < base := by
      intro d hd
      obtain ⟨e,he,rfl⟩ := List.mem_map.mp hd
      exact n.small e he
    have hfold := @fold_pos base (n.digits.map Prod.snd) hsmall 0 (by omega) 0 le_rfl
    rw [horner_eq_ofDigits] at hfold
    exact hfold

private theorem convert_past {s1 : Buffer} {len s : Nat} (h : len < s) (neg : Bool) (c : UInt8) :
    strtolConvert s1 len 16 neg c s = 0 := by
  rw [strtolConvert,if_neg (by decide)]
  dsimp only
  rw [strtolLoop,if_neg (by omega)]
  rfl

private theorem blanks_none {s1 : Buffer} {len fuel s : Nat} (h : s1 s ≠ 32) :
    strtolBlanks s1 len fuel s = (s1 s,s + 1) := by
  cases fuel with
  | zero => rfl
  | succ fuel => rw [strtolBlanks,if_neg fun hblank => h hblank.1]

private theorem parts (n : Numeral base) {s1 : Buffer} (h : s1.slice 0 n.text.length = n.text) :
    s1.slice 0 n.signText.length = n.signText ∧
      s1.slice n.signText.length n.digits.length = n.digits.map fun d => digitByte d.1 d.2 := by
  obtain ⟨hsign,hdigits⟩ := Buffer.slice_eq_append.mp h
  rw [Nat.zero_add,List.length_map] at hdigits
  exact ⟨hsign,hdigits⟩

/-- The digit at a place of the text. -/
private theorem digit_at (n : Numeral base) {s1 : Buffer} {k : Nat}
    (h : s1.slice k n.digits.length = n.digits.map fun d => digitByte d.1 d.2) {j : Nat} (hj : j < n.digits.length) :
    ∃ d ∈ n.digits, n.digits[j]? = some d ∧ s1 (k + j) = digitByte d.1 d.2 := by
  have hlen : s1.slice k (n.digits.map fun d => digitByte d.1 d.2).length =
      n.digits.map fun d => digitByte d.1 d.2 := by
    rw [List.length_map]
    exact h
  have hget := Buffer.slice_getElem hlen (j := j) (by rw [List.length_map]; exact hj)
  rw [List.getElem_map] at hget
  exact ⟨n.digits[j],List.getElem_mem hj,List.getElem?_eq_getElem hj,hget⟩

/-- The sign is passed over. -/
private theorem httpStrtol_sign (n : Numeral base) (hb : base ≤ 16) {s1 : Buffer}
    (h : s1.slice 0 n.text.length = n.text) (len : Nat) (b : Int) : httpStrtol s1 len b =
      strtolFrom s1 len b (n.sign = some true) (s1 n.signText.length) (n.signText.length + 1) := by
  obtain ⟨hsign,hdigits⟩ := n.parts h
  obtain ⟨d,hd,-,hfirst⟩ := n.digit_at hdigits (List.length_pos_iff.mpr n.nonempty)
  obtain ⟨h32,h43,h45,-⟩ := digitByte_ne d.1 ((n.small d hd).trans_le hb)
  rw [← hfirst,Nat.add_zero] at h32 h43 h45
  rw [httpStrtol]
  cases hs : n.sign with
  | none =>
    have hlen : n.signText.length = 0 := by rw [signText,hs]; rfl
    rw [hlen] at h32 h43 h45 ⊢
    rw [blanks_none h32]
    dsimp only
    rw [if_neg h45,if_neg h43]
    rfl
  | some minus =>
    have hone : n.signText = [if minus then 45 else 43] := by rw [signText,hs]
    rw [hone] at hsign ⊢
    have hzero : s1 0 = if minus then 45 else 43 := by simpa [Buffer.slice] using hsign
    cases minus with
    | true =>
      rw [blanks_none (by rw [hzero]; decide),hzero]
      rfl
    | false =>
      rw [blanks_none (by rw [hzero]; decide),hzero]
      rfl

/-- A number with a 0 in front, which in base 16 is taken for the beginning of 0x. -/
def LeadingZero (n : Numeral base) : Prop := n.digits.head?.map Prod.snd = some 0

instance (n : Numeral base) : Decidable n.LeadingZero := inferInstanceAs (Decidable (_ = _))

/-- What http_strtol makes of a number; `after` is the byte behind it. -/
private theorem httpStrtol_eq (n : Numeral base) (hb : base = 10 ∨ base = 16) {s1 : Buffer}
    (h : s1.slice 0 n.text.length = n.text) :
    httpStrtol s1 n.text.length base =
      if base = 16 ∧ n.LeadingZero ∧ (1 < n.digits.length ∨ httpIsHex (s1 n.text.length) = true) then 0
      else if n.sign = some true then longMin
      else min (n.magnitude : Int) longMax := by
  have hb' : base ≤ 16 := by omega
  obtain ⟨-,hdigits⟩ := n.parts h
  have hlen : n.text.length = n.signText.length + n.digits.length := by
    rw [text,List.length_append,List.length_map]
  have hpos := List.length_pos_iff.mpr n.nonempty
  obtain ⟨d,hd,hhead,hfirst⟩ := n.digit_at hdigits hpos
  rw [Nat.add_zero] at hfirst
  have hzero : n.LeadingZero ↔ s1 n.signText.length = 48 := by
    rw [hfirst,(digitByte_ne d.1 ((n.small d hd).trans_le hb')).2.2.2,LeadingZero,List.head?_eq_getElem?,hhead]
    simp
  have hhex : httpIsHex (s1 (n.signText.length + 1)) = true ↔ 1 < n.digits.length ∨
      httpIsHex (s1 n.text.length) = true := by
    by_cases htwo : 1 < n.digits.length
    · obtain ⟨e,he,-,hsecond⟩ := n.digit_at hdigits htwo
      rw [hsecond,httpIsHex_digitByte e.1 ((n.small e he).trans_le hb')]
      exact iff_of_true rfl (.inl htwo)
    · have hone : n.digits.length = 1 := by omega
      rw [hlen,hone]
      simp
  have hbranch : (((base : Int) = 0 ∨ (base : Int) = 16) ∧ httpIsHex (s1 (n.signText.length + 1)) = true ∧
      s1 n.signText.length = 48) ↔
      base = 16 ∧ n.LeadingZero ∧ (1 < n.digits.length ∨ httpIsHex (s1 n.text.length) = true) := by
    have hbase : ((base : Int) = 0 ∨ (base : Int) = 16) ↔ base = 16 := by omega
    rw [hbase,hhex,hzero]
    exact and_congr_right fun _ => and_comm
  rw [n.httpStrtol_sign hb' h,strtolFrom]
  by_cases hnoconv : base = 16 ∧ n.LeadingZero ∧ (1 < n.digits.length ∨ httpIsHex (s1 n.text.length) = true)
  · rw [if_pos hnoconv,if_pos (hbranch.mpr hnoconv)]
    split
    · rfl
    · rename_i hpast
      exact convert_past (by omega) _ _
  · have hne : ¬ (base : Int) = 0 := by omega
    rw [if_neg hnoconv,if_neg (mt hbranch.mp hnoconv),if_neg hne,hlen,n.convert (by omega) hb' _ hdigits]
    simp only [decide_eq_true_eq]

/-- Where http_strtol does what it is for: a minus sign only in front of numbers out of range, and in base 16
no 0 in front but in zero itself. For -0 it depends on the byte behind the text. -/
def Converts (n : Numeral base) (after : UInt8) : Prop :=
  if base = 16 ∧ n.LeadingZero then
    n.magnitude = 0 ∧ (n.sign = some true → 1 < n.digits.length ∨ httpIsHex after = true)
  else n.sign = some true → 2^63 ≤ n.magnitude

private theorem magnitude_single (n : Numeral base) (hzero : n.LeadingZero) (hone : ¬ 1 < n.digits.length) :
    n.magnitude = 0 := by
  have hpos := List.length_pos_iff.mpr n.nonempty
  obtain ⟨d,hd⟩ := List.length_eq_one_iff.mp (show n.digits.length = 1 by omega)
  rw [LeadingZero,hd] at hzero
  rw [magnitude,hd]
  simpa using hzero

end Numeral

/-- http_strtol on every signed number in base 10 or 16: it gives the nearest value a long holds, and no signed
operation on the way overflows, exactly for these numbers. -/
theorem httpStrtol_saturates_iff {base : Nat} (hb : base = 10 ∨ base = 16) (n : Numeral base) {s1 : Buffer}
    (h : s1.slice 0 n.text.length = n.text) :
    (httpStrtol s1 n.text.length base = saturate n.value ∧ ∀ x ∈ httpStrtolSteps s1 n.text.length base, InLong x) ↔
      n.Converts (s1 n.text.length) := by
  rw [and_iff_left fun x hx => httpStrtolSteps_inLong hx,n.httpStrtol_eq hb h,saturate,Numeral.value,Numeral.Converts]
  by_cases hzero : base = 16 ∧ n.LeadingZero
  · rw [if_pos hzero]
    by_cases hmore : 1 < n.digits.length ∨ httpIsHex (s1 n.text.length) = true
    · rw [if_pos ⟨hzero.1,hzero.2,hmore⟩,and_iff_left fun _ => hmore]
      unfold longMin longMax
      split
      · omega
      · omega
    · have hmag := n.magnitude_single hzero.2 fun htwo => hmore (.inl htwo)
      rw [if_neg fun hspec => hmore hspec.2.2,hmag,and_iff_right rfl]
      unfold longMin longMax
      by_cases hminus : n.sign = some true
      · rw [if_pos hminus,if_pos hminus]
        exact iff_of_false (by omega) fun hspec => hmore (hspec hminus)
      · rw [if_neg hminus,if_neg hminus]
        exact iff_of_true (by omega) fun hspec => absurd hspec hminus
  · rw [if_neg hzero,if_neg fun hspec => hzero ⟨hspec.1,hspec.2.1⟩]
    unfold longMin longMax
    by_cases hminus : n.sign = some true
    · rw [if_pos hminus,if_pos hminus]
      constructor
      · intro heq _
        omega
      · intro hlarge
        have := hlarge hminus
        omega
    · rw [if_neg hminus,if_neg hminus]
      exact iff_of_true (by omega) fun hspec => absurd hspec hminus

/-- The text +1F in a buffer with a line end behind it is 31. -/
theorem httpStrtol_hex : ∃ n : Numeral 16, n.text = [43,49,70] ∧ n.value = 31 ∧
    httpStrtol (fun j => [43,49,70,10].getD j 0) n.text.length 16 = saturate n.value := by
  refine ⟨⟨some false,[(true,1),(true,15)],by decide,by decide⟩,by decide,by decide,?_⟩
  refine ((httpStrtol_saturates_iff (.inr rfl) _ ?_).mpr ?_).1
  · decide
  · rw [Numeral.Converts,if_neg (by decide)]
    intro hminus
    cases hminus

/-- A -5 becomes the smallest long, and a chunk size written as 0F becomes 0. -/
theorem sign_and_zero_lost :
    (¬ ∀ (n : Numeral 10) (s1 : Buffer), s1.slice 0 n.text.length = n.text →
      httpStrtol s1 n.text.length 10 = saturate n.value) ∧
    ¬ ∀ (n : Numeral 16) (s1 : Buffer), s1.slice 0 n.text.length = n.text →
      httpStrtol s1 n.text.length 16 = saturate n.value := by
  constructor
  · intro hall
    have hfive := hall ⟨some true,[(true,5)],by decide,by decide⟩ (fun j => [45,53].getD j 0) (by decide)
    revert hfive
    decide
  · intro hall
    have hfifteen := hall ⟨none,[(true,0),(true,15)],by decide,by decide⟩ (fun j => [48,70].getD j 0) (by decide)
    revert hfifteen
    decide

end Memqueue
