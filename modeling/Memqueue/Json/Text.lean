import Memqueue.Json.Object

/-! The values a program can build, and the texts they have. -/
namespace Memqueue

theorem bytes_null : bytes "null" = [110,117,108,108] := rfl

theorem bytes_true : bytes "true" = [116,114,117,101] := rfl

theorem bytes_false : bytes "false" = [102,97,108,115,101] := rfl

section Strings

theorem cString_eq {s : List UInt8} (h : 0 ∉ s) : cString s = s := by
  refine List.takeWhile_eq_self_iff.mpr fun c hc => ?_
  exact decide_eq_true fun hzero => h (hzero ▸ hc)

theorem zero_not_mem_cString (s : List UInt8) : 0 ∉ cString s := by
  intro h
  have hne := List.mem_takeWhile_imp h
  exact absurd hne (by decide)

theorem escapeLetter_bounds {c l : UInt8} (h : escapeLetter c = some l) : 32 ≤ l := by
  unfold escapeLetter at h
  split at h <;> cases h <;> decide

theorem hexChar_mem {n : Nat} (h : n < 16) : jsonHexChars.getD n 0 ∈ jsonHexChars := by
  have hlen : jsonHexChars.length = 16 := rfl
  rw [List.getD_eq_getElem _ _ (by omega)]
  exact List.getElem_mem _

/-- The two digits of a byte are digits. -/
theorem hexDigits_mem (c : UInt8) : jsonHexChars.getD (c >>> 4).toNat 0 ∈ jsonHexChars ∧
    jsonHexChars.getD (c &&& 0xf).toNat 0 ∈ jsonHexChars := by
  refine ⟨hexChar_mem ?_,hexChar_mem ?_⟩
  · have hlt := c.toNat_lt
    rw [UInt8.toNat_shiftRight,Nat.shiftRight_eq_div_pow]
    exact Nat.div_lt_of_lt_mul hlt
  · rw [UInt8.toNat_and]
    exact lt_of_le_of_lt Nat.and_le_right (by decide)

theorem jsonHexChars_bounds {b : UInt8} (h : b ∈ jsonHexChars) : 32 ≤ b := by
  have heq : jsonHexChars = [48,49,50,51,52,53,54,55,56,57,97,98,99,100,101,102] := rfl
  rw [heq] at h
  revert h b
  decide +kernel

theorem escapeHex_bounds {c b : UInt8} (h : b ∈ escapeHex c) : 32 ≤ b := by
  simp only [escapeHex,List.mem_cons,List.not_mem_nil,or_false] at h
  rcases h with rfl | rfl | rfl | rfl | rfl | rfl
  · decide
  · decide
  · decide
  · decide
  · exact jsonHexChars_bounds (hexDigits_mem c).1
  · exact jsonHexChars_bounds (hexDigits_mem c).2

theorem escapeByte_bounds {c b : UInt8} (h : b ∈ escapeByte c) : 32 ≤ b := by
  unfold escapeByte at h
  split at h
  case h_1 l hl =>
    simp only [List.mem_cons,List.not_mem_nil,or_false] at h
    rcases h with rfl | rfl
    · decide
    · exact escapeLetter_bounds hl
  case h_2 =>
    split at h
    case isTrue => exact escapeHex_bounds h
    case isFalse hge =>
      rw [List.mem_singleton.mp h]
      exact UInt8.not_lt.mp hge

theorem escaped_bounds {s : List UInt8} {b : UInt8} (h : b ∈ escaped s) : 32 ≤ b := by
  obtain ⟨c,_,hb⟩ := List.mem_flatMap.mp h
  exact escapeByte_bounds hb

theorem formatInt_bounds {x : Int} {b : UInt8} (h : b ∈ formatInt x) : b = 45 ∨ 48 ≤ b ∧ b ≤ 57 := by
  unfold formatInt at h
  split at h
  · rcases List.mem_cons.mp h with rfl | h
    · exact .inl rfl
    · exact .inr (decimal_bounds h)
  · exact .inr (decimal_bounds h)

end Strings

namespace JsonObject
variable {δ : Type}

mutual

/-- What the C types and the calls that build values see to: the range of an int, strings without NUL,
distinct keys. Doubles are asked for `P`. -/
def Ok (P : δ → Prop) : JsonObject δ → Prop
  | .null => True
  | .boolean _ => True
  | .double d => P d
  | .int i => -2^31 ≤ i ∧ i < 2^31
  | .object fields => (fields.map Prod.fst).Nodup ∧ FieldsOk P fields
  | .array items => ItemsOk P items
  | .string s => 0 ∉ s

def FieldsOk (P : δ → Prop) : List (List UInt8 × JsonObject δ) → Prop
  | [] => True
  | (key,val) :: fields => 0 ∉ key ∧ Ok P val ∧ FieldsOk P fields

def ItemsOk (P : δ → Prop) : List (JsonObject δ) → Prop
  | [] => True
  | val :: items => Ok P val ∧ ItemsOk P items

end

mutual

/-- How many levels the values inside take. -/
def nesting : JsonObject δ → Nat
  | .object fields => fieldsNesting fields
  | .array items => itemsNesting items
  | _ => 0

def fieldsNesting : List (List UInt8 × JsonObject δ) → Nat
  | [] => 0
  | (_,val) :: fields => max (nesting val + 1) (fieldsNesting fields)

def itemsNesting : List (JsonObject δ) → Nat
  | [] => 0
  | val :: items => max (nesting val + 1) (itemsNesting items)

end

section Membership
variable {P : δ → Prop}

theorem fieldsOk_iff {fields : List (List UInt8 × JsonObject δ)} :
    FieldsOk P fields ↔ ∀ e ∈ fields, 0 ∉ e.1 ∧ Ok P e.2 := by
  induction fields with
  | nil => simp [FieldsOk]
  | cons e fields ih => simp [FieldsOk,ih,and_assoc]

theorem itemsOk_iff {items : List (JsonObject δ)} : ItemsOk P items ↔ ∀ v ∈ items, Ok P v := by
  induction items with
  | nil => simp [ItemsOk]
  | cons v items ih => simp [ItemsOk,ih]

theorem fieldsNesting_le {fields : List (List UInt8 × JsonObject δ)} {n : Nat} :
    fieldsNesting fields ≤ n ↔ ∀ e ∈ fields, nesting e.2 + 1 ≤ n := by
  induction fields with
  | nil => simp [fieldsNesting]
  | cons e fields ih => simp [fieldsNesting,ih]

theorem itemsNesting_le {items : List (JsonObject δ)} {n : Nat} :
    itemsNesting items ≤ n ↔ ∀ v ∈ items, nesting v + 1 ≤ n := by
  induction items with
  | nil => simp [itemsNesting]
  | cons v items ih => simp [itemsNesting,ih]

end Membership

section Bounds
variable [DoubleFormat δ] {P : δ → Prop}

mutual

theorem text_bounds (hP : ∀ d, P d → ∀ b ∈ DoubleFormat.print d, 32 ≤ b) :
    ∀ v : JsonObject δ, Ok P v → ∀ b ∈ text v, 32 ≤ b
  | .null,_,b,hb => by
    rw [text,bytes_null] at hb
    revert hb b
    decide +kernel
  | .boolean true,_,b,hb => by
    rw [text,bytes_true] at hb
    revert hb b
    decide +kernel
  | .boolean false,_,b,hb => by
    rw [text,bytes_false] at hb
    revert hb b
    decide +kernel
  | .double d,h,b,hb => hP d h b hb
  | .int i,_,b,hb => by
    rcases formatInt_bounds hb with rfl | ⟨hle,_⟩
    · decide
    · exact UInt8.le_trans (show (32 : UInt8) ≤ 48 by decide) hle
  | .object fields,h,b,hb => by
    rw [text,List.mem_cons,List.mem_append] at hb
    rcases hb with rfl | hb | hb
    · decide
    · exact fieldsText_bounds hP fields h.2 true b hb
    · revert hb b
      decide +kernel
  | .array items,h,b,hb => by
    rw [text,List.mem_cons,List.mem_append] at hb
    rcases hb with rfl | hb | hb
    · decide
    · exact itemsText_bounds hP items h true b hb
    · revert hb b
      decide +kernel
  | .string s,_,b,hb => by
    rw [text,List.mem_cons,List.mem_append,List.mem_singleton] at hb
    rcases hb with rfl | hb | rfl
    · decide
    · exact escaped_bounds hb
    · decide

theorem fieldsText_bounds (hP : ∀ d, P d → ∀ b ∈ DoubleFormat.print d, 32 ≤ b) :
    ∀ fields : List (List UInt8 × JsonObject δ), FieldsOk P fields → ∀ first, ∀ b ∈ fieldsText first fields, 32 ≤ b
  | [],_,_,_,hb => by cases hb
  | (key,val) :: fields,h,first,b,hb => by
    simp only [fieldsText,List.mem_append] at hb
    rcases hb with ((hb | (hb | hb) | hb) | hb) | hb
    · revert hb b
      cases first <;> decide +kernel
    · revert hb b
      decide +kernel
    · exact escaped_bounds hb
    · revert hb b
      decide +kernel
    · exact text_bounds hP val h.2.1 b hb
    · exact fieldsText_bounds hP fields h.2.2 false b hb

theorem itemsText_bounds (hP : ∀ d, P d → ∀ b ∈ DoubleFormat.print d, 32 ≤ b) :
    ∀ items : List (JsonObject δ), ItemsOk P items → ∀ first, ∀ b ∈ itemsText first items, 32 ≤ b
  | [],_,_,_,hb => by cases hb
  | val :: items,h,first,b,hb => by
    simp only [itemsText,List.mem_append] at hb
    rcases hb with (hb | hb) | hb
    · revert hb b
      cases first <;> decide +kernel
    · exact text_bounds hP val h.1 b hb
    · exact itemsText_bounds hP items h.2 false b hb

end

end Bounds
end JsonObject
end Memqueue
