import Memqueue.Json.Pieces
import Memqueue.Json.Text

/-! What json_object.c writes, json_tokener.c reads back. -/
namespace Memqueue
namespace Tokener
variable {δ : Type} [DoubleFormat δ] {t t' : Tokener δ} {s s' : List UInt8} {c : UInt8}

/-- From `t` on `s` the loop comes to `t'` on `s'`, as far as what it returns shows. -/
def Leads (t : Tokener δ) (s : List UInt8) (t' : Tokener δ) (s' : List UInt8) : Prop :=
  ∀ r, Returns t' s' r → Returns t s r

theorem Leads.trans {t'' : Tokener δ} {s'' : List UInt8} (h : Leads t s t' s') (h' : Leads t' s' t'' s'') :
    Leads t s t'' s'' := fun r hr => h r (h' r hr)

theorem leads_of_turn (h : turn t c s = .next t' s') : Leads t (c :: s) t' s' := fun _ hr => returns_next (.inl h) hr

theorem leads_of_continues (h : Continues (turn t c s) t' s') : Leads t (c :: s) t' s' := fun _ hr => returns_next h hr

omit [DoubleFormat δ] in
theorem advance_eq (hc : c ≠ 0) : advance t c s = .next t s := if_neg hc

section Gaps

/-- White space is passed over. -/
theorem leads_eatws (hs : t.top.state = .eatws) (hd : s.dropWhile isspace = c :: s') (hc : c ≠ 47) :
    Leads t s (t.goto t.top.savedState) (c :: s') := by
  cases s with
  | nil => cases hd
  | cons b s =>
    refine leads_of_turn ?_
    rw [turn,hs]
    dsimp only
    rw [eatws,hd]
    exact if_neg hc

/-- White space in front makes no difference to what follows it. -/
theorem leads_trim (hs : t.top.state = .eatws) (hd : s.dropWhile isspace = c :: s') : Leads t (c :: s') t s := by
  rintro r ⟨fuel,hr⟩
  refine ⟨fuel,?_⟩
  have hdrop : (c :: s').dropWhile isspace = c :: s' := by
    rw [← hd,List.dropWhile_idempotent]
  cases fuel with
  | zero => cases hr
  | succ fuel =>
    cases s with
    | nil => cases hd
    | cons b s =>
      rw [loop] at hr ⊢
      have hturn : turn t c s' = turn t b s := by
        unfold turn
        rw [hs]
        dsimp only
        rw [eatws,eatws,hd,hdrop]
      rw [hturn]
      exact hr

end Gaps

section Strings

/-- Between quotes: the state `place`, quotes of the kind that is written. -/
structure Quoting (place : TokenerState) (t : Tokener δ) : Prop where
  state : t.top.state = place
  quoteChar : t.quoteChar = 34
  quoted : isQuoted place = true

variable {place : TokenerState} {close : Tokener δ → Tokener δ}

/-- A turn between quotes is a turn of the common loop. -/
def QuotedBy (place : TokenerState) (close : Tokener δ → Tokener δ) : Prop :=
  ∀ t : Tokener δ, t.top.state = place → ∀ c s, turn t c s = quoted t place (c :: s) close

theorem quotedBy_string : QuotedBy .string fun t : Tokener δ => (t.set (.newString t.pb)).eat .finish := by
  intro t hs c s
  rw [turn,hs]
  rfl

theorem quotedBy_objectField : QuotedBy .objectField fun t : Tokener δ =>
    { t with top := { t.top with objFieldName := some (cString t.pb) } }.eat .objectFieldEnd := by
  intro t hs c s
  rw [turn,hs]
  rfl

/-- What stays while a string is read. -/
structure Kept (t t' : Tokener δ) : Prop where
  below : t'.below = t.below
  current : t'.top.current = t.top.current
  objFieldName : t'.top.objFieldName = t.top.objFieldName
  err : t'.err = t.err

omit [DoubleFormat δ] in
theorem Kept.refl (t : Tokener δ) : Kept t t := ⟨rfl,rfl,rfl,rfl⟩

omit [DoubleFormat δ] in
theorem Kept.trans {t'' : Tokener δ} (h : Kept t t') (h' : Kept t' t'') : Kept t t'' :=
  ⟨h'.below.trans h.below,h'.current.trans h.current,h'.objFieldName.trans h.objFieldName,h'.err.trans h.err⟩

omit [DoubleFormat δ] in
/-- A loop that goes past its first character. -/
theorem scanRun_cons {stop : UInt8 → Bool} {found : Tokener δ → UInt8 → List UInt8 → Turn δ} (hs : stop c = false)
    (hc : c ≠ 0) : scanRun t stop (c :: s) found = scanRun (t.append [c]) stop s found := by
  have hp : (!stop c && decide (c ≠ 0)) = true := by simp [hs,hc]
  unfold scanRun
  rw [List.takeWhile_cons_of_pos (by exact hp),List.dropWhile_cons_of_pos (by exact hp)]
  simp only [append,List.append_assoc,List.cons_append,List.nil_append]

omit [DoubleFormat δ] in
/-- A loop that stops at once. -/
theorem scanRun_stop {stop : UInt8 → Bool} {found : Tokener δ → UInt8 → List UInt8 → Turn δ} (hs : stop c = true) :
    scanRun t stop (c :: s) found = found t c s := by
  have hp : ¬(!stop c && decide (c ≠ 0)) = true := by simp [hs]
  unfold scanRun
  rw [List.takeWhile_cons_of_neg (by exact hp),List.dropWhile_cons_of_neg (by exact hp)]
  simp only [append,List.append_nil,hs,if_true]

/-- A plain character is appended. -/
theorem leads_plain (hby : QuotedBy place close) (h : Quoting place t) {b : UInt8} (h34 : b ≠ 34) (h92 : b ≠ 92)
    (h0 : b ≠ 0) (hne : s ≠ []) : Leads t (b :: s) (t.append [b]) s := by
  obtain ⟨c,s,rfl⟩ := List.exists_cons_of_ne_nil hne
  refine leads_of_continues (.inr ⟨c,s,rfl,?_⟩)
  rw [hby t h.state,hby (t.append [b]) h.state,quoted,scanRun_cons (by simp [h.quoteChar,h34,h92]) h0]
  rfl

/-- The closing quote. -/
theorem leads_close (hby : QuotedBy place close) (h : Quoting place t) : Leads t (34 :: s) (close t) s := by
  refine leads_of_turn ?_
  rw [hby t h.state,quoted,scanRun_stop (by simp [h.quoteChar]),if_pos h.quoteChar.symm]
  exact advance_eq (by decide)

/-- At a backslash. -/
def escaping (t : Tokener δ) (place : TokenerState) : Tokener δ :=
  { t with top := { t.top with savedState := place, state := .stringEscape } }

theorem leads_backslash (hby : QuotedBy place close) (h : Quoting place t) :
    Leads t (92 :: s) (escaping t place) s := by
  refine leads_of_turn ?_
  rw [hby t h.state,quoted,scanRun_stop (by simp),if_neg (by rw [h.quoteChar]; decide)]
  exact advance_eq (by decide)

omit [DoubleFormat δ] in
theorem quoting_escaped (h : Quoting place t) (bs : List UInt8) :
    Quoting place (((escaping t place).append bs).goto place) := ⟨rfl,h.quoteChar,h.quoted⟩

/-- A letter after a backslash gives the byte it stands for. -/
theorem leads_letter {b l : UInt8} (hl : escapeLetter b = some l) :
    Leads (escaping t place) (l :: s) (((escaping t place).append [b]).goto place) s := by
  unfold escapeLetter at hl
  split at hl <;> cases hl <;> exact leads_of_turn rfl

/-- In a \u escape, with `n` digits read that stand for `ucsChar`. -/
def coding (t : Tokener δ) (place : TokenerState) (n : Nat) (ucsChar : UInt32) : Tokener δ :=
  { t with stPos := n, ucsChar, top := { t.top with savedState := place, state := .escapeUnicode } }

/-- The code after digit `c` in place `n`. -/
def coded (ucsChar : UInt32) (n : Nat) (c : UInt8) : UInt32 :=
  ucsChar + (hexdigit c <<< (UInt32.ofNat ((3 - n) * 4)))

theorem leads_digit {ucsChar : UInt32} {n : Nat} (hc : c ∈ jsonHexChars) (hn : n + 1 < 4) :
    Leads (coding t place n ucsChar) (c :: s) (coding t place (n + 1) (coded ucsChar n c)) s := by
  have h0 : c ≠ 0 := by
    rintro rfl
    revert hc
    decide
  refine leads_of_turn ?_
  show escapeUnicode _ c s = _
  rw [escapeUnicode,if_pos (.inr hc)]
  exact (if_neg (Nat.ne_of_lt hn)).trans (advance_eq h0)

theorem leads_lastDigit {ucsChar : UInt32} (hc : c ∈ jsonHexChars) :
    Leads (coding t place 3 ucsChar) (c :: s)
      (((coding t place 4 (coded ucsChar 3 c)).append (utfOut (coded ucsChar 3 c))).goto place) s := by
  have h0 : c ≠ 0 := by
    rintro rfl
    revert hc
    decide
  refine leads_of_turn ?_
  show escapeUnicode _ c s = _
  rw [escapeUnicode,if_pos (.inr hc)]
  exact (if_pos rfl).trans (advance_eq h0)

/-- The digits of a byte below 32 are hex digits, and stand for that byte. -/
theorem hex_of_lt {b : UInt8} (h : b < 32) :
    ∃ x y, escapeHex b = [92,117,48,48,x,y] ∧ x ∈ jsonHexChars ∧ y ∈ jsonHexChars ∧
      utfOut (coded (coded (coded (coded 0 0 48) 1 48) 2 x) 3 y) = [b] := by
  refine ⟨_,_,rfl,(hexDigits_mem b).1,(hexDigits_mem b).2,?_⟩
  have hall : ∀ n : Fin 32,
      utfOut (coded (coded (coded (coded 0 0 48) 1 48) 2 (jsonHexChars.getD (UInt8.ofNat n.val >>> 4).toNat 0)) 3
        (jsonHexChars.getD (UInt8.ofNat n.val &&& 0xf).toNat 0)) = [UInt8.ofNat n.val] := by
    decide +kernel
  have hlt : b.toNat < 32 := by simpa using UInt8.lt_iff_toNat_lt.mp h
  have hb := hall ⟨b.toNat,hlt⟩
  rwa [UInt8.ofNat_toNat] at hb

/-- One byte of a string as it is written. -/
theorem leads_byte (hby : QuotedBy place close) (h : Quoting place t) {b : UInt8} (h0 : b ≠ 0) (hne : s ≠ []) :
    ∃ t', Leads t (escapeByte b ++ s) t' s ∧ Quoting place t' ∧ t'.pb = t.pb ++ [b] ∧ Kept t t' := by
  unfold escapeByte
  split
  case h_1 l hl =>
    exact ⟨_,(leads_backslash hby h).trans (leads_letter hl),quoting_escaped h [b],rfl,⟨rfl,rfl,rfl,rfl⟩⟩
  case h_2 hnone =>
    split
    case isTrue hlt =>
      obtain ⟨x,y,htext,hx,hy,hutf⟩ := hex_of_lt hlt
      rw [htext]
      have h48 : (48 : UInt8) ∈ jsonHexChars := by decide
      have hu : Leads (escaping t place) (117 :: 48 :: 48 :: x :: y :: s) (coding t place 0 0)
          (48 :: 48 :: x :: y :: s) :=
        leads_of_turn rfl
      have hdigits := hu.trans ((leads_digit h48 (by decide)).trans
        ((leads_digit h48 (by decide)).trans ((leads_digit hx (by decide)).trans (leads_lastDigit hy))))
      refine ⟨_,(leads_backslash hby h).trans hdigits,⟨rfl,h.quoteChar,h.quoted⟩,?_,⟨rfl,rfl,rfl,rfl⟩⟩
      exact congrArg (t.pb ++ ·) hutf
    case isFalse hge =>
      have h34 : b ≠ 34 := by
        rintro rfl
        cases hnone
      have h92 : b ≠ 92 := by
        rintro rfl
        cases hnone
      exact ⟨_,leads_plain hby h h34 h92 h0 hne,⟨h.state,h.quoteChar,h.quoted⟩,rfl,⟨rfl,rfl,rfl,rfl⟩⟩

/-- A whole string up to its closing quote. -/
theorem leads_escaped (hby : QuotedBy place close) (h : Quoting place t) {str : List UInt8} (h0 : 0 ∉ str) :
    ∃ t', Leads t (escaped str ++ 34 :: s) (close t') s ∧ t'.pb = t.pb ++ str ∧ Kept t t' := by
  rw [escaped,cString_eq h0]
  induction str generalizing t with
  | nil => exact ⟨t,leads_close hby h,(List.append_nil _).symm,Kept.refl t⟩
  | cons b str ih =>
    have hb : b ≠ 0 := fun hb => h0 (hb ▸ List.mem_cons_self)
    rw [List.flatMap_cons,List.append_assoc]
    obtain ⟨t₁,hlead,hquot,hpb,hkept⟩ :=
      leads_byte (s := str.flatMap escapeByte ++ 34 :: s) hby h hb (by simp)
    obtain ⟨t₂,hlead₂,hpb₂,hkept₂⟩ := ih hquot fun hmem => h0 (List.mem_cons_of_mem _ hmem)
    refine ⟨t₂,hlead.trans hlead₂,?_,hkept.trans hkept₂⟩
    rw [hpb₂,hpb,List.append_assoc,List.singleton_append]

end Strings
section Values

/-- A level that is about to read a value. -/
structure Entering (t : Tokener δ) : Prop where
  state : t.top.state = .eatws
  savedState : t.top.savedState = .start

/-- `t'` is `t` with the value of its level read. -/
structure HasRead (t t' : Tokener δ) (v : JsonObject δ) : Prop where
  state : t'.top.state = .eatws
  savedState : t'.top.savedState = .finish
  current : t'.top.current = v
  below : t'.below = t.below
  err : t'.err = t.err

/-- A value begins where no white space does, and no comment. -/
theorem leads_start (h : Entering t) (hc : isspace c = false) (h47 : c ≠ 47) :
    Leads t (c :: s) (t.goto .start) (c :: s) := by
  have hlead := leads_eatws (t := t) (s := c :: s) h.state (List.dropWhile_cons_of_neg (by simp [hc])) h47
  rwa [h.savedState] at hlead

/-- In the word of a literal, of which `pb` has been read. -/
def spelling (t : Tokener δ) (state : TokenerState) (pb : List UInt8) : Tokener δ :=
  { t with pb, stPos := pb.length, top := { t.top with state } }

/-- A literal is read letter by letter. -/
theorem leads_word {state : TokenerState} {word : List UInt8}
    (hturn : ∀ n, (hn : n < word.length) → ∀ s,
      turn (spelling t state (word.take n)) word[n] s = .next (spelling t state (word.take (n + 1))) s)
    (s : List UInt8) : Leads (spelling t state []) (word ++ s) (spelling t state word) s := by
  have hrun : ∀ n ≤ word.length,
      Leads (spelling t state []) (word ++ s) (spelling t state (word.take n)) (word.drop n ++ s) := by
    intro n
    induction n with
    | zero => exact fun _ r hr => hr
    | succ n ih =>
      intro hn
      have hdrop : word.drop n ++ s = word[n] :: (word.drop (n + 1) ++ s) := by
        rw [List.drop_eq_getElem_cons hn,List.cons_append]
      exact (hdrop ▸ ih (Nat.le_of_succ_le hn)).trans (leads_of_turn (hturn n hn _))
  have hall := hrun word.length le_rfl
  rwa [List.take_length,List.drop_length,List.nil_append] at hall

theorem leads_null (h : Entering t) (c : UInt8) (s : List UInt8) :
    ∃ t', Leads t (bytes "null" ++ c :: s) t' (c :: s) ∧ HasRead t t' .null := by
  rw [bytes_null]
  have hstart : Leads (t.goto .start) ([110,117,108,108] ++ c :: s) (spelling t .null [])
      ([110,117,108,108] ++ c :: s) :=
    leads_of_turn rfl
  have hword : Leads (spelling t .null []) ([110,117,108,108] ++ c :: s) (spelling t .null [110,117,108,108])
      (c :: s) := by
    refine leads_word (fun n hn s => ?_) _
    have hn : n < 4 := hn
    interval_cases n <;> rfl
  have hend : Leads (spelling t .null [110,117,108,108]) (c :: s)
      ((((spelling t .null [110,117,108,108]).append [c]).set .null).eat .finish) (c :: s) := leads_of_turn rfl
  exact ⟨_,(leads_start h rfl (by decide)).trans (hstart.trans (hword.trans hend)),rfl,rfl,rfl,rfl,rfl⟩

theorem leads_true (h : Entering t) (c : UInt8) (s : List UInt8) :
    ∃ t', Leads t (bytes "true" ++ c :: s) t' (c :: s) ∧ HasRead t t' (.boolean true) := by
  rw [bytes_true]
  have hstart : Leads (t.goto .start) ([116,114,117,101] ++ c :: s) (spelling t .boolean [])
      ([116,114,117,101] ++ c :: s) :=
    leads_of_turn rfl
  have hword : Leads (spelling t .boolean []) ([116,114,117,101] ++ c :: s) (spelling t .boolean [116,114,117,101])
      (c :: s) := by
    refine leads_word (fun n hn s => ?_) _
    have hn : n < 4 := hn
    interval_cases n <;> rfl
  have hend : Leads (spelling t .boolean [116,114,117,101]) (c :: s)
      ((((spelling t .boolean [116,114,117,101]).append [c]).set (.boolean true)).eat .finish) (c :: s) :=
        leads_of_turn rfl
  exact ⟨_,(leads_start h rfl (by decide)).trans (hstart.trans (hword.trans hend)),rfl,rfl,rfl,rfl,rfl⟩

theorem leads_false (h : Entering t) (c : UInt8) (s : List UInt8) :
    ∃ t', Leads t (bytes "false" ++ c :: s) t' (c :: s) ∧ HasRead t t' (.boolean false) := by
  rw [bytes_false]
  have hstart : Leads (t.goto .start) ([102,97,108,115,101] ++ c :: s) (spelling t .boolean [])
      ([102,97,108,115,101] ++ c :: s) := leads_of_turn rfl
  have hword : Leads (spelling t .boolean []) ([102,97,108,115,101] ++ c :: s)
      (spelling t .boolean [102,97,108,115,101]) (c :: s) := by
    refine leads_word (fun n hn s => ?_) _
    have hn : n < 5 := hn
    interval_cases n <;> rfl
  have hend : Leads (spelling t .boolean [102,97,108,115,101]) (c :: s)
      ((((spelling t .boolean [102,97,108,115,101]).append [c]).set (.boolean false)).eat .finish) (c :: s) :=
    leads_of_turn rfl
  exact ⟨_,(leads_start h rfl (by decide)).trans (hstart.trans (hword.trans hend)),rfl,rfl,rfl,rfl,rfl⟩

/-- What follows a value in a text, or ends it. -/
def isFollower (c : UInt8) : Bool := c = 0 || c = 32 || c = 44

theorem not_isNumberChar {c : UInt8} (h : isFollower c = true) : isNumberChar c = false := by
  have hc : c = 0 ∨ c = 32 ∨ c = 44 := by simpa [isFollower,or_assoc] using h
  rcases hc with rfl | rfl | rfl <;> decide

theorem isNumberChar_of_digit {c : UInt8} (h : 48 ≤ c ∧ c ≤ 57) : isNumberChar c = true ∧ c ≠ 46 ∧ c ≠ 101 := by
  have hall : ∀ n : Fin 10, isNumberChar (UInt8.ofNat (48 + n.val)) = true ∧
      UInt8.ofNat (48 + n.val) ≠ 46 ∧ UInt8.ofNat (48 + n.val) ≠ 101 := by decide
  have h₁ : 48 ≤ c.toNat := by simpa using UInt8.le_iff_toNat_le.mp h.1
  have h₂ : c.toNat ≤ 57 := by simpa using UInt8.le_iff_toNat_le.mp h.2
  have hc := hall ⟨c.toNat - 48,by omega⟩
  rwa [show 48 + (c.toNat - 48) = c.toNat by omega,UInt8.ofNat_toNat] at hc

omit [DoubleFormat δ] in
theorem start_number {b : UInt8} (hb : isdigit b = true ∨ b = 45) :
    start t b s = .next ({ t with pb := [], isDouble := false }.goto .number) (b :: s) := by
  unfold start
  rw [if_neg,if_neg,if_neg,if_neg,if_neg,if_pos hb]
  · rfl
  · rintro (rfl | rfl | rfl | rfl) <;> exact absurd hb (by decide)
  · rintro (rfl | rfl) <;> exact absurd hb (by decide)
  · rintro (rfl | rfl) <;> exact absurd hb (by decide)
  · rintro rfl
    exact absurd hb (by decide)
  · rintro rfl
    exact absurd hb (by decide)

/-- A number, with the value the scan of its text gives. -/
theorem leads_number (h : Entering t) {b : UInt8} {text : List UInt8} {v : JsonObject δ}
    (hb : isdigit b = true ∨ b = 45) (hall : ∀ x ∈ b :: text, isNumberChar x = true)
    (hv : (if (b :: text).any (fun x => x = 46 || x = 101) then (DoubleFormat.scan (b :: text)).map .double
      else (scanInt (b :: text)).map .int) = some v) (hc : isFollower c = true) (s : List UInt8) :
    ∃ t', Leads t (b :: text ++ c :: s) t' (c :: s) ∧ HasRead t t' v := by
  have hspace : isspace b = false := by
    rcases hb with hb | rfl
    · simp only [isdigit,Bool.and_eq_true,decide_eq_true_eq] at hb
      unfold isspace
      grind
    · rfl
  have h47 : b ≠ 47 := by
    rintro rfl
    exact absurd hb (by decide)
  have htake : (b :: text ++ c :: s).takeWhile isNumberChar = b :: text := by
    rw [List.takeWhile_append_of_pos hall,List.takeWhile_cons_of_neg (by simp [not_isNumberChar hc]),List.append_nil]
  have hdrop : (b :: text ++ c :: s).dropWhile isNumberChar = c :: s := by
    rw [List.dropWhile_append_of_pos hall,List.dropWhile_cons_of_neg (by simp [not_isNumberChar hc])]
  have hfree : 0 ∉ b :: text := by
    intro hmem
    cases hall 0 hmem
  have hstart : Leads (t.goto .start) (b :: text ++ c :: s)
      ({ t.goto .start with pb := [], isDouble := false }.goto .number) (b :: text ++ c :: s) :=
    leads_of_turn (start_number hb)
  have hnumber : Leads ({ t.goto .start with pb := [], isDouble := false }.goto .number) (b :: text ++ c :: s)
      ((({ { t.goto .start with pb := [], isDouble := false }.goto .number with
        isDouble := (b :: text).any fun x => x = 46 || x = 101 }.append (b :: text)).set v).eat .finish) (c :: s) := by
    refine leads_of_turn ?_
    show number _ (b :: (text ++ c :: s)) = _
    rw [← List.cons_append,number,htake,hdrop]
    simp only [append,goto,Bool.false_or,List.nil_append,cString_eq hfree,hv]
    rfl
  exact ⟨_,(leads_start h hspace h47).trans (hstart.trans hnumber),rfl,rfl,rfl,rfl,rfl⟩

theorem leads_string (h : Entering t) {str : List UInt8} (h0 : 0 ∉ str) (s : List UInt8) :
    ∃ t', Leads t (34 :: (escaped str ++ [34]) ++ s) t' s ∧ HasRead t t' (.string str) := by
  have hopen : Leads (t.goto .start) (34 :: (escaped str ++ 34 :: s))
      ({ t.goto .start with pb := [], quoteChar := 34 }.goto .string) (escaped str ++ 34 :: s) := leads_of_turn rfl
  obtain ⟨t',hlead,hpb,hkept⟩ := leads_escaped (s := s) quotedBy_string
    (⟨rfl,rfl,rfl⟩ : Quoting .string ({ t.goto .start with pb := [], quoteChar := 34 }.goto .string)) h0
  have htext : 34 :: (escaped str ++ [34]) ++ s = 34 :: (escaped str ++ 34 :: s) := by simp
  rw [htext]
  refine ⟨_,(leads_start h rfl (by decide)).trans (hopen.trans hlead),rfl,rfl,?_,hkept.below,hkept.err⟩
  show JsonObject.newString t'.pb = _
  rw [hpb]
  exact congrArg JsonObject.string (cString_eq h0)

/-- A finished level hands its value to the level below. -/
theorem leads_finish {t₁ t₂ : Tokener δ} {v : JsonObject δ} {l : Srec δ} {below : List (Srec δ)} (h : HasRead t₁ t₂ v)
    (hb : t₁.below = l :: below) (hd : s.dropWhile isspace = c :: s') (hc : c ≠ 47) :
    Leads t₂ s { t₂ with obj := v, top := l, below } (c :: s') := by
  have heat := leads_eatws h.state hd hc
  rw [h.savedState] at heat
  refine heat.trans (leads_of_turn ?_)
  show finish (t₂.goto .finish) c s' = _
  have hbelow : (t₂.goto .finish).below = l :: below := h.below.trans hb
  rw [finish,hbelow,← h.current]
  rfl

/-- A value is read by the level that is entered for it, with any text behind it that can follow a value. -/
def Reads (v : JsonObject δ) : Prop :=
  ∀ (t : Tokener δ) (c : UInt8) (s : List UInt8), Entering t → t.depth + v.nesting < jsonTokenerMaxDepth →
    isFollower c = true → ∃ t', Leads t (v.text ++ c :: s) t' (c :: s) ∧ HasRead t t' v

/-- What a text of a value begins with. -/
def Opens (v : JsonObject δ) : Prop := ∃ b text, v.text = b :: text ∧ isspace b = false ∧ b ≠ 47 ∧ b ≠ 93

/-- The rest of a container, from behind one of its values: something follows that is not a comment. -/
structure Behind (c : UInt8) (s : List UInt8) : Prop where
  follower : isFollower c = true
  next : ∃ c' s', (c :: s).dropWhile isspace = c' :: s' ∧ c' ≠ 47

/-- An array that is being read: its items so far, and what comes next. -/
structure ArrayAt (saved : TokenerState) (items : List (JsonObject δ)) (t : Tokener δ) : Prop where
  state : t.top.state = .eatws
  savedState : t.top.savedState = saved
  current : t.top.current = .array items

theorem dropWhile_space {b : UInt8} {text : List UInt8} (hb : isspace b = false) :
    (32 :: b :: text).dropWhile isspace = b :: text := by
  rw [List.dropWhile_cons_of_pos (by decide),List.dropWhile_cons_of_neg (by simp [hb])]

theorem leads_item {v : JsonObject δ} {items : List (JsonObject δ)} (hv : Reads v) (ho : Opens v)
    (h : ArrayAt .array items t) (hdepth : t.depth + 1 + v.nesting < jsonTokenerMaxDepth) (hb : Behind c s) :
    ∃ t', Leads t (32 :: (v.text ++ c :: s)) t' (c :: s) ∧ ArrayAt .arraySep (items ++ [v]) t' ∧
      t'.below = t.below ∧ t'.err = t.err := by
  obtain ⟨b,text,htext,hspace,h47,h93⟩ := ho
  have heat : Leads t (32 :: (v.text ++ c :: s)) (t.goto .array) (v.text ++ c :: s) := by
    rw [htext,List.cons_append]
    have hlead := leads_eatws h.state (@dropWhile_space _ (text ++ c :: s) hspace) h47
    rwa [h.savedState] at hlead
  have hdown : Leads (t.goto .array) (v.text ++ c :: s) ((t.goto .array).goto .arrayAdd).push (v.text ++ c :: s) := by
    rw [htext,List.cons_append]
    refine leads_of_turn ?_
    show array (t.goto .array) b (text ++ c :: s) = _
    have hmax : jsonTokenerMaxDepth = 32 := rfl
    have hroom : ¬jsonTokenerMaxDepth - 1 ≤ (t.goto .array).depth := by
      rw [show (t.goto .array).depth = t.depth from rfl]
      omega
    rw [array,if_neg h93,descend,if_neg hroom]
    rfl
  have hpush : ((t.goto .array).goto .arrayAdd).push.depth = t.depth + 1 := rfl
  obtain ⟨t₂,hread,hdone⟩ := hv ((t.goto .array).goto .arrayAdd).push c s ⟨rfl,rfl⟩ (by rwa [hpush]) hb.follower
  obtain ⟨c',s',hd,hc'⟩ := hb.next
  have hpop := leads_finish hdone rfl hd hc'
  have hadd : Leads { t₂ with obj := v, top := { t.top with state := .arrayAdd }, below := t.below } (c' :: s')
      (({ t₂ with obj := v, top := { t.top with state := .arrayAdd }, below := t.below }.set
        (.array (items ++ [v]))).eat
        .arraySep) (c' :: s') := by
    refine leads_of_turn ?_
    show arrayAdd _ c' s' = _
    rw [arrayAdd,show JsonObject.arrayAdd t.top.current v = .array (items ++ [v]) by rw [h.current]; rfl]
    rfl
  exact ⟨_,heat.trans (hdown.trans (hread.trans (hpop.trans (hadd.trans (leads_trim rfl hd))))),⟨rfl,rfl,rfl⟩,rfl,
    hdone.err⟩

theorem behind_items (items : List (JsonObject δ)) (s : List UInt8) :
    ∃ c s₁, JsonObject.itemsText false items ++ 32 :: 93 :: s = c :: s₁ ∧ Behind c s₁ := by
  cases items with
  | nil => exact ⟨32,93 :: s,rfl,rfl,93,s,rfl,by decide⟩
  | cons v items => exact ⟨44,_,rfl,rfl,44,_,rfl,by decide⟩

/-- The items of an array from some item on, and its end. -/
theorem leads_items : ∀ (items : List (JsonObject δ)), (∀ v ∈ items, Reads v ∧ Opens v) →
    ∀ (first : Bool) (t : Tokener δ) (done : List (JsonObject δ)) (s : List UInt8),
      ArrayAt (if first then .array else .arraySep) done t →
      (∀ v ∈ items, t.depth + 1 + v.nesting < jsonTokenerMaxDepth) →
      ∃ t', Leads t (JsonObject.itemsText first items ++ 32 :: 93 :: s) t' s ∧
        HasRead t t' (.array (done ++ items)) := by
  intro items
  induction items with
  | nil =>
    intro _ first t done s h _
    have heat := leads_eatws (s := 32 :: 93 :: s) h.state rfl (by decide)
    rw [h.savedState] at heat
    rw [List.append_nil]
    cases first with
    | true => exact ⟨_,heat.trans (leads_of_turn rfl),rfl,rfl,h.current,rfl,rfl⟩
    | false => exact ⟨_,heat.trans (leads_of_turn rfl),rfl,rfl,h.current,rfl,rfl⟩
  | cons v items ih =>
    intro hall first t done s h hdepth
    obtain ⟨hread,hopen⟩ := hall v List.mem_cons_self
    obtain ⟨c,s₁,hrest,hbehind⟩ := behind_items items s
    have hrun : ∀ t : Tokener δ, ArrayAt .array done t →
        (∀ v' ∈ v :: items, t.depth + 1 + v'.nesting < jsonTokenerMaxDepth) →
        ∃ t', Leads t (32 :: (v.text ++ c :: s₁)) t' s ∧ HasRead t t' (.array (done ++ v :: items)) := by
      intro t h hdepth
      obtain ⟨t₁,hlead,hat,hbelow,herr⟩ := leads_item hread hopen h (hdepth v List.mem_cons_self) hbehind
      have hd₁ : t₁.depth = t.depth := congrArg List.length hbelow
      obtain ⟨t₂,hlead₂,hdone⟩ := ih (fun v' hv' => hall v' (List.mem_cons_of_mem _ hv')) false t₁ (done ++ [v]) s hat
        fun v' hv' => hd₁ ▸ hdepth v' (List.mem_cons_of_mem _ hv')
      rw [hrest] at hlead₂
      refine ⟨t₂,hlead.trans hlead₂,hdone.state,hdone.savedState,?_,hdone.below.trans hbelow,hdone.err.trans herr⟩
      rw [hdone.current,List.append_assoc,List.singleton_append]
    cases first with
    | true =>
      have htext : JsonObject.itemsText true (v :: items) ++ 32 :: 93 :: s = 32 :: (v.text ++ c :: s₁) := by
        rw [JsonObject.itemsText,List.append_assoc,List.append_assoc,hrest]
        rfl
      rw [htext]
      exact hrun t h hdepth
    | false =>
      have htext : JsonObject.itemsText false (v :: items) ++ 32 :: 93 :: s = 44 :: 32 :: (v.text ++ c :: s₁) := by
        rw [JsonObject.itemsText,List.append_assoc,List.append_assoc,hrest]
        rfl
      rw [htext]
      have heat := leads_eatws (s := 44 :: 32 :: (v.text ++ c :: s₁)) h.state rfl (by decide)
      rw [h.savedState] at heat
      have hcomma : Leads (t.goto .arraySep) (44 :: 32 :: (v.text ++ c :: s₁)) ((t.goto .arraySep).eat .array)
          (32 :: (v.text ++ c :: s₁)) := leads_of_turn rfl
      obtain ⟨t₂,hlead,hdone⟩ := hrun ((t.goto .arraySep).eat .array) ⟨rfl,rfl,h.current⟩ hdepth
      exact ⟨t₂,heat.trans (hcomma.trans hlead),hdone.state,hdone.savedState,hdone.current,hdone.below,hdone.err⟩

/-- An object that is being read: its fields so far, and what comes next. -/
structure ObjectAt (saved : TokenerState) (fields : List (List UInt8 × JsonObject δ)) (t : Tokener δ) : Prop where
  state : t.top.state = .eatws
  savedState : t.top.savedState = saved
  current : t.top.current = .object fields

/-- The name of a field, up to the value behind the colon. -/
theorem leads_key {fields : List (List UInt8 × JsonObject δ)} {key : List UInt8}
    (h : ObjectAt .objectFieldStart fields t)
    (h0 : 0 ∉ key) (s : List UInt8) :
    ∃ t', Leads t (32 :: 34 :: (escaped key ++ 34 :: 58 :: s)) t' s ∧ ObjectAt .objectValue fields t' ∧
      t'.top.objFieldName = some key ∧ t'.below = t.below ∧ t'.err = t.err := by
  have heat := leads_eatws (s := 32 :: 34 :: (escaped key ++ 34 :: 58 :: s)) h.state rfl (by decide)
  rw [h.savedState] at heat
  have hopen : Leads (t.goto .objectFieldStart) (34 :: (escaped key ++ 34 :: 58 :: s))
      ({ t.goto .objectFieldStart with pb := [], quoteChar := 34 }.goto .objectField) (escaped key ++ 34 :: 58 :: s) :=
    leads_of_turn rfl
  obtain ⟨t₁,hname,hpb,hkept⟩ := leads_escaped (s := 58 :: s) quotedBy_objectField
    (⟨rfl,rfl,rfl⟩ :
      Quoting .objectField ({ t.goto .objectFieldStart with pb := [], quoteChar := 34 }.goto .objectField)) h0
  have hkey : cString t₁.pb = key := by
    rw [hpb]
    exact cString_eq h0
  rw [hkey] at hname
  have hcolon : Leads ({ t₁ with top := { t₁.top with objFieldName := some key } }.eat .objectFieldEnd) (58 :: s)
      ((({ t₁ with top := { t₁.top with objFieldName := some key } }.eat .objectFieldEnd).goto .objectFieldEnd).eat
        .objectValue) s := (leads_eatws rfl rfl (by decide)).trans (leads_of_turn rfl)
  exact ⟨_,heat.trans (hopen.trans (hname.trans hcolon)),⟨rfl,rfl,hkept.current.trans h.current⟩,rfl,hkept.below,
    hkept.err⟩

theorem leads_field {fields : List (List UInt8 × JsonObject δ)} {key : List UInt8} {v : JsonObject δ} (hv : Reads v)
    (ho : Opens v) (h : ObjectAt .objectFieldStart fields t) (hdepth : t.depth + 1 + v.nesting < jsonTokenerMaxDepth)
    (h0 : 0 ∉ key) (hnew : key ∉ fields.map Prod.fst) (hb : Behind c s) :
    ∃ t', Leads t (32 :: 34 :: (escaped key ++ 34 :: 58 :: 32 :: (v.text ++ c :: s))) t' (c :: s) ∧
      ObjectAt .objectSep (fields ++ [(key,v)]) t' ∧ t'.below = t.below ∧ t'.err = t.err := by
  obtain ⟨t₀,hkey,hat,hname,hbelow,herr⟩ := leads_key h h0 (32 :: (v.text ++ c :: s))
  obtain ⟨b,text,htext,hspace,h47,_⟩ := ho
  have heat : Leads t₀ (32 :: (v.text ++ c :: s)) (t₀.goto .objectValue) (v.text ++ c :: s) := by
    rw [htext,List.cons_append]
    have hlead := leads_eatws hat.state (@dropWhile_space _ (text ++ c :: s) hspace) h47
    rwa [hat.savedState] at hlead
  have hdepth₀ : t₀.depth = t.depth := congrArg List.length hbelow
  have hdown : Leads (t₀.goto .objectValue) (v.text ++ c :: s) ((t₀.goto .objectValue).goto .objectValueAdd).push
      (v.text ++ c :: s) := by
    rw [htext,List.cons_append]
    refine leads_of_turn ?_
    show objectValue (t₀.goto .objectValue) b (text ++ c :: s) = _
    have hmax : jsonTokenerMaxDepth = 32 := rfl
    have hroom : ¬jsonTokenerMaxDepth - 1 ≤ (t₀.goto .objectValue).depth := by
      rw [show (t₀.goto .objectValue).depth = t₀.depth from rfl,hdepth₀]
      omega
    rw [objectValue,descend,if_neg hroom]
    rfl
  have hpush : ((t₀.goto .objectValue).goto .objectValueAdd).push.depth = t₀.depth + 1 := rfl
  obtain ⟨t₂,hread,hdone⟩ := hv ((t₀.goto .objectValue).goto .objectValueAdd).push c s ⟨rfl,rfl⟩
    (by rwa [hpush,hdepth₀]) hb.follower
  obtain ⟨c',s',hd,hc'⟩ := hb.next
  have hpop := leads_finish hdone rfl hd hc'
  have hput : t₀.top.current.objectAdd (t₀.top.objFieldName.getD []) v = .object (fields ++ [(key,v)]) := by
    rw [hat.current,hname]
    show JsonObject.object (Table.put fields (cString key) v) = _
    rw [cString_eq h0,Table.put,Table.remove_of_not_mem]
    intro w hw
    exact hnew (List.mem_map.mpr ⟨_,hw,rfl⟩)
  have hadd : Leads { t₂ with obj := v, top := { t₀.top with state := .objectValueAdd }, below := t₀.below } (c' :: s')
      ({ t₂ with obj := v, top := ⟨.eatws,.objectSep,.object (fields ++ [(key,v)]),none⟩, below := t₀.below })
      (c' :: s') := by
    refine leads_of_turn ?_
    show objectValueAdd _ c' s' = _
    rw [objectValueAdd,← hput]
    rfl
  exact ⟨_,hkey.trans (heat.trans (hdown.trans (hread.trans (hpop.trans (hadd.trans (leads_trim rfl hd)))))),
    ⟨rfl,rfl,rfl⟩,hbelow,hdone.err.trans herr⟩

theorem behind_fields (fields : List (List UInt8 × JsonObject δ)) (s : List UInt8) :
    ∃ c s₁, JsonObject.fieldsText false fields ++ 32 :: 125 :: s = c :: s₁ ∧ Behind c s₁ := by
  cases fields with
  | nil => exact ⟨32,125 :: s,rfl,rfl,125,s,rfl,by decide⟩
  | cons e fields => exact ⟨44,_,rfl,rfl,44,_,rfl,by decide⟩

/-- The fields of an object from some field on, and its end. -/
theorem leads_fields : ∀ (fields : List (List UInt8 × JsonObject δ)),
    (∀ e ∈ fields, 0 ∉ e.1 ∧ Reads e.2 ∧ Opens e.2) →
    ∀ (first : Bool) (t : Tokener δ) (done : List (List UInt8 × JsonObject δ)) (s : List UInt8),
      ObjectAt (if first then .objectFieldStart else .objectSep) done t → ((done ++ fields).map Prod.fst).Nodup →
      (∀ e ∈ fields, t.depth + 1 + e.2.nesting < jsonTokenerMaxDepth) →
      ∃ t', Leads t (JsonObject.fieldsText first fields ++ 32 :: 125 :: s) t' s ∧
        HasRead t t' (.object (done ++ fields)) := by
  intro fields
  induction fields with
  | nil =>
    intro _ first t done s h _ _
    have heat := leads_eatws (s := 32 :: 125 :: s) h.state rfl (by decide)
    rw [h.savedState] at heat
    rw [List.append_nil]
    cases first with
    | true => exact ⟨_,heat.trans (leads_of_turn rfl),rfl,rfl,h.current,rfl,rfl⟩
    | false => exact ⟨_,heat.trans (leads_of_turn rfl),rfl,rfl,h.current,rfl,rfl⟩
  | cons e fields ih =>
    obtain ⟨key,v⟩ := e
    intro hall first t done s h hnodup hdepth
    obtain ⟨h0,hread,hopen⟩ := hall (key,v) List.mem_cons_self
    obtain ⟨c,s₁,hrest,hbehind⟩ := behind_fields fields s
    have hnew : key ∉ done.map Prod.fst := by
      rw [List.map_append,List.map_cons,List.nodup_append] at hnodup
      intro hmem
      exact hnodup.2.2 key hmem key List.mem_cons_self rfl
    have hrun : ∀ t : Tokener δ, ObjectAt .objectFieldStart done t →
        (∀ e ∈ (key,v) :: fields, t.depth + 1 + e.2.nesting < jsonTokenerMaxDepth) →
        ∃ t', Leads t (32 :: 34 :: (escaped key ++ 34 :: 58 :: 32 :: (v.text ++ c :: s₁))) t' s ∧
          HasRead t t' (.object (done ++ (key,v) :: fields)) := by
      intro t h hdepth
      obtain ⟨t₁,hlead,hat,hbelow,herr⟩ := leads_field hread hopen h (hdepth _ List.mem_cons_self) h0 hnew hbehind
      have hd₁ : t₁.depth = t.depth := congrArg List.length hbelow
      have happ : done ++ (key,v) :: fields = done ++ [(key,v)] ++ fields := by
        rw [List.append_assoc,List.singleton_append]
      obtain ⟨t₂,hlead₂,hdone⟩ := ih (fun e he => hall e (List.mem_cons_of_mem _ he)) false t₁ (done ++ [(key,v)]) s hat
        (happ ▸ hnodup) fun e he => hd₁ ▸ hdepth e (List.mem_cons_of_mem _ he)
      rw [hrest] at hlead₂
      rw [happ]
      exact ⟨t₂,hlead.trans hlead₂,hdone.state,hdone.savedState,hdone.current,hdone.below.trans hbelow,
        hdone.err.trans herr⟩
    have htext : ∀ first : Bool, JsonObject.fieldsText first ((key,v) :: fields) ++ 32 :: 125 :: s =
        (if first then [] else [44]) ++ 32 :: 34 :: (escaped key ++ 34 :: 58 :: 32 :: (v.text ++ c :: s₁)) := by
      intro first
      rw [JsonObject.fieldsText,← hrest]
      simp
    rw [htext]
    cases first with
    | true => exact hrun t h hdepth
    | false =>
      have heat := leads_eatws (s := 44 :: 32 :: 34 :: (escaped key ++ 34 :: 58 :: 32 :: (v.text ++ c :: s₁)))
        h.state rfl
        (by decide)
      rw [h.savedState] at heat
      have hcomma : Leads (t.goto .objectSep) (44 :: 32 :: 34 :: (escaped key ++ 34 :: 58 :: 32 :: (v.text ++ c :: s₁)))
          ((t.goto .objectSep).eat .objectFieldStart)
          (32 :: 34 :: (escaped key ++ 34 :: 58 :: 32 :: (v.text ++ c :: s₁))) := leads_of_turn rfl
      obtain ⟨t₂,hlead,hdone⟩ := hrun ((t.goto .objectSep).eat .objectFieldStart) ⟨rfl,rfl,h.current⟩ hdepth
      exact ⟨t₂,heat.trans (hcomma.trans hlead),hdone.state,hdone.savedState,hdone.current,hdone.below,hdone.err⟩

end Values

section Numbers

theorem decimal_ne_nil (n : Nat) : decimal n ≠ [] := by
  unfold decimal
  split
  · exact List.cons_ne_nil _ _
  · rename_i h
    simp [Nat.digits_ne_nil_iff_ne_zero.mpr h]

/-- A number as it is written begins with a digit or a minus. -/
theorem formatInt_head (x : Int) : ∃ b text, formatInt x = b :: text ∧ (isdigit b = true ∨ b = 45) := by
  obtain ⟨d,ds,hd⟩ := List.exists_cons_of_ne_nil (decimal_ne_nil x.natAbs)
  have hb := decimal_bounds (hd ▸ List.mem_cons_self : d ∈ decimal x.natAbs)
  unfold formatInt
  split
  · exact ⟨45,_,rfl,.inr rfl⟩
  · exact ⟨d,ds,hd,.inl (by simpa [isdigit] using hb)⟩

theorem formatInt_numberChars (x : Int) {b : UInt8} (hb : b ∈ formatInt x) :
    isNumberChar b = true ∧ b ≠ 46 ∧ b ≠ 101 := by
  rcases formatInt_bounds hb with rfl | h
  · decide
  · exact isNumberChar_of_digit h

/-- An int is read back from its digits. -/
theorem scanInt_formatInt {x : Int} (hmin : -2^31 ≤ x) (hmax : x < 2^31) : scanInt (formatInt x) = some x := by
  have hvalue : (strtol (formatInt x)).bmod (2^32) = x := by
    rw [strtol_formatInt (by omega) (by omega)]
    exact wrapInt_of_bounds hmin hmax
  obtain ⟨d,ds,hd⟩ := List.exists_cons_of_ne_nil (decimal_ne_nil x.natAbs)
  have hbounds := decimal_bounds (hd ▸ List.mem_cons_self : d ∈ decimal x.natAbs)
  have hdigit : isdigit d = true := by simpa [isdigit] using hbounds
  have hspace : isspace d = false := by
    unfold isspace
    grind
  unfold scanInt
  rw [hvalue]
  by_cases hneg : x < 0
  · rw [formatInt,if_pos hneg,List.dropWhile_cons_of_neg (by decide)]
    dsimp only
    rw [hd]
    simp [hdigit]
  · rw [formatInt,if_neg hneg,hd,List.dropWhile_cons_of_neg (by simp [hspace])]
    have h43 : d ≠ 43 := by
      rintro rfl
      exact absurd hdigit (by decide)
    have h45 : d ≠ 45 := by
      rintro rfl
      exact absurd hdigit (by decide)
    simp [h43,h45,hdigit]

end Numbers

/-- A double whose text is a number with a point or an exponent, and scans to the double again. -/
structure ReadableDouble (d : δ) : Prop where
  head : ∃ b text, DoubleFormat.print d = b :: text ∧ (isdigit b = true ∨ b = 45)
  chars : ∀ b ∈ DoubleFormat.print d, isNumberChar b = true
  point : (DoubleFormat.print d).any (fun b => b = 46 || b = 101) = true
  scan : DoubleFormat.scan (DoubleFormat.print d) = some d

section Assembly

theorem opens_of_number {v : JsonObject δ} {b : UInt8} {text : List UInt8} (h : v.text = b :: text)
    (hb : isdigit b = true ∨ b = 45) : Opens v := by
  refine ⟨b,text,h,?_,?_,?_⟩
  · rcases hb with hb | rfl
    · simp only [isdigit,Bool.and_eq_true,decide_eq_true_eq] at hb
      unfold isspace
      grind
    · rfl
  · rintro rfl
    exact absurd hb (by decide)
  · rintro rfl
    exact absurd hb (by decide)

theorem opens_of_ok {v : JsonObject δ} (h : v.Ok ReadableDouble) : Opens v := by
  cases v with
  | null => exact ⟨110,_,rfl,rfl,by decide,by decide⟩
  | boolean b => cases b <;> exact ⟨_,_,rfl,rfl,by decide,by decide⟩
  | double d =>
    obtain ⟨b,text,htext,hb⟩ := ReadableDouble.head h
    exact opens_of_number htext hb
  | int i =>
    obtain ⟨b,text,htext,hb⟩ := formatInt_head i
    exact opens_of_number htext hb
  | object fields => exact ⟨123,_,rfl,rfl,by decide,by decide⟩
  | array items => exact ⟨91,_,rfl,rfl,by decide,by decide⟩
  | string s => exact ⟨34,_,rfl,rfl,by decide,by decide⟩

mutual

/-- Every value that can be built is read back from its text. -/
theorem reads_of_ok : ∀ v : JsonObject δ, v.Ok ReadableDouble → Reads v
  | .null,_ => fun _ c s ht _ _ => leads_null ht c s
  | .boolean true,_ => fun _ c s ht _ _ => leads_true ht c s
  | .boolean false,_ => fun _ c s ht _ _ => leads_false ht c s
  | .double d,h => by
    intro t c s ht _ hc
    obtain ⟨b,text,htext,hb⟩ := ReadableDouble.head h
    have hchars := ReadableDouble.chars h
    have hpoint := ReadableDouble.point h
    have hscan := ReadableDouble.scan h
    rw [JsonObject.text]
    rw [htext] at hchars hpoint hscan ⊢
    refine leads_number ht hb hchars ?_ hc s
    rw [if_pos hpoint,hscan]
    rfl
  | .int i,h => by
    intro t c s ht _ hc
    obtain ⟨b,text,htext,hb⟩ := formatInt_head i
    have hscan := scanInt_formatInt h.1 h.2
    have hchars : ∀ x ∈ formatInt i, isNumberChar x = true ∧ x ≠ 46 ∧ x ≠ 101 := fun x hx => formatInt_numberChars i hx
    rw [JsonObject.text]
    rw [htext] at hscan hchars ⊢
    refine leads_number ht hb (fun x hx => (hchars x hx).1) ?_ hc s
    have hany : ((b :: text).any fun x => x = 46 || x = 101) = false := by
      rw [List.any_eq_false]
      intro x hx
      simpa using (hchars x hx).2
    rw [hany,hscan]
    rfl
  | .string str,h => by
    intro t c s ht _ _
    exact leads_string ht h (c :: s)
  | .array items,h => by
    intro t c s ht hdepth _
    have hall := readsItems_of_ok items h
    have hopen : Leads (t.goto .start) (91 :: (JsonObject.itemsText true items ++ 32 :: 93 :: c :: s))
        (((t.goto .start).eat .array).set (.array [])) (JsonObject.itemsText true items ++ 32 :: 93 :: c :: s) :=
      leads_of_turn rfl
    have hnest : ∀ v ∈ items, t.depth + 1 + v.nesting < jsonTokenerMaxDepth := by
      intro v hv
      have hle := (JsonObject.itemsNesting_le.mp le_rfl) v hv
      rw [JsonObject.nesting] at hdepth
      omega
    obtain ⟨t',hlead,hdone⟩ := leads_items items (fun v hv =>
      ⟨hall v hv,opens_of_ok (JsonObject.itemsOk_iff.mp h v hv)⟩)
      true (((t.goto .start).eat .array).set (.array [])) [] (c :: s) ⟨rfl,rfl,rfl⟩ hnest
    have htext : JsonObject.text (.array items) ++ c :: s =
        91 :: (JsonObject.itemsText true items ++ 32 :: 93 :: c :: s) := by
      rw [JsonObject.text]
      simp
    rw [htext]
    exact ⟨t',(leads_start ht rfl (by decide)).trans (hopen.trans hlead),hdone.state,hdone.savedState,hdone.current,
      hdone.below,hdone.err⟩
  | .object fields,h => by
    intro t c s ht hdepth _
    have hall := readsFields_of_ok fields h.2
    have hopen : Leads (t.goto .start) (123 :: (JsonObject.fieldsText true fields ++ 32 :: 125 :: c :: s))
        (((t.goto .start).eat .objectFieldStart).set (.object []))
        (JsonObject.fieldsText true fields ++ 32 :: 125 :: c :: s) := leads_of_turn rfl
    have hnest : ∀ e ∈ fields, t.depth + 1 + e.2.nesting < jsonTokenerMaxDepth := by
      intro e he
      have hle := (JsonObject.fieldsNesting_le.mp le_rfl) e he
      rw [JsonObject.nesting] at hdepth
      omega
    have heach : ∀ e ∈ fields, 0 ∉ e.1 ∧ Reads e.2 ∧ Opens e.2 := by
      intro e he
      obtain ⟨hkey,hok⟩ := JsonObject.fieldsOk_iff.mp h.2 e he
      exact ⟨hkey,hall e he,opens_of_ok hok⟩
    obtain ⟨t',hlead,hdone⟩ := leads_fields fields heach true
      (((t.goto .start).eat .objectFieldStart).set (.object [])) []
      (c :: s) ⟨rfl,rfl,rfl⟩ h.1 hnest
    have htext : JsonObject.text (.object fields) ++ c :: s =
        123 :: (JsonObject.fieldsText true fields ++ 32 :: 125 :: c :: s) := by
      rw [JsonObject.text]
      simp
    rw [htext]
    exact ⟨t',(leads_start ht rfl (by decide)).trans (hopen.trans hlead),hdone.state,hdone.savedState,hdone.current,
      hdone.below,hdone.err⟩

theorem readsItems_of_ok : ∀ items : List (JsonObject δ), JsonObject.ItemsOk ReadableDouble items → ∀ v ∈ items, Reads v
  | [],_,_,hv => by cases hv
  | val :: items,h,v,hv => by
    rcases List.mem_cons.mp hv with hv | hv
    · exact hv ▸ reads_of_ok val h.1
    · exact readsItems_of_ok items h.2 v hv

theorem readsFields_of_ok : ∀ fields : List (List UInt8 × JsonObject δ), JsonObject.FieldsOk ReadableDouble fields →
    ∀ e ∈ fields, Reads e.2
  | [],_,_,he => by cases he
  | (key,val) :: fields,h,e,he => by
    rcases List.mem_cons.mp he with he | he
    · exact he ▸ reads_of_ok val h.2.1
    · exact readsFields_of_ok fields h.2.2 e he

end

end Assembly
end Tokener

section RoundTrip
open Tokener
variable {δ : Type} [DoubleFormat δ]

theorem numberChar_bounds {b : UInt8} (h : isNumberChar b = true) : 32 ≤ b := by
  have hmem : b ∈ jsonNumberChars := by
    simp only [isNumberChar,Bool.and_eq_true] at h
    exact List.contains_iff_mem.mp h.2
  have hall : ∀ x ∈ jsonNumberChars, 32 ≤ x := by decide +kernel
  exact hall b hmem

/-- No byte of the text of a value is a control character. -/
theorem text_printable {v : JsonObject δ} (h : v.Ok ReadableDouble) : ∀ b ∈ v.text, 32 ≤ b :=
  JsonObject.text_bounds (fun _ hd b hb => numberChar_bounds (hd.chars b hb)) v h

theorem text_no_nul {v : JsonObject δ} (h : v.Ok ReadableDouble) : 0 ∉ v.text :=
  fun hzero => absurd (text_printable h 0 hzero) (by decide)

/-- The C string a caller gets is the whole text of the value, whatever the buffer held before. -/
theorem stringAt_jsonObjectToJsonString {v : JsonObject δ} (h : v.Ok ReadableDouble) (hlen : v.text.length < 2^30)
    (pb : Option Printbuf) (junk : Buffer) :
    ∃ p, v.jsonObjectToJsonString pb junk = some p ∧ StringAt p.buf 0 v.text := by
  obtain ⟨p,hp,htext⟩ := JsonObject.exists_jsonObjectToJsonString pb junk hlen
  have hne : v.text ≠ [] := by
    obtain ⟨b,text,hcons,_⟩ := opens_of_ok h
    rw [hcons]
    exact List.cons_ne_nil b text
  refine ⟨p,hp,?_⟩
  rw [← htext] at hne ⊢
  exact Printbuf.stringAt_text hne (htext ▸ text_no_nul h)

/-- The parser gives back the value that a text was written for, for all values of up to 31 levels. -/
theorem jsonTokenerParse_text {v : JsonObject δ} (h : v.Ok ReadableDouble) (hn : v.nesting < jsonTokenerMaxDepth) :
    jsonTokenerParse v.text = some (.ok v) := by
  obtain ⟨t',hlead,hread⟩ := reads_of_ok v h (entered jsonTokenerNew) 0 [] ⟨rfl,rfl⟩ (by rwa [show
    (entered (jsonTokenerNew : Tokener δ)).depth = 0 from rfl,Nat.zero_add]) rfl
  have heat := leads_eatws (s := [0]) hread.state rfl (by decide)
  rw [hread.savedState] at heat
  have hout : turn (t'.goto .finish) 0 [] = .out (t'.goto .finish) 0 [0] := by
    show finish (t'.goto .finish) 0 [] = _
    have hbelow : (t'.goto .finish).below = [] := hread.below
    rw [finish,hbelow]
  have hret : Returns (entered jsonTokenerNew) (v.text ++ [0]) (t'.goto .finish,0,[0]) :=
    hlead _ (heat _ (returns_out hout))
  have hleave : ((t'.goto .finish).leave 0).err = .success := by
    unfold leave
    rw [if_neg (fun hc => hc.2.1 rfl)]
    exact hread.err
  rw [jsonTokenerParse,cString_eq (text_no_nul h),jsonTokenerParseEx_of_returns inv_jsonTokenerNew hret,Option.map_some,
    if_pos hleave,value,if_pos hleave]
  exact congrArg (fun v => some (Except.ok v)) hread.current

/-- json_tokener_parse on what json_object_to_json_string gives is the value again, whatever buffer was at hand. -/
theorem parse_jsonObjectToJsonString {v : JsonObject δ} (h : v.Ok ReadableDouble) (hn : v.nesting < jsonTokenerMaxDepth)
    (hlen : v.text.length < 2^30) (pb : Option Printbuf) (junk : Buffer) :
    ∃ p s, v.jsonObjectToJsonString pb junk = some p ∧ StringAt p.buf 0 s ∧ (∀ b ∈ s, 32 ≤ b) ∧
      jsonTokenerParse s = some (.ok v) := by
  obtain ⟨p,hp,hstring⟩ := stringAt_jsonObjectToJsonString h hlen pb junk
  exact ⟨p,v.text,hp,hstring,text_printable h,jsonTokenerParse_text h hn⟩

/-- { "a": [ -1.500000, -3, null, true ], "": "\"\n" } -/
def sampleObject : JsonObject Millionths :=
  .object [(bytes "a",.array [.double ⟨-1500000⟩,.int (-3),.null,.boolean true]),([],.string [34,10])]

theorem sampleObject_ok : sampleObject.Ok ReadableDouble := by
  have hdouble : ReadableDouble (⟨-1500000⟩ : Millionths) :=
    ⟨⟨45,_,rfl,.inr rfl⟩,by decide +kernel,by decide +kernel,by decide +kernel⟩
  refine ⟨by decide +kernel,⟨by decide +kernel,⟨hdouble,⟨?_,?_⟩,trivial,trivial,trivial⟩,⟨by simp,?_,trivial⟩⟩⟩
  · decide
  · decide
  · show (0 : UInt8) ∉ [34,10]
    decide

theorem parse_jsonObjectToJsonString_sample :
    ∃ p s, sampleObject.jsonObjectToJsonString none (fun _ => 7) = some p ∧ StringAt p.buf 0 s ∧ (∀ b ∈ s, 32 ≤ b) ∧
      jsonTokenerParse s = some (.ok sampleObject) :=
  parse_jsonObjectToJsonString sampleObject_ok (by decide +kernel) (by decide +kernel) none fun _ => 7

end RoundTrip
end Memqueue
