import Memqueue.Json.Tokener

/-! The tokener on any input, in pieces of any size: every call returns, the stack is never left,
and a value is only added to an array or an object of the right kind. -/
namespace Memqueue
namespace Tokener
variable {δ : Type} {t : Tokener δ} {c : UInt8} {s : List UInt8}

/-- The state that white space, a comment or an escape leads back to. -/
def afterwards (l : Srec δ) : TokenerState :=
  match l.state with
  | .eatws | .commentStart | .comment | .commentEol | .commentEnd | .stringEscape | .escapeUnicode => l.savedState
  | state => state

/-- What a level holds in a state. -/
def Typed (state : TokenerState) (current : JsonObject δ) (objFieldName : Option (List UInt8)) : Prop :=
  match state with
  | .array | .arrayAdd | .arraySep => ∃ items, current = .array items
  | .objectFieldStart | .objectField | .objectSep => ∃ fields, current = .object fields
  | .objectFieldEnd | .objectValue | .objectValueAdd => (∃ fields, current = .object fields) ∧
    ∃ key, objFieldName = some key
  | _ => True

/-- The states that are kept in `saved_state`. -/
def isSaved : TokenerState → Bool
  | .start | .finish | .string | .array | .arraySep | .objectFieldStart | .objectField | .objectFieldEnd
  | .objectValue | .objectSep => true
  | _ => false

def isEscape (state : TokenerState) : Bool := state = .stringEscape || state = .escapeUnicode

def isQuoted (state : TokenerState) : Bool := state = .string || state = .objectField

structure LevelOk (l : Srec δ) : Prop where
  saved : isSaved l.savedState = true
  typed : Typed (afterwards l) l.current l.objFieldName
  quoted : isEscape l.state = true → isQuoted l.savedState = true

/-- A level that waits for the value of the level above. -/
structure Parked (l : Srec δ) : Prop where
  saved : isSaved l.savedState = true
  state : l.state = .arrayAdd ∨ l.state = .objectValueAdd
  typed : Typed l.state l.current l.objFieldName

/-- How far into a word, or into the four digits of an escape, the tokener can be. Behind the fourth letter of a
boolean the word is false. -/
def PosOk (state : TokenerState) (stPos : Nat) (pb : List UInt8) : Prop :=
  match state with
  | .escapeUnicode => stPos < 4
  | .null => stPos ≤ jsonNullStr.length
  | .boolean => stPos ≤ jsonTrueStr.length ∨ stPos = jsonFalseStr.length ∧ caseEq jsonFalseStr pb = true
  | _ => True

structure Inv (t : Tokener δ) : Prop where
  depth_lt : t.depth < jsonTokenerMaxDepth
  top : LevelOk t.top
  below : ∀ l ∈ t.below, Parked l
  pos : PosOk t.top.state t.stPos t.pb

/-- How many turns a state can take without passing a character. -/
def rankOf : TokenerState → Nat
  | .arrayAdd | .objectValueAdd => 2
  | .finish => 3
  | .null | .boolean | .number => 5
  | .start => 6
  | .array | .objectValue => 8
  | _ => 0

def rank (t : Tokener δ) : Nat :=
  match t.top.state with
  | .eatws => rankOf t.top.savedState + 1
  | state => rankOf state

theorem rankOf_le (state : TokenerState) : rankOf state ≤ 8 := by
  cases state <;> decide

theorem rank_le (t : Tokener δ) : t.rank ≤ 9 := by
  unfold rank
  have hle := rankOf_le t.top.savedState
  split
  · omega
  · exact (rankOf_le _).trans (by omega)

/-- What every turn does: the invariant stays, and unless the loop is left the bound `n` is undercut. -/
def Keeps (n : Nat) : Turn δ → Prop
  | .next t s => t.Inv ∧ 10 * s.length + t.rank < n
  | .out t _ s => t.Inv ∧ 10 * s.length ≤ n

theorem keeps_advance {n : Nat} (h : t.Inv) (hn : 10 * s.length + 9 < n) : Keeps n (advance t c s) := by
  have hle := t.rank_le
  unfold advance
  split
  · exact ⟨h,by omega⟩
  · exact ⟨h,by omega⟩

theorem keeps_redo {n : Nat} (h : t.Inv) (hn : 10 * (s.length + 1) + t.rank < n) : Keeps n (redo t c s) :=
  ⟨h,by rwa [List.length_cons]⟩

theorem Inv.err (h : t.Inv) (err : TokenerError) : Inv { t with err } := ⟨h.depth_lt,h.top,h.below,h.pos⟩

theorem keeps_fail {n : Nat} (h : t.Inv) (err : TokenerError) (hn : 10 * (s.length + 1) ≤ n) :
    Keeps n (fail t err c s) := ⟨h.err err,by rwa [List.length_cons]⟩

/-- A turn that stays in the level `t.top` describes, or changes it within the same stack. -/
theorem Inv.of_top (h : t.Inv) {t' : Tokener δ} (hbelow : t'.below = t.below) (htop : LevelOk t'.top)
    (hpos : PosOk t'.top.state t'.stPos t'.pb) : t'.Inv where
  depth_lt := by
    rw [depth,hbelow]
    exact h.depth_lt
  top := htop
  below := by
    rw [hbelow]
    exact h.below
  pos := hpos

/-- More text does not change what it begins with. -/
theorem caseEq_append {word s : List UInt8} (h : caseEq word s = true) (bs : List UInt8) :
    caseEq word (s ++ bs) = true := by
  have hlen : word.length ≤ s.length := by
    rw [caseEq,decide_eq_true_eq] at h
    have hmap := congrArg List.length h
    rw [List.length_map,List.length_map,List.length_take] at hmap
    omega
  rwa [caseEq,List.take_append_of_le_length hlen,← caseEq]

theorem PosOk.append {state : TokenerState} {stPos : Nat} {pb : List UInt8} (h : PosOk state stPos pb)
    (bs : List UInt8) : PosOk state stPos (pb ++ bs) := by
  cases state with
  | boolean => exact h.imp_right fun hfalse => ⟨hfalse.1,caseEq_append hfalse.2 bs⟩
  | _ => exact h

theorem Inv.append (h : t.Inv) (bs : List UInt8) : (t.append bs).Inv :=
  ⟨h.depth_lt,h.top,h.below,h.pos.append bs⟩

/-- A state that is not led back from. -/
def isPlain : TokenerState → Bool
  | .eatws | .commentStart | .comment | .commentEol | .commentEnd | .stringEscape | .escapeUnicode => false
  | _ => true

/-- White space and comments. -/
def isGap : TokenerState → Bool
  | .eatws | .commentStart | .comment | .commentEol | .commentEnd => true
  | _ => false

theorem isPlain_of_isSaved {state : TokenerState} (h : isSaved state = true) : isPlain state = true := by
  cases state <;> first | rfl | cases h

theorem afterwards_plain {l : Srec δ} (h : isPlain l.state = true) : afterwards l = l.state := by
  unfold afterwards
  split <;> simp_all [isPlain]

theorem afterwards_gap {l : Srec δ} (h : isGap l.state = true) : afterwards l = l.savedState := by
  unfold afterwards
  split <;> simp_all [isGap]

theorem not_isEscape {state : TokenerState} (h : isPlain state = true ∨ isGap state = true) :
    isEscape state = false := by
  cases state <;> simp_all [isPlain,isGap,isEscape]

/-- Only the words and the escapes count. -/
theorem posOk_of_isSaved {state : TokenerState} (h : isSaved state = true) (stPos : Nat) (pb : List UInt8) :
    PosOk state stPos pb := by
  cases state <;> trivial

theorem posOk_of_isGap {state : TokenerState} (h : isGap state = true) (stPos : Nat) (pb : List UInt8) :
    PosOk state stPos pb := by
  cases state <;> trivial

theorem LevelOk.plain {l : Srec δ} (hs : isSaved l.savedState = true) (hp : isPlain l.state = true)
    (ht : Typed l.state l.current l.objFieldName) : LevelOk l := by
  refine ⟨hs,?_,?_⟩
  · rwa [afterwards_plain hp]
  · intro he
    rw [not_isEscape (.inl hp)] at he
    cases he

theorem LevelOk.gap {l : Srec δ} (hs : isSaved l.savedState = true) (hg : isGap l.state = true)
    (ht : Typed l.savedState l.current l.objFieldName) : LevelOk l := by
  refine ⟨hs,?_,?_⟩
  · rwa [afterwards_gap hg]
  · intro he
    rw [not_isEscape (.inr hg)] at he
    cases he

/-- A turn to a plain state. -/
theorem Inv.plain (h : t.Inv) {t' : Tokener δ} (hbelow : t'.below = t.below) (hs : t'.top.savedState = t.top.savedState)
    (hp : isPlain t'.top.state = true) (ht : Typed t'.top.state t'.top.current t'.top.objFieldName)
    (hpos : PosOk t'.top.state t'.stPos t'.pb) : t'.Inv :=
  h.of_top hbelow (LevelOk.plain (hs ▸ h.top.saved) hp ht) hpos

/-- A turn to white space or into a comment. -/
theorem Inv.gap (h : t.Inv) {t' : Tokener δ} (hbelow : t'.below = t.below) (hs : isSaved t'.top.savedState = true)
    (hg : isGap t'.top.state = true) (ht : Typed t'.top.savedState t'.top.current t'.top.objFieldName) : t'.Inv :=
  h.of_top hbelow (LevelOk.gap hs hg ht) (posOk_of_isGap hg _ _)

theorem Inv.typed_plain (h : t.Inv) (hp : isPlain t.top.state = true) :
    Typed t.top.state t.top.current t.top.objFieldName := by
  rw [← afterwards_plain hp]
  exact h.top.typed

theorem Inv.typed_gap (h : t.Inv) (hg : isGap t.top.state = true) :
    Typed t.top.savedState t.top.current t.top.objFieldName := by
  rw [← afterwards_gap hg]
  exact h.top.typed

/-- The value of the level is read. -/
theorem Inv.finished (h : t.Inv) (v : JsonObject δ) : ((t.set v).eat .finish).Inv := h.gap rfl rfl rfl trivial

section States

/-- A loop that passes over a run of characters. -/
theorem keeps_scanRun {n : Nat} {stop : UInt8 → Bool} {found : Tokener δ → UInt8 → List UInt8 → Turn δ} (h : t.Inv)
    (hpos : t.rank < n) (hn : 10 * s.length ≤ n)
    (hfound : ∀ run c s', s'.length < s.length → stop c = true → Keeps n (found (t.append run) c s')) :
    Keeps n (scanRun t stop s found) := by
  have hlen := (List.dropWhile_suffix fun c => !stop c && c ≠ 0 : s.dropWhile _ <:+ s).length_le
  unfold scanRun
  dsimp only
  split
  case h_1 =>
    refine ⟨h.append _,?_⟩
    rw [List.length_nil,Nat.mul_zero,Nat.zero_add]
    exact hpos
  case h_2 c s' heq =>
    rw [heq,List.length_cons] at hlen
    split
    · exact hfound _ c s' hlen ‹_›
    · exact ⟨h.append _,by omega⟩

theorem keeps_eatws (h : t.Inv) (hs : t.top.state = .eatws) :
    Keeps (10 * (s.length + 1) + t.rank) (eatws t (c :: s)) := by
  have hlen := (List.dropWhile_suffix isspace : (c :: s).dropWhile isspace <:+ c :: s).length_le
  have ht := h.typed_gap (by rw [hs]; rfl)
  have hplain := isPlain_of_isSaved h.top.saved
  have hrank : t.rank = rankOf t.top.savedState + 1 := by rw [rank,hs]
  unfold eatws
  split
  case h_1 => exact ⟨h,by simp only [List.length_nil]; omega⟩
  case h_2 c' s' heq =>
    rw [heq] at hlen
    simp only [List.length_cons] at hlen
    split
    · refine keeps_advance (h.gap rfl h.top.saved rfl ht) ?_
      omega
    · refine keeps_redo (h.plain rfl rfl hplain ht (posOk_of_isSaved h.top.saved _ _)) ?_
      have hback : (t.goto t.top.savedState).rank = rankOf t.top.savedState := by
        unfold rank
        split
        case h_1 he =>
          have : t.top.savedState = .eatws := he
          rw [this] at hplain
          cases hplain
        case h_2 => rfl
      omega

theorem keeps_start (h : t.Inv) (hs : t.top.state = .start) : Keeps (10 * (s.length + 1) + t.rank) (start t c s) := by
  have hrank : t.rank = 6 := by rw [rank,hs]; rfl
  unfold start
  split_ifs
  · exact keeps_advance (h.gap rfl rfl rfl ⟨[],rfl⟩) (by omega)
  · exact keeps_advance (h.gap rfl rfl rfl ⟨[],rfl⟩) (by omega)
  · exact keeps_redo (h.plain rfl rfl rfl trivial (Nat.zero_le _)) (by rw [hrank]; exact Nat.lt_succ_self _)
  · exact keeps_advance (h.plain rfl rfl rfl trivial trivial) (by omega)
  · exact keeps_redo (h.plain rfl rfl rfl trivial (.inl (Nat.zero_le _))) (by rw [hrank]; exact Nat.lt_succ_self _)
  · exact keeps_redo (h.plain rfl rfl rfl trivial trivial) (by rw [hrank]; exact Nat.lt_succ_self _)
  · exact keeps_fail h _ (by omega)

/-- A finished level is taken off; the level below waits for its value. -/
theorem keeps_finish (h : t.Inv) (hs : t.top.state = .finish) :
    Keeps (10 * (s.length + 1) + t.rank) (finish t c s) := by
  have hrank : t.rank = 3 := by rw [rank,hs]; rfl
  have hlt := h.depth_lt
  unfold finish
  split
  case h_1 => exact ⟨h,by rw [List.length_cons]; omega⟩
  case h_2 top below heq =>
    have hbelow := h.below
    rw [heq] at hbelow
    have hpark := hbelow top List.mem_cons_self
    have hplain : isPlain top.state = true := by
      rcases hpark.state with he | he <;> rw [he] <;> rfl
    rw [depth,heq,List.length_cons] at hlt
    refine keeps_redo ⟨Nat.lt_of_succ_lt hlt,LevelOk.plain hpark.saved hplain hpark.typed,?_,?_⟩ ?_
    · exact fun l hl => hbelow l (List.mem_cons_of_mem _ hl)
    · show PosOk top.state t.stPos t.pb
      rcases hpark.state with he | he <;> (rw [he]; trivial)
    · have hr : rank { t with obj := t.top.current, top, below } = 2 := by
        rcases hpark.state with he | he <;> rw [rank,he] <;> rfl
      omega

theorem keeps_null (h : t.Inv) (hs : t.top.state = .null) : Keeps (10 * (s.length + 1) + t.rank) (null t c s) := by
  have hrank : t.rank = 5 := by rw [rank,hs]; rfl
  have hplain : isPlain t.top.state = true := by rw [hs]; rfl
  have hpos := h.pos
  rw [hs] at hpos
  unfold null
  dsimp only
  split_ifs with _ hend
  · exact keeps_redo ((h.append [c]).finished .null) (by rw [hrank]; exact Nat.lt_succ_self _)
  · refine keeps_advance (h.plain rfl rfl hplain (h.typed_plain hplain) ?_) (by omega)
    show PosOk t.top.state (t.stPos + 1) _
    rw [hs]
    exact Nat.lt_of_le_of_ne hpos hend
  · exact keeps_fail (h.append [c]) _ (by omega)

/-- No text begins with both words. -/
theorem not_caseEq_true {pb : List UInt8} (h : caseEq jsonFalseStr pb = true) : caseEq jsonTrueStr pb = false := by
  rw [caseEq,decide_eq_true_eq] at h
  rw [caseEq,decide_eq_false_iff_not]
  intro htrue
  cases pb with
  | nil => cases h
  | cons c pb =>
    have hf : tolower c = 102 := (List.cons.inj h).1
    have ht : tolower c = 116 := (List.cons.inj htrue).1
    rw [hf] at ht
    exact absurd ht (by decide)

theorem keeps_boolean (h : t.Inv) (hs : t.top.state = .boolean) :
    Keeps (10 * (s.length + 1) + t.rank) (boolean t c s) := by
  have hrank : t.rank = 5 := by rw [rank,hs]; rfl
  have hplain : isPlain t.top.state = true := by rw [hs]; rfl
  have hpos := (h.append [c]).pos
  rw [show (t.append [c]).top.state = t.top.state from rfl,hs] at hpos
  have hgo : PosOk .boolean (t.stPos + 1) (t.append [c]).pb → Inv { t.append [c] with stPos := t.stPos + 1 } := by
    intro hnext
    refine h.plain rfl rfl hplain (h.typed_plain hplain) ?_
    show PosOk t.top.state (t.stPos + 1) _
    rwa [hs]
  unfold boolean
  dsimp only
  split_ifs with htrue hend hfalse hend
  · exact keeps_redo ((h.append [c]).finished _) (by rw [hrank]; exact Nat.lt_succ_self _)
  · refine keeps_advance (hgo (.inl ?_)) (by omega)
    rcases hpos with hpos | ⟨hfive,hword⟩
    · exact Nat.lt_of_le_of_ne hpos hend
    · -- at the fifth letter the word is not true any more
      have hlong : jsonTrueStr.take ((t.append [c]).stPos + 1) = jsonTrueStr := by
        rw [hfive]
        rfl
      rw [hlong,not_caseEq_true hword] at htrue
      cases htrue
  · exact keeps_redo ((h.append [c]).finished _) (by rw [hrank]; exact Nat.lt_succ_self _)
  · refine keeps_advance (hgo ?_) (by omega)
    rcases hpos with hpos | ⟨hfive,-⟩
    · rcases Nat.lt_or_eq_of_le hpos with hlt | hfour
      · exact .inl hlt
      · have hword : jsonFalseStr.take ((t.append [c]).stPos + 1) = jsonFalseStr := by
          rw [hfour]
          rfl
        rw [hword] at hfalse
        exact .inr ⟨congrArg (· + 1) hfour,hfalse⟩
    · exact absurd hfive hend
  · exact keeps_fail (h.append [c]) _ (by omega)

theorem keeps_number [DoubleFormat δ] (h : t.Inv) (hs : t.top.state = .number) :
    Keeps (10 * (s.length + 1) + t.rank) (number t (c :: s)) := by
  have hrank : t.rank = 5 := by rw [rank,hs]; rfl
  have hplain : isPlain t.top.state = true := by rw [hs]; rfl
  have hlen := (List.dropWhile_suffix isNumberChar : (c :: s).dropWhile isNumberChar <:+ c :: s).length_le
  have hread : ∀ run isDouble, ({ t with isDouble }.append run).Inv := by
    intro run isDouble
    exact h.plain rfl rfl hplain (h.typed_plain hplain) (h.pos.append run)
  unfold number
  dsimp only
  split
  case h_1 => exact ⟨hread _ _,by rw [hrank]; change 10 * 0 + t.rank < _; omega⟩
  case h_2 c' s' heq =>
    rw [heq] at hlen
    simp only [List.length_cons] at hlen
    split
    · exact keeps_redo ((hread _ _).finished _) (by rw [hrank]; change _ + 4 < _; omega)
    · exact keeps_fail (hread _ _) _ (by omega)

theorem keeps_commentStart (h : t.Inv) (hs : t.top.state = .commentStart) :
    Keeps (10 * (s.length + 1) + t.rank) (commentStart t c s) := by
  have ht := h.typed_gap (by rw [hs]; rfl)
  unfold commentStart
  split_ifs
  · exact keeps_advance (h.gap rfl h.top.saved rfl ht) (by omega)
  · exact keeps_advance (h.gap rfl h.top.saved rfl ht) (by omega)
  · exact keeps_fail h _ (by omega)

theorem keeps_comment (h : t.Inv) (hs : t.top.state = .comment) :
    Keeps (10 * (s.length + 1) + t.rank) (comment t (c :: s)) := by
  have ht := h.typed_gap (by rw [hs]; rfl)
  refine keeps_scanRun h (by omega) (by rw [List.length_cons]; omega) fun run c' s' hlt _ => ?_
  exact keeps_advance (h.gap rfl h.top.saved rfl ht) (by simp only [List.length_cons] at hlt; omega)

theorem keeps_commentEol (h : t.Inv) (hs : t.top.state = .commentEol) :
    Keeps (10 * (s.length + 1) + t.rank) (commentEol t (c :: s)) := by
  have ht := h.typed_gap (by rw [hs]; rfl)
  refine keeps_scanRun h (by omega) (by rw [List.length_cons]; omega) fun run c' s' hlt _ => ?_
  exact keeps_advance (h.gap rfl h.top.saved rfl ht) (by simp only [List.length_cons] at hlt; omega)

theorem keeps_commentEnd (h : t.Inv) (hs : t.top.state = .commentEnd) :
    Keeps (10 * (s.length + 1) + t.rank) (commentEnd t c s) := by
  have ht := h.typed_gap (by rw [hs]; rfl)
  unfold commentEnd
  dsimp only
  split_ifs
  · exact keeps_advance (h.gap rfl h.top.saved rfl ht) (by omega)
  · exact keeps_advance (h.gap rfl h.top.saved rfl ht) (by omega)

/-- Between quotes, `self` is the state that an escape leads back to. -/
theorem keeps_quoted {self : TokenerState} {close : Tokener δ → Tokener δ} (h : t.Inv) (hs : t.top.state = self)
    (hself : isQuoted self = true) (hclose : ∀ t' : Tokener δ, t'.Inv → t'.top.state = self → (close t').Inv) :
    Keeps (10 * (s.length + 1) + t.rank) (quoted t self (c :: s) close) := by
  have hplain : isPlain t.top.state = true := by
    rw [hs]
    cases self <;> first | rfl | cases hself
  have ht := h.typed_plain hplain
  refine keeps_scanRun h (by omega) (by rw [List.length_cons]; omega) fun run c' s' hlt _ => ?_
  simp only [List.length_cons] at hlt
  split_ifs
  · exact keeps_advance (hclose _ (h.append run) hs) (by omega)
  · refine keeps_advance (h.of_top rfl ⟨?_,?_,fun _ => hself⟩ trivial) (by omega)
    · show isSaved self = true
      cases self <;> first | rfl | cases hself
    · rwa [hs] at ht

theorem keeps_string (h : t.Inv) (hs : t.top.state = .string) :
    Keeps (10 * (s.length + 1) + t.rank) (string t (c :: s)) :=
  keeps_quoted h hs rfl fun _ h' _ => h'.finished _

theorem keeps_objectField (h : t.Inv) (hs : t.top.state = .objectField) :
    Keeps (10 * (s.length + 1) + t.rank) (objectField t (c :: s)) := by
  refine keeps_quoted h hs rfl fun t' h' hs' => h'.gap rfl rfl rfl ⟨?_,_,rfl⟩
  have ht := h'.typed_plain (by rw [hs']; rfl)
  rwa [hs'] at ht

/-- An escape ends in the state it came from. -/
theorem Inv.unescaped (h : t.Inv) (he : isEscape t.top.state = true) {t' : Tokener δ} (hbelow : t'.below = t.below)
    (htop : t'.top = { t.top with state := t.top.savedState }) : t'.Inv := by
  have hback : afterwards t.top = t.top.savedState := by
    unfold afterwards
    split <;> simp_all [isEscape]
  have ht := h.top.typed
  rw [hback] at ht
  refine h.plain hbelow ?_ ?_ ?_ ?_ <;> rw [htop]
  · exact isPlain_of_isSaved h.top.saved
  · exact ht
  · exact posOk_of_isSaved h.top.saved _ _

theorem keeps_stringEscape (h : t.Inv) (hs : t.top.state = .stringEscape) :
    Keeps (10 * (s.length + 1) + t.rank) (stringEscape t c s) := by
  have he : isEscape t.top.state = true := by rw [hs]; rfl
  unfold stringEscape
  split_ifs
  · exact keeps_advance (h.unescaped he rfl rfl) (by omega)
  · exact keeps_advance (h.unescaped he rfl rfl) (by omega)
  · exact keeps_advance (h.unescaped he rfl rfl) (by omega)
  · exact keeps_advance (h.unescaped he rfl rfl) (by omega)
  · exact keeps_advance (h.unescaped he rfl rfl) (by omega)
  · refine keeps_advance (h.of_top rfl ⟨h.top.saved,?_,fun _ => h.top.quoted he⟩ (Nat.zero_lt_succ 3)) (by omega)
    have ht := h.top.typed
    rw [afterwards,hs] at ht
    exact ht
  · exact keeps_fail h _ (by omega)

theorem keeps_escapeUnicode (h : t.Inv) (hs : t.top.state = .escapeUnicode) :
    Keeps (10 * (s.length + 1) + t.rank) (escapeUnicode t c s) := by
  have he : isEscape t.top.state = true := by rw [hs]; rfl
  have hpos := h.pos
  rw [hs] at hpos
  have hlt : t.stPos < 4 := hpos
  unfold escapeUnicode
  dsimp only
  split_ifs
  · exact keeps_advance (h.unescaped he rfl rfl) (by omega)
  · refine keeps_advance (h.of_top rfl h.top ?_) (by omega)
    show PosOk t.top.state (t.stPos + 1) t.pb
    rw [hs]
    show t.stPos + 1 < 4
    omega
  · exact keeps_fail h _ (by omega)

/-- One level down; the present one waits in `back`. -/
theorem keeps_descend {back : TokenerState} (h : t.Inv) (hrank : t.rank = 8)
    (hback : back = .arrayAdd ∨ back = .objectValueAdd) (ht : Typed back t.top.current t.top.objFieldName) :
    Keeps (10 * (s.length + 1) + t.rank) (descend t back c s) := by
  have hmax : jsonTokenerMaxDepth = 32 := rfl
  unfold descend
  split
  · exact keeps_fail h _ (by omega)
  · refine keeps_redo ⟨?_,LevelOk.gap rfl rfl trivial,?_,trivial⟩ (by rw [hrank]; exact Nat.lt_succ_self _)
    · show t.depth + 1 < jsonTokenerMaxDepth
      omega
    · intro l hl
      rcases List.mem_cons.mp hl with rfl | hl
      · exact ⟨h.top.saved,hback,ht⟩
      · exact h.below l hl

theorem keeps_array (h : t.Inv) (hs : t.top.state = .array) : Keeps (10 * (s.length + 1) + t.rank) (array t c s) := by
  have ht := h.typed_plain (by rw [hs]; rfl)
  rw [hs] at ht
  unfold array
  split
  · exact keeps_advance (h.gap rfl rfl rfl trivial) (by omega)
  · exact keeps_descend h (by rw [rank,hs]; rfl) (.inl rfl) ht

theorem keeps_arrayAdd (h : t.Inv) (hs : t.top.state = .arrayAdd) :
    Keeps (10 * (s.length + 1) + t.rank) (arrayAdd t c s) := by
  have hrank : t.rank = 2 := by rw [rank,hs]; rfl
  have ht := h.typed_plain (by rw [hs]; rfl)
  rw [hs] at ht
  obtain ⟨items,hitems⟩ := ht
  refine keeps_redo (h.gap rfl rfl rfl ⟨items ++ [t.obj],?_⟩) (by rw [hrank]; exact Nat.lt_succ_self _)
  show t.top.current.arrayAdd t.obj = _
  rw [hitems]
  rfl

theorem keeps_separator {close : UInt8} {more : TokenerState} {err : TokenerError} (h : t.Inv)
    (hm : isSaved more = true) (ht : Typed more t.top.current t.top.objFieldName) :
    Keeps (10 * (s.length + 1) + t.rank) (separator t close more err c s) := by
  unfold separator
  split_ifs
  · exact keeps_advance (h.gap rfl rfl rfl trivial) (by omega)
  · exact keeps_advance (h.gap rfl hm rfl ht) (by omega)
  · exact keeps_fail h _ (by omega)

theorem keeps_objectFieldStart (h : t.Inv) (hs : t.top.state = .objectFieldStart) :
    Keeps (10 * (s.length + 1) + t.rank) (objectFieldStart t c s) := by
  have ht := h.typed_plain (by rw [hs]; rfl)
  rw [hs] at ht
  unfold objectFieldStart
  split_ifs
  · exact keeps_advance (h.gap rfl rfl rfl trivial) (by omega)
  · exact keeps_advance (h.plain rfl rfl rfl ht trivial) (by omega)
  · exact keeps_fail h _ (by omega)

theorem keeps_objectFieldEnd (h : t.Inv) (hs : t.top.state = .objectFieldEnd) :
    Keeps (10 * (s.length + 1) + t.rank) (objectFieldEnd t c s) := by
  have ht := h.typed_plain (by rw [hs]; rfl)
  rw [hs] at ht
  unfold objectFieldEnd
  split_ifs
  · exact keeps_advance (h.gap rfl rfl rfl ht) (by omega)
  · exact keeps_fail h _ (by omega)

theorem keeps_objectValueAdd (h : t.Inv) (hs : t.top.state = .objectValueAdd) :
    Keeps (10 * (s.length + 1) + t.rank) (objectValueAdd t c s) := by
  have hrank : t.rank = 2 := by rw [rank,hs]; rfl
  have ht := h.typed_plain (by rw [hs]; rfl)
  rw [hs] at ht
  obtain ⟨⟨fields,hfields⟩,key,hkey⟩ := ht
  refine keeps_redo (h.gap rfl rfl rfl ⟨Table.put fields (cString key) t.obj,?_⟩)
    (by rw [hrank]; exact Nat.lt_succ_self _)
  show t.top.current.objectAdd (t.top.objFieldName.getD []) t.obj = _
  rw [hfields,hkey]
  rfl

end States

/-- One turn of the main loop. -/
theorem keeps_turn [DoubleFormat δ] (h : t.Inv) : Keeps (10 * (s.length + 1) + t.rank) (turn t c s) := by
  unfold turn
  split
  case h_1 hs => exact keeps_eatws h hs
  case h_2 hs => exact keeps_start h hs
  case h_3 hs => exact keeps_finish h hs
  case h_4 hs => exact keeps_null h hs
  case h_5 hs => exact keeps_commentStart h hs
  case h_6 hs => exact keeps_comment h hs
  case h_7 hs => exact keeps_commentEol h hs
  case h_8 hs => exact keeps_commentEnd h hs
  case h_9 hs => exact keeps_string h hs
  case h_10 hs => exact keeps_stringEscape h hs
  case h_11 hs => exact keeps_escapeUnicode h hs
  case h_12 hs => exact keeps_boolean h hs
  case h_13 hs => exact keeps_number h hs
  case h_14 hs => exact keeps_array h hs
  case h_15 hs => exact keeps_arrayAdd h hs
  case h_16 hs =>
    have ht := h.typed_plain (by rw [hs]; rfl)
    rw [hs] at ht
    exact keeps_separator h rfl ht
  case h_17 hs => exact keeps_objectFieldStart h hs
  case h_18 hs => exact keeps_objectField h hs
  case h_19 hs => exact keeps_objectFieldEnd h hs
  case h_20 hs =>
    have ht := h.typed_plain (by rw [hs]; rfl)
    rw [hs] at ht
    exact keeps_descend h (by rw [rank,hs]; rfl) (.inr rfl) ht
  case h_21 hs => exact keeps_objectValueAdd h hs
  case h_22 hs =>
    have ht := h.typed_plain (by rw [hs]; rfl)
    rw [hs] at ht
    exact keeps_separator h rfl ht

/-- The loop is left within ten turns a character. -/
theorem loop_returns [DoubleFormat δ] {fuel : Nat} (h : t.Inv) (hfuel : 10 * s.length + t.rank < fuel) :
    ∃ r, loop fuel t s = some r ∧ r.1.Inv ∧ r.2.2.length ≤ s.length := by
  induction fuel generalizing t s with
  | zero => omega
  | succ fuel ih =>
    cases s with
    | nil => exact ⟨_,rfl,h.err _,le_rfl⟩
    | cons c s =>
      have hkeeps := keeps_turn (c := c) (s := s) h
      rw [loop]
      cases hturn : turn t c s with
      | next t' s' =>
        rw [hturn] at hkeeps
        obtain ⟨hinv,hlt⟩ := hkeeps
        have hle := t.rank_le
        rw [List.length_cons] at hfuel ⊢
        obtain ⟨r,hr,hinv',hlen⟩ := ih (s := s') hinv (by omega)
        exact ⟨r,hr,hinv',by omega⟩
      | out t' c' s' =>
        rw [hturn] at hkeeps
        have hle := t.rank_le
        have hn := hkeeps.2
        exact ⟨_,rfl,hkeeps.1,show s'.length ≤ s.length + 1 by omega⟩

/-- Where the main loop can stand that has begun with `t` and the input `s`. -/
inductive Turns [DoubleFormat δ] (t : Tokener δ) (s : List UInt8) : Tokener δ → List UInt8 → Prop
  | entry : Turns t s t s
  | turn {t' t'' : Tokener δ} {c : UInt8} {s' s'' : List UInt8} : Turns t s t' (c :: s') →
      t'.turn c s' = .next t'' s'' → Turns t s t'' s''

theorem Turns.inv [DoubleFormat δ] {t' : Tokener δ} {s' : List UInt8} (hturns : Turns t s t' s') (h : t.Inv) :
    t'.Inv := by
  induction hturns with
  | entry => exact h
  | @turn t' t'' c s' s'' _ hturn ih =>
    have hkeeps := keeps_turn (c := c) (s := s') ih
    rw [hturn] at hkeeps
    exact hkeeps.1

end Tokener

section Calls
variable {δ : Type}
open Tokener

/-- The tokener a call starts the loop with. -/
def entered (t : Tokener δ) : Tokener δ := { t with err := .success, obj := .null }

theorem inv_entered {t : Tokener δ} (h : t.Inv) : (entered t).Inv := ⟨h.depth_lt,h.top,h.below,h.pos⟩

theorem inv_jsonTokenerNew : (jsonTokenerNew : Tokener δ).Inv :=
  ⟨Nat.zero_lt_succ 31,LevelOk.gap rfl rfl trivial,by rintro l ⟨⟩,trivial⟩

variable [DoubleFormat δ]

/-- A call returns, whatever the input and whatever calls came before. -/
theorem jsonTokenerParseEx_returns {t : Tokener δ} (h : t.Inv) (str : List UInt8) :
    ∃ r, jsonTokenerParseEx t str = some r ∧ r.1.Inv := by
  have hle := rank_le (entered t)
  obtain ⟨r,hr,hinv,_⟩ : ∃ r, loop (10 * str.length + 10) (entered t) str = some r ∧ _ :=
    loop_returns (inv_entered h) (by omega)
  refine ⟨(r.1.leave r.2.1,str.length - r.2.2.length),?_,hinv.depth_lt,hinv.top,hinv.below,hinv.pos⟩
  rw [jsonTokenerParseEx,← entered,hr]
  rfl

/-- The calls that parse a text in pieces. -/
def parsePieces (t : Tokener δ) (pieces : List (List UInt8)) : Option (Tokener δ) :=
  pieces.foldlM (fun t str => (jsonTokenerParseEx t str).map Prod.fst) t

end Calls
end Memqueue
