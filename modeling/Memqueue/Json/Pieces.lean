import Memqueue.Json.Turns

/-! A text that reaches the tokener in pieces is parsed as if it had come at once. A turn is compared
with the same turn when more input follows and when the dead variable `obj` holds something else. -/
namespace Memqueue

section Spans
variable {α : Type} {p : α → Bool} {s u : List α}

/-- A run that takes all of the input goes on in what follows. -/
theorem span_of_nil (h : s.dropWhile p = []) :
    s.takeWhile p = s ∧ (s ++ u).takeWhile p = s ++ u.takeWhile p ∧ (s ++ u).dropWhile p = u.dropWhile p := by
  have hs : s.takeWhile p = s := by
    have hcat := List.takeWhile_append_dropWhile (p := p) (l := s)
    rwa [h,List.append_nil] at hcat
  rw [List.takeWhile_append,List.dropWhile_append,hs,h]
  exact ⟨rfl,by simp,by simp⟩

theorem span_of_cons {c : α} {s' : List α} (h : s.dropWhile p = c :: s') :
    (s ++ u).takeWhile p = s.takeWhile p ∧ (s ++ u).dropWhile p = c :: (s' ++ u) := by
  have hlen : (s.takeWhile p).length ≠ s.length := by
    have hcat := congrArg List.length (List.takeWhile_append_dropWhile (p := p) (l := s))
    rw [h,List.length_append,List.length_cons] at hcat
    omega
  rw [List.takeWhile_append,List.dropWhile_append,h]
  exact ⟨by rw [if_neg hlen],by simp⟩

end Spans

namespace Tokener
variable {δ : Type} {t t' : Tokener δ} {o : JsonObject δ} {c : UInt8} {s u : List UInt8}

def withObj (t : Tokener δ) (o : JsonObject δ) : Tokener δ := { t with obj := o }

/-- `obj` is not read before it is set again. -/
def Idle (t : Tokener δ) : Prop := t.top.state ≠ .arrayAdd ∧ t.top.state ≠ .objectValueAdd

/-- The turn `y` goes on with `t` and `s`, or does at once what `t` does on `s`. -/
def Continues [DoubleFormat δ] (y : Turn δ) (t : Tokener δ) (s : List UInt8) : Prop :=
  y = .next t s ∨ ∃ c s', s = c :: s' ∧ y = turn t c s'

/-- What the turn `x` of `t` becomes with `o` in `obj` and with `u` behind the input: the same turn, a loop
that passes over more of the input, or the end of a level, which sets `obj`. -/
def Uniform [DoubleFormat δ] (o : JsonObject δ) (u : List UInt8) (t : Tokener δ) (x y : Turn δ) : Prop :=
  match x with
  | .out t' c s => (t.err ≠ .continued → t'.err ≠ .continued) ∧ y = .out (t'.withObj o) c (s ++ u)
  | .next t' s => t'.err = t.err ∧
    (t'.Idle ∧ Continues y (t'.withObj o) (s ++ u) ∨ ¬t'.Idle ∧ s ≠ [] ∧ y = .next t' (s ++ u))

theorem idle_of_isSaved {t : Tokener δ} (h : isSaved t.top.state = true) : t.Idle := by
  constructor <;> intro he <;> rw [he] at h <;> cases h

theorem idle_of_isGap {t : Tokener δ} (h : isGap t.top.state = true) : t.Idle := by
  constructor <;> intro he <;> rw [he] at h <;> cases h

variable [DoubleFormat δ]

theorem uniform_advance (he : t'.err = t.err) (hi : t'.Idle) :
    Uniform o u t (advance t' c s) (advance (t'.withObj o) c (s ++ u)) := by
  unfold advance
  split
  · exact ⟨fun h => he ▸ h,rfl⟩
  · exact ⟨he,.inl ⟨hi,.inl rfl⟩⟩

theorem uniform_redo (he : t'.err = t.err) (hi : t'.Idle) :
    Uniform o u t (redo t' c s) (redo (t'.withObj o) c (s ++ u)) := ⟨he,.inl ⟨hi,.inl rfl⟩⟩

theorem uniform_fail {err : TokenerError} (he : err ≠ .continued) :
    Uniform o u t (fail t' err c s) (fail (t'.withObj o) err c (s ++ u)) := ⟨fun _ => he,rfl⟩

theorem uniform_scanRun {stop : UInt8 → Bool} {found : Tokener δ → UInt8 → List UInt8 → Turn δ} (hi : t.Idle)
    (hturn : ∀ run c u', turn ((t.append run).withObj o) c u' = scanRun ((t.append run).withObj o) stop (c :: u') found)
    (hfound : ∀ run c s', Uniform o u t (found (t.append run) c s') (found ((t.append run).withObj o) c (s' ++ u))) :
    Uniform o u t (scanRun t stop s found) (scanRun (t.withObj o) stop (s ++ u) found) := by
  unfold scanRun
  dsimp only
  split
  case h_1 heq =>
    obtain ⟨hs,htake,hdrop⟩ := span_of_nil (u := u) heq
    refine ⟨rfl,.inl ⟨hi,?_⟩⟩
    rw [htake,hdrop]
    cases u with
    | nil => exact .inl (by simp only [append,withObj,List.append_nil,List.takeWhile_nil,List.dropWhile_nil,hs])
    | cons c u =>
      refine .inr ⟨c,u,rfl,?_⟩
      rw [hturn,scanRun,hs]
      simp only [append,withObj,List.append_assoc]
  case h_2 c s' heq =>
    obtain ⟨htake,hdrop⟩ := span_of_cons (u := u) heq
    rw [htake,hdrop]
    dsimp only
    split
    · exact hfound _ c s'
    · exact ⟨fun h => h,rfl⟩

section States

theorem uniform_eatws (h : t.Inv) (hs : t.top.state = .eatws) :
    Uniform o u t (eatws t (c :: s)) (eatws (t.withObj o) (c :: s ++ u)) := by
  have hi : t.Idle := idle_of_isGap (by rw [hs]; rfl)
  unfold eatws
  split
  case h_1 heq =>
    obtain ⟨_,_,hdrop⟩ := span_of_nil (u := u) heq
    refine ⟨rfl,.inl ⟨hi,?_⟩⟩
    rw [hdrop]
    cases u with
    | nil => exact .inl rfl
    | cons c' u =>
      refine .inr ⟨c',u,rfl,?_⟩
      rw [turn,show (t.withObj o).top.state = .eatws from hs]
      rfl
  case h_2 c' s' heq =>
    obtain ⟨_,hdrop⟩ := span_of_cons (u := u) heq
    rw [hdrop]
    dsimp only
    split
    · exact uniform_advance rfl (idle_of_isGap rfl)
    · exact uniform_redo rfl (idle_of_isSaved h.top.saved)

theorem uniform_start : Uniform o u t (start t c s) (start (t.withObj o) c (s ++ u)) := by
  unfold start
  split_ifs
  · exact uniform_advance rfl (idle_of_isGap rfl)
  · exact uniform_advance rfl (idle_of_isGap rfl)
  · exact uniform_redo rfl ⟨nofun,nofun⟩
  · exact uniform_advance rfl ⟨nofun,nofun⟩
  · exact uniform_redo rfl ⟨nofun,nofun⟩
  · exact uniform_redo rfl ⟨nofun,nofun⟩
  · exact uniform_fail nofun

/-- The value of the finished level replaces what was in `obj`. -/
theorem uniform_finish (h : t.Inv) : Uniform o u t (finish t c s) (finish (t.withObj o) c (s ++ u)) := by
  unfold finish
  dsimp only [withObj]
  split
  case h_1 => exact ⟨fun h => h,rfl⟩
  case h_2 top below heq =>
    refine ⟨rfl,.inr ⟨?_,List.cons_ne_nil _ _,rfl⟩⟩
    have hpark := h.below top (heq ▸ List.mem_cons_self)
    rintro ⟨h₁,h₂⟩
    exact hpark.state.elim h₁ h₂

theorem uniform_null (hi : t.Idle) : Uniform o u t (null t c s) (null (t.withObj o) c (s ++ u)) := by
  unfold null
  dsimp only [append,withObj]
  split_ifs
  · exact uniform_redo rfl (idle_of_isGap rfl)
  · exact uniform_advance rfl hi
  · exact uniform_fail nofun

theorem uniform_boolean (hi : t.Idle) : Uniform o u t (boolean t c s) (boolean (t.withObj o) c (s ++ u)) := by
  unfold boolean
  dsimp only [append,withObj]
  split_ifs
  · exact uniform_redo rfl (idle_of_isGap rfl)
  · exact uniform_advance rfl hi
  · exact uniform_redo rfl (idle_of_isGap rfl)
  · exact uniform_advance rfl hi
  · exact uniform_fail nofun

theorem uniform_number (hs : t.top.state = .number) :
    Uniform o u t (number t (c :: s)) (number (t.withObj o) (c :: s ++ u)) := by
  have hi : t.Idle := by
    constructor <;> rw [hs] <;> nofun
  unfold number
  dsimp only [append,withObj]
  split
  case h_1 heq =>
    obtain ⟨hall,htake,hdrop⟩ := span_of_nil (u := u) heq
    refine ⟨rfl,.inl ⟨hi,?_⟩⟩
    rw [htake,hdrop]
    cases u with
    | nil => exact .inl (by simp only [withObj,List.append_nil,List.takeWhile_nil,List.dropWhile_nil,hall])
    | cons c' u =>
      refine .inr ⟨c',u,rfl,?_⟩
      rw [hall,turn]
      dsimp only [withObj]
      rw [hs]
      simp only [number,append,List.append_assoc,List.any_append,Bool.or_assoc]
  case h_2 c' s' heq =>
    obtain ⟨htake,hdrop⟩ := span_of_cons (u := u) heq
    rw [htake,hdrop]
    dsimp only
    split
    case h_1 v hv =>
      rw [hv]
      exact uniform_redo rfl (idle_of_isGap rfl)
    case h_2 hv =>
      rw [hv]
      exact uniform_fail nofun

theorem uniform_commentStart : Uniform o u t (commentStart t c s) (commentStart (t.withObj o) c (s ++ u)) := by
  unfold commentStart
  split_ifs
  · exact uniform_advance rfl (idle_of_isGap rfl)
  · exact uniform_advance rfl (idle_of_isGap rfl)
  · exact uniform_fail nofun

theorem uniform_comment (hs : t.top.state = .comment) :
    Uniform o u t (comment t (c :: s)) (comment (t.withObj o) (c :: s ++ u)) := by
  refine uniform_scanRun (idle_of_isGap (by rw [hs]; rfl)) ?_ fun _ _ _ => uniform_advance rfl (idle_of_isGap rfl)
  intro run c u'
  rw [turn,show ((t.append run).withObj o).top.state = .comment from hs]
  rfl

theorem uniform_commentEol (hs : t.top.state = .commentEol) :
    Uniform o u t (commentEol t (c :: s)) (commentEol (t.withObj o) (c :: s ++ u)) := by
  refine uniform_scanRun (idle_of_isGap (by rw [hs]; rfl)) ?_ fun _ _ _ => uniform_advance rfl (idle_of_isGap rfl)
  intro run c u'
  rw [turn,show ((t.append run).withObj o).top.state = .commentEol from hs]
  rfl

theorem uniform_commentEnd : Uniform o u t (commentEnd t c s) (commentEnd (t.withObj o) c (s ++ u)) := by
  unfold commentEnd
  dsimp only
  split_ifs
  · exact uniform_advance rfl (idle_of_isGap rfl)
  · exact uniform_advance rfl (idle_of_isGap rfl)

theorem uniform_string (hs : t.top.state = .string) :
    Uniform o u t (string t (c :: s)) (string (t.withObj o) (c :: s ++ u)) := by
  unfold string quoted
  refine uniform_scanRun (by constructor <;> rw [hs] <;> nofun) ?_ fun run c s' => ?_
  · intro run c u'
    rw [turn,show ((t.append run).withObj o).top.state = .string from hs]
    rfl
  · dsimp only [append,withObj]
    split
    · exact uniform_advance rfl (idle_of_isGap rfl)
    · exact uniform_advance rfl ⟨nofun,nofun⟩

theorem uniform_objectField (hs : t.top.state = .objectField) :
    Uniform o u t (objectField t (c :: s)) (objectField (t.withObj o) (c :: s ++ u)) := by
  unfold objectField quoted
  refine uniform_scanRun (by constructor <;> rw [hs] <;> nofun) ?_ fun run c s' => ?_
  · intro run c u'
    rw [turn,show ((t.append run).withObj o).top.state = .objectField from hs]
    rfl
  · dsimp only [append,withObj]
    split
    · exact uniform_advance rfl (idle_of_isGap rfl)
    · exact uniform_advance rfl ⟨nofun,nofun⟩

theorem uniform_stringEscape (h : t.Inv) :
    Uniform o u t (stringEscape t c s) (stringEscape (t.withObj o) c (s ++ u)) := by
  unfold stringEscape
  split_ifs
  · exact uniform_advance rfl (idle_of_isSaved h.top.saved)
  · exact uniform_advance rfl (idle_of_isSaved h.top.saved)
  · exact uniform_advance rfl (idle_of_isSaved h.top.saved)
  · exact uniform_advance rfl (idle_of_isSaved h.top.saved)
  · exact uniform_advance rfl (idle_of_isSaved h.top.saved)
  · exact uniform_advance rfl ⟨nofun,nofun⟩
  · exact uniform_fail nofun

theorem uniform_escapeUnicode (h : t.Inv) (hi : t.Idle) :
    Uniform o u t (escapeUnicode t c s) (escapeUnicode (t.withObj o) c (s ++ u)) := by
  have hpos : (t.withObj o).stPos = t.stPos := rfl
  unfold escapeUnicode
  simp only [hpos]
  split_ifs
  · exact uniform_advance rfl (idle_of_isSaved h.top.saved)
  · exact uniform_advance rfl hi
  · exact uniform_fail nofun

theorem uniform_descend {back : TokenerState} :
    Uniform o u t (descend t back c s) (descend (t.withObj o) back c (s ++ u)) := by
  unfold descend
  rw [show (t.withObj o).depth = t.depth from rfl]
  split
  · exact uniform_fail nofun
  · exact uniform_redo rfl (idle_of_isGap rfl)

theorem uniform_array : Uniform o u t (array t c s) (array (t.withObj o) c (s ++ u)) := by
  unfold array
  split
  · exact uniform_advance rfl (idle_of_isGap rfl)
  · exact uniform_descend

theorem uniform_separator {close : UInt8} {more : TokenerState} {err : TokenerError} (he : err ≠ .continued) :
    Uniform o u t (separator t close more err c s) (separator (t.withObj o) close more err c (s ++ u)) := by
  unfold separator
  split_ifs
  · exact uniform_advance rfl (idle_of_isGap rfl)
  · exact uniform_advance rfl (idle_of_isGap rfl)
  · exact uniform_fail he

theorem uniform_objectFieldStart :
    Uniform o u t (objectFieldStart t c s) (objectFieldStart (t.withObj o) c (s ++ u)) := by
  unfold objectFieldStart
  split_ifs
  · exact uniform_advance rfl (idle_of_isGap rfl)
  · exact uniform_advance rfl ⟨nofun,nofun⟩
  · exact uniform_fail nofun

theorem uniform_objectFieldEnd : Uniform o u t (objectFieldEnd t c s) (objectFieldEnd (t.withObj o) c (s ++ u)) := by
  unfold objectFieldEnd
  split_ifs
  · exact uniform_advance rfl (idle_of_isGap rfl)
  · exact uniform_fail nofun

end States

/-- Every turn; a turn that adds a value has to find the same value in `obj`. -/
theorem uniform_turn (h : t.Inv) (ho : t.Idle ∨ t.withObj o = t) :
    Uniform o u t (turn t c s) (turn (t.withObj o) c (s ++ u)) := by
  have hidle : t.top.state ≠ .arrayAdd → t.top.state ≠ .objectValueAdd → t.Idle := fun h₁ h₂ => ⟨h₁,h₂⟩
  unfold turn
  dsimp only [withObj]
  split
  case h_1 hs => exact uniform_eatws h hs
  case h_2 => exact uniform_start
  case h_3 => exact uniform_finish h
  case h_4 hs => exact uniform_null (by constructor <;> rw [hs] <;> nofun)
  case h_5 => exact uniform_commentStart
  case h_6 hs => exact uniform_comment hs
  case h_7 hs => exact uniform_commentEol hs
  case h_8 => exact uniform_commentEnd
  case h_9 hs => exact uniform_string hs
  case h_10 => exact uniform_stringEscape h
  case h_11 hs => exact uniform_escapeUnicode h (by constructor <;> rw [hs] <;> nofun)
  case h_12 hs => exact uniform_boolean (by constructor <;> rw [hs] <;> nofun)
  case h_13 hs => exact uniform_number hs
  case h_14 => exact uniform_array
  case h_15 hs =>
    have heq : t.withObj o = t := ho.resolve_left fun hi => hi.1 hs
    obtain rfl : o = t.obj := congrArg Tokener.obj heq
    exact ⟨rfl,.inl ⟨idle_of_isGap rfl,.inl rfl⟩⟩
  case h_16 => exact uniform_separator nofun
  case h_17 => exact uniform_objectFieldStart
  case h_18 hs => exact uniform_objectField hs
  case h_19 => exact uniform_objectFieldEnd
  case h_20 => exact uniform_descend
  case h_21 hs =>
    have heq : t.withObj o = t := ho.resolve_left fun hi => hi.2 hs
    obtain rfl : o = t.obj := congrArg Tokener.obj heq
    exact ⟨rfl,.inl ⟨idle_of_isGap rfl,.inl rfl⟩⟩
  case h_22 => exact uniform_separator nofun

/-- The loop returns `r` on `s`. -/
def Returns (t : Tokener δ) (s : List UInt8) (r : Tokener δ × UInt8 × List UInt8) : Prop :=
  ∃ fuel, loop fuel t s = some r

theorem loop_mono {fuel fuel' : Nat} (hle : fuel ≤ fuel') {r : Tokener δ × UInt8 × List UInt8}
    (h : loop fuel t s = some r) : loop fuel' t s = some r := by
  induction fuel generalizing fuel' t s with
  | zero => cases h
  | succ fuel ih =>
    obtain ⟨k,rfl⟩ := Nat.exists_eq_add_of_le hle
    rw [Nat.succ_add]
    cases s with
    | nil => exact h
    | cons c s =>
      rw [loop] at h ⊢
      cases hturn : turn t c s with
      | next t' s' =>
        rw [hturn] at h
        exact ih (Nat.le_add_right fuel k) h
      | out t' c' s' =>
        rw [hturn] at h
        exact h

theorem Returns.unique {r r' : Tokener δ × UInt8 × List UInt8} (h : Returns t s r) (h' : Returns t s r') : r = r' := by
  obtain ⟨fuel,h⟩ := h
  obtain ⟨fuel',h'⟩ := h'
  have hmax := loop_mono (Nat.le_max_left fuel fuel') h
  rw [loop_mono (Nat.le_max_right fuel fuel') h'] at hmax
  exact (Option.some.inj hmax).symm

theorem returns_nil : Returns t [] (popFailed t,1,[]) := ⟨1,rfl⟩

theorem returns_out {c' : UInt8} {s' : List UInt8} (h : turn t c s = .out t' c' s') : Returns t (c :: s) (t',c',s') :=
  ⟨1,by rw [loop,h]⟩

theorem returns_next {s' : List UInt8} (h : Continues (turn t c s) t' s') {r : Tokener δ × UInt8 × List UInt8}
    (hr : Returns t' s' r) : Returns t (c :: s) r := by
  obtain ⟨fuel,hr⟩ := hr
  rcases h with h | ⟨c',s'',rfl,h⟩
  · exact ⟨fuel + 1,by rw [loop,h]; exact hr⟩
  · cases fuel with
    | zero => cases hr
    | succ fuel => exact ⟨fuel + 1,by rw [loop,h]; exact hr⟩

/-- The two ways a call ends: its input is used up, or it has left before; both with more input behind
the text and with something else in `obj`. -/
theorem loop_append {fuel : Nat} {r : Tokener δ × UInt8 × List UInt8} (h : t.Inv) (hs : s = [] → t.Idle)
    (ho : t.Idle ∨ t.withObj o = t) (he : t.err ≠ .continued) (hr : loop fuel t s = some r) :
    (∃ t' o', t'.Inv ∧ t'.Idle ∧ t'.err = t.err ∧ r = (popFailed t',1,[]) ∧
      ∀ u r', Returns (t'.withObj o') u r' → Returns (t.withObj o) (s ++ u) r') ∨
    (r.1.err ≠ .continued ∧ ∃ o', ∀ u, Returns (t.withObj o) (s ++ u) (r.1.withObj o',r.2.1,r.2.2 ++ u)) := by
  induction fuel generalizing t s o with
  | zero => cases hr
  | succ fuel ih =>
    cases s with
    | nil =>
      cases hr
      exact .inl ⟨t,o,h,hs rfl,rfl,rfl,fun _ _ hu => hu⟩
    | cons c s =>
      have hkeeps := keeps_turn (c := c) (s := s) h
      have huni := fun u => uniform_turn (u := u) (c := c) (s := s) h ho
      rw [loop] at hr
      cases hturn : turn t c s with
      | out t' c' s' =>
        rw [hturn] at hr
        cases hr
        simp only [hturn] at huni
        refine .inr ⟨(huni []).1 he,o,fun u => ?_⟩
        exact returns_out (huni u).2
      | next t' s' =>
        rw [hturn] at hr hkeeps
        simp only [hturn] at huni
        have herr : t'.err = t.err := (huni []).1
        have hrest : ∀ o', (s' = [] → t'.Idle) → t'.Idle ∨ t'.withObj o' = t' →
            (∀ u r', Returns (t'.withObj o') (s' ++ u) r' → Returns (t.withObj o) (c :: s ++ u) r') →
            (∃ t'' o'', t''.Inv ∧ t''.Idle ∧ t''.err = t.err ∧ r = (popFailed t'',1,[]) ∧
              ∀ u r', Returns (t''.withObj o'') u r' → Returns (t.withObj o) (c :: s ++ u) r') ∨
            (r.1.err ≠ .continued ∧
              ∃ o'', ∀ u, Returns (t.withObj o) (c :: s ++ u) (r.1.withObj o'',r.2.1,r.2.2 ++ u)) := by
          intro o' hidle ho' hback
          rcases ih hkeeps.1 hidle ho' (herr ▸ he) hr with ⟨t'',o'',hinv,hi,he'',hpop,hgo⟩ | ⟨hne,o'',hgo⟩
          · exact .inl ⟨t'',o'',hinv,hi,he''.trans herr,hpop,fun u r' hu => hback u r' (hgo u r' hu)⟩
          · exact .inr ⟨hne,o'',fun u => hback u _ (hgo u)⟩
        rcases Classical.em t'.Idle with hi | hi
        · refine hrest o (fun _ => hi) (.inl hi) fun u r' hu => returns_next ?_ hu
          exact (huni u).2.elim (fun hy => hy.2) fun hy => absurd hi hy.1
        · have hgo := fun u => (huni u).2.resolve_left fun hy => hi hy.1
          exact hrest t'.obj (fun hnil => absurd hnil (hgo []).2.1) (.inr rfl) fun u r' hu =>
            returns_next (.inl (hgo u).2.2) hu

/-- What is in `obj` at first makes no difference. -/
theorem Returns.withObj {r : Tokener δ × UInt8 × List UInt8} (h : t.Inv) (hi : t.Idle) (he : t.err ≠ .continued)
    (hr : Returns t s r) (o : JsonObject δ) : ∃ o', Returns (t.withObj o) s (r.1.withObj o',r.2) := by
  obtain ⟨fuel,hr⟩ := hr
  rcases loop_append h (fun _ => hi) (.inl hi) he hr with ⟨t',o',_,_,_,rfl,hgo⟩ | ⟨_,o',hgo⟩
  · refine ⟨o',?_⟩
    have hnil := hgo [] _ returns_nil
    rwa [List.append_nil] at hnil
  · refine ⟨o',?_⟩
    have hnil := hgo []
    rwa [List.append_nil,List.append_nil] at hnil

end Tokener

section Calls
open Tokener
variable {δ : Type} [DoubleFormat δ] {t : Tokener δ}

/-- A call in terms of the loop. -/
theorem jsonTokenerParseEx_of_returns (h : t.Inv) {str : List UInt8} {r : Tokener δ × UInt8 × List UInt8}
    (hr : Returns (entered t) str r) :
    jsonTokenerParseEx t str = some (r.1.leave r.2.1,str.length - r.2.2.length) := by
  have hle := rank_le (entered t)
  obtain ⟨r',hr',_⟩ := loop_returns (s := str) (inv_entered h) (Nat.lt_succ_of_le (Nat.add_le_add_left hle _))
  have heq : r' = r := Returns.unique ⟨_,hr'⟩ hr
  have hloop : loop (10 * str.length + 10) { t with err := .success, obj := .null } str = some r := heq ▸ hr'
  rw [jsonTokenerParseEx,hloop]
  rfl

theorem returns_of_inv (h : t.Inv) (str : List UInt8) :
    ∃ r, Returns (entered t) str r ∧ r.2.2.length ≤ str.length := by
  have hle := rank_le (entered t)
  obtain ⟨r,hr,_,hlen⟩ := loop_returns (s := str) (inv_entered h) (Nat.lt_succ_of_le (Nat.add_le_add_left hle _))
  exact ⟨r,⟨_,hr⟩,hlen⟩

/-- A call that wants more input, and the call with it, are one call on both. -/
theorem jsonTokenerParseEx_append (h : t.Inv) (hi : t.Idle) {str : List UInt8} {t₁ : Tokener δ} {n : Nat}
    (hcall : jsonTokenerParseEx t str = some (t₁,n)) (hc : t₁.err = .continued) :
    t₁.Inv ∧ t₁.Idle ∧ n = str.length ∧ ∀ u,
      jsonTokenerParseEx t (str ++ u) = (jsonTokenerParseEx t₁ u).map fun r => (r.1,str.length + r.2) := by
  obtain ⟨r,⟨fuel,hr⟩,hlen⟩ := returns_of_inv h str
  rw [jsonTokenerParseEx_of_returns h ⟨fuel,hr⟩] at hcall
  cases hcall
  have hfirst := loop_append (o := .null) (inv_entered h) (fun _ => hi) (.inl hi) nofun hr
  rcases hfirst with ⟨t',o',hinv,hi',herr,rfl,hgo⟩ | ⟨hne,_⟩
  · have henter : entered ((popFailed t').leave 1) = t'.withObj .null := by
      unfold entered withObj
      rw [show t'.err = .success from herr]
      rfl
    have hinv₁ : ((popFailed t').leave 1).Inv := ⟨hinv.depth_lt,hinv.top,hinv.below,hinv.pos⟩
    refine ⟨hinv₁,hi',rfl,fun u => ?_⟩
    obtain ⟨r₂,hr₂,hlen₂⟩ := returns_of_inv hinv₁ u
    rw [jsonTokenerParseEx_of_returns hinv₁ hr₂]
    rw [henter] at hr₂
    have hinv₂ : (t'.withObj .null).Inv := ⟨hinv.depth_lt,hinv.top,hinv.below,hinv.pos⟩
    have herr₂ : (t'.withObj .null).err ≠ .continued := by
      rw [show (t'.withObj .null).err = t'.err from rfl,herr]
      nofun
    obtain ⟨o'',hr₂'⟩ := hr₂.withObj hinv₂ hi' herr₂ o'
    have hall : Returns (entered t) (str ++ u) (r₂.1.withObj o'',r₂.2) := hgo u _ hr₂'
    rw [jsonTokenerParseEx_of_returns h hall,List.length_append,Nat.add_sub_assoc hlen₂]
    rfl
  · refine absurd hc ?_
    unfold leave
    dsimp only
    split
    · nofun
    · exact hne

/-- A text given in pieces, each but the last of which wants more. -/
def feed (t : Tokener δ) (pieces : List (List UInt8)) : Option (Tokener δ) :=
  pieces.foldlM (fun t str => do
    let r ← jsonTokenerParseEx t str
    if r.1.err = .continued then some r.1 else none) t

/-- However a text is cut, its last piece ends the parse as the whole text does: with the same tokener,
the same error or value, and at the same offset. -/
theorem feed_flatten {pieces : List (List UInt8)} {t : Tokener δ} (h : feed jsonTokenerNew pieces = some t)
    (last : List UInt8) :
    jsonTokenerParseEx jsonTokenerNew (pieces.flatten ++ last) =
      (jsonTokenerParseEx t last).map fun r => (r.1,pieces.flatten.length + r.2) := by
  have hrun : ∀ t₀ : Tokener δ, t₀.Inv → t₀.Idle → feed t₀ pieces = some t →
      jsonTokenerParseEx t₀ (pieces.flatten ++ last) =
        (jsonTokenerParseEx t last).map fun r => (r.1,pieces.flatten.length + r.2) := by
    clear h
    induction pieces with
    | nil =>
      intro t₀ _ _ h
      cases h
      simp
    | cons str pieces ih =>
      intro t₀ hinv hi h
      rw [feed,List.foldlM_cons] at h
      obtain ⟨t₁,h₁,h⟩ := Option.bind_eq_some_iff.mp h
      obtain ⟨r₁,hcall,hcont⟩ := Option.bind_eq_some_iff.mp h₁
      split at hcont
      · rename_i hc
        cases hcont
        obtain ⟨hinv₁,hi₁,_,happ⟩ := jsonTokenerParseEx_append hinv hi hcall hc
        rw [List.flatten_cons,List.append_assoc,happ,ih r₁.1 hinv₁ hi₁ h,Option.map_map,List.length_append]
        simp only [Function.comp_def,Nat.add_assoc]
      · cases hcont
  exact hrun _ inv_jsonTokenerNew ⟨nofun,nofun⟩ h

theorem feed_flatten_cut : ∃ t : Tokener Millionths, feed jsonTokenerNew [bytes "[1",bytes "2,n"] = some t ∧
    jsonTokenerParseEx jsonTokenerNew (bytes "[12,n" ++ bytes "ull]") =
      (jsonTokenerParseEx t (bytes "ull]")).map fun r => (r.1,5 + r.2) :=
  ⟨_,rfl,@feed_flatten Millionths _ [bytes "[1",bytes "2,n"] _ rfl (bytes "ull]")⟩

end Calls
end Memqueue
