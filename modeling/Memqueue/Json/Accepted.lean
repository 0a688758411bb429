import Memqueue.Json.Pieces
import Memqueue.Json.Text

/-! Whatever text json_tokener.c accepts, the value it gives is one that a program could have built. -/
namespace Memqueue
namespace Tokener
variable {δ : Type} {t t' : Tokener δ} {c : UInt8} {s : List UInt8}

/-- A value at some depth of the stack, which leaves room for its levels. -/
structure SoundAt (depth : Nat) (v : JsonObject δ) : Prop where
  ok : v.Ok fun _ => True
  room : depth + v.nesting < jsonTokenerMaxDepth

/-- Every level of the stack holds such a value. -/
def SoundStack : List (Srec δ) → Prop
  | [] => True
  | l :: below => SoundAt below.length l.current ∧ SoundStack below

/-- And so does `obj`, where a value is about to be added from it. -/
structure Sound (t : Tokener δ) : Prop where
  stack : SoundStack (t.top :: t.below)
  obj : t.Idle ∨ SoundAt (t.depth + 1) t.obj

def KeepsSound : Turn δ → Prop
  | .next t _ => Sound t
  | .out t _ _ => SoundStack (t.top :: t.below)

/-- A turn to an idle state that changes no value. -/
theorem Sound.same (h : Sound t) (hi : t'.Idle) (hb : t'.below = t.below) (hc : t'.top.current = t.top.current) :
    Sound t' := by
  refine ⟨?_,.inl hi⟩
  rw [SoundStack,hb,hc]
  exact h.stack

/-- A turn to an idle state that gives the level a new value. -/
theorem Sound.changed (h : Sound t) (hi : t'.Idle) (hb : t'.below = t.below) (hv : SoundAt t.depth t'.top.current) :
    Sound t' := by
  refine ⟨?_,.inl hi⟩
  rw [SoundStack,hb]
  exact ⟨hv,h.stack.2⟩

theorem keepsSound_advance (h : Sound t) : KeepsSound (advance t c s) := by
  unfold advance
  split
  · exact h.stack
  · exact h

theorem keepsSound_redo (h : Sound t) : KeepsSound (redo t c s) := h

theorem keepsSound_fail (h : Sound t) (err : TokenerError) : KeepsSound (fail t err c s) := h.stack

theorem soundAt_leaf {depth : Nat} {v : JsonObject δ} (hd : depth < jsonTokenerMaxDepth) (hok : v.Ok fun _ => True)
    (hn : v.nesting = 0) : SoundAt depth v := ⟨hok,by rwa [hn,Nat.add_zero]⟩

/-- The value of a level is read. -/
theorem Sound.finished (h : Sound t) {v : JsonObject δ} (hv : SoundAt t.depth v) : Sound ((t.set v).eat .finish) :=
  h.changed (idle_of_isGap rfl) rfl hv

theorem Sound.append (h : Sound t) (hi : t.Idle) (bs : List UInt8) : Sound (t.append bs) := h.same hi rfl rfl

section States

theorem keepsSound_scanRun {stop : UInt8 → Bool} {found : Tokener δ → UInt8 → List UInt8 → Turn δ} (h : Sound t)
    (hi : t.Idle) (hfound : ∀ run c s, KeepsSound (found (t.append run) c s)) :
    KeepsSound (scanRun t stop s found) := by
  unfold scanRun
  dsimp only
  split
  · exact h.append hi _
  · split
    · exact hfound _ _ _
    · exact h.stack

theorem keepsSound_eatws (hinv : t.Inv) (h : Sound t) : KeepsSound (eatws t s) := by
  unfold eatws
  split
  · exact h
  · split
    · exact keepsSound_advance (h.same (idle_of_isGap rfl) rfl rfl)
    · exact keepsSound_redo (h.same (idle_of_isSaved hinv.top.saved) rfl rfl)

theorem keepsSound_start (hinv : t.Inv) (h : Sound t) : KeepsSound (start t c s) := by
  have hd := hinv.depth_lt
  unfold start
  split_ifs
  · exact keepsSound_advance (h.changed (idle_of_isGap rfl) rfl (soundAt_leaf hd ⟨List.nodup_nil,trivial⟩ rfl))
  · exact keepsSound_advance (h.changed (idle_of_isGap rfl) rfl (soundAt_leaf hd trivial rfl))
  · exact keepsSound_redo (h.same ⟨nofun,nofun⟩ rfl rfl)
  · exact keepsSound_advance (h.same ⟨nofun,nofun⟩ rfl rfl)
  · exact keepsSound_redo (h.same ⟨nofun,nofun⟩ rfl rfl)
  · exact keepsSound_redo (h.same ⟨nofun,nofun⟩ rfl rfl)
  · exact keepsSound_fail h _

theorem keepsSound_finish (h : Sound t) : KeepsSound (finish t c s) := by
  unfold finish
  split
  case h_1 => exact h.stack
  case h_2 top below heq =>
    have hstack := h.stack
    rw [heq] at hstack
    exact ⟨hstack.2,.inr hstack.1⟩

theorem keepsSound_null (hinv : t.Inv) (h : Sound t) (hi : t.Idle) : KeepsSound (null t c s) := by
  unfold null
  dsimp only
  split_ifs
  · exact keepsSound_redo ((h.append hi [c]).finished (soundAt_leaf hinv.depth_lt trivial rfl))
  · exact keepsSound_advance (h.same hi rfl rfl)
  · exact keepsSound_fail (h.append hi [c]) _

theorem keepsSound_boolean (hinv : t.Inv) (h : Sound t) (hi : t.Idle) : KeepsSound (boolean t c s) := by
  unfold boolean
  dsimp only
  split_ifs
  · exact keepsSound_redo ((h.append hi [c]).finished (soundAt_leaf hinv.depth_lt trivial rfl))
  · exact keepsSound_advance (h.same hi rfl rfl)
  · exact keepsSound_redo ((h.append hi [c]).finished (soundAt_leaf hinv.depth_lt trivial rfl))
  · exact keepsSound_advance (h.same hi rfl rfl)
  · exact keepsSound_fail (h.append hi [c]) _

/-- What sscanf stores is an int. -/
theorem scanInt_bounds {text : List UInt8} {x : Int} (h : scanInt text = some x) : -2^31 ≤ x ∧ x < 2^31 := by
  obtain ⟨_,hx⟩ := Option.ite_none_right_eq_some.mp h
  cases hx
  exact wrapInt_bounds (strtol text)

theorem keepsSound_number [DoubleFormat δ] (hinv : t.Inv) (h : Sound t) (hi : t.Idle) : KeepsSound (number t s) := by
  unfold number
  dsimp only
  split
  · exact h.same hi rfl rfl
  · split
    case h_1 v hv =>
      refine keepsSound_redo (h.changed (idle_of_isGap rfl) rfl ?_)
      split at hv
      · obtain ⟨d,_,rfl⟩ := Option.map_eq_some_iff.mp hv
        exact soundAt_leaf hinv.depth_lt trivial rfl
      · obtain ⟨x,hx,rfl⟩ := Option.map_eq_some_iff.mp hv
        exact soundAt_leaf hinv.depth_lt (scanInt_bounds hx) rfl
    case h_2 => exact h.stack

theorem keepsSound_commentStart (h : Sound t) : KeepsSound (commentStart t c s) := by
  unfold commentStart
  split_ifs
  · exact keepsSound_advance (h.same (idle_of_isGap rfl) rfl rfl)
  · exact keepsSound_advance (h.same (idle_of_isGap rfl) rfl rfl)
  · exact keepsSound_fail h _

theorem keepsSound_commentEnd (h : Sound t) : KeepsSound (commentEnd t c s) := by
  unfold commentEnd
  dsimp only
  split_ifs
  · exact keepsSound_advance (h.same (idle_of_isGap rfl) rfl rfl)
  · exact keepsSound_advance (h.same (idle_of_isGap rfl) rfl rfl)

theorem keepsSound_quoted {place : TokenerState} {close : Tokener δ → Tokener δ} (h : Sound t) (hi : t.Idle)
    (hclose : ∀ t' : Tokener δ, Sound t' → t'.depth = t.depth → Sound (close t')) :
    KeepsSound (quoted t place s close) := by
  refine keepsSound_scanRun h hi fun run c s => ?_
  dsimp only
  split
  · exact keepsSound_advance (hclose _ (h.append hi run) rfl)
  · exact keepsSound_advance (h.same ⟨nofun,nofun⟩ rfl rfl)

theorem keepsSound_stringEscape (hinv : t.Inv) (h : Sound t) : KeepsSound (stringEscape t c s) := by
  have hback : ∀ bs, Sound ((t.append bs).goto t.top.savedState) := fun bs =>
    h.same (idle_of_isSaved hinv.top.saved) rfl rfl
  unfold stringEscape
  split_ifs
  · exact keepsSound_advance (hback _)
  · exact keepsSound_advance (hback _)
  · exact keepsSound_advance (hback _)
  · exact keepsSound_advance (hback _)
  · exact keepsSound_advance (hback _)
  · exact keepsSound_advance (h.same ⟨nofun,nofun⟩ rfl rfl)
  · exact keepsSound_fail h _

theorem keepsSound_escapeUnicode (hinv : t.Inv) (h : Sound t) (hi : t.Idle) : KeepsSound (escapeUnicode t c s) := by
  unfold escapeUnicode
  dsimp only
  split_ifs
  · exact keepsSound_advance (h.same (idle_of_isSaved hinv.top.saved) rfl rfl)
  · exact keepsSound_advance (h.same hi rfl rfl)
  · exact keepsSound_fail h _

theorem keepsSound_descend {back : TokenerState} (h : Sound t) : KeepsSound (descend t back c s) := by
  unfold descend
  split
  case isTrue => exact keepsSound_fail h _
  case isFalse hlt =>
    have hmax : jsonTokenerMaxDepth = 32 := rfl
    refine keepsSound_redo ⟨⟨soundAt_leaf ?_ trivial rfl,h.stack⟩,.inl (idle_of_isGap rfl)⟩
    show t.depth + 1 < jsonTokenerMaxDepth
    omega

theorem keepsSound_array (h : Sound t) : KeepsSound (array t c s) := by
  unfold array
  split
  · exact keepsSound_advance (h.same (idle_of_isGap rfl) rfl rfl)
  · exact keepsSound_descend h

/-- An item is added at the end. -/
theorem keepsSound_arrayAdd (hinv : t.Inv) (h : Sound t) (hs : t.top.state = .arrayAdd) :
    KeepsSound (arrayAdd t c s) := by
  have ht := hinv.typed_plain (by rw [hs]; rfl)
  rw [hs] at ht
  obtain ⟨items,hitems⟩ := ht
  have hcur := h.stack.1
  rw [hitems] at hcur
  obtain ⟨hok,hroom⟩ := hcur
  obtain ⟨hobj,hobjRoom⟩ := h.obj.resolve_left fun hi => hi.1 hs
  refine keepsSound_redo (h.changed (idle_of_isGap rfl) rfl ?_)
  show SoundAt t.depth (t.top.current.arrayAdd t.obj)
  rw [hitems]
  refine ⟨JsonObject.itemsOk_iff.mpr fun v hv => ?_,?_⟩
  · rcases List.mem_append.mp hv with hv | hv
    · exact JsonObject.itemsOk_iff.mp hok v hv
    · rwa [List.mem_singleton.mp hv]
  · have hle : (JsonObject.array (items ++ [t.obj])).nesting ≤ jsonTokenerMaxDepth - 1 - t.depth := by
      refine JsonObject.itemsNesting_le.mpr fun v hv => ?_
      rcases List.mem_append.mp hv with hv | hv
      · have hv' := JsonObject.itemsNesting_le.mp le_rfl v hv
        rw [JsonObject.nesting] at hroom
        change t.depth + _ < _ at hroom
        omega
      · rw [List.mem_singleton.mp hv]
        omega
    have hlt := hinv.depth_lt
    change t.depth + (JsonObject.array (items ++ [t.obj])).nesting < _
    omega

theorem keepsSound_separator {close : UInt8} {more : TokenerState} {err : TokenerError} (h : Sound t) :
    KeepsSound (separator t close more err c s) := by
  unfold separator
  split_ifs
  · exact keepsSound_advance (h.same (idle_of_isGap rfl) rfl rfl)
  · exact keepsSound_advance (h.same (idle_of_isGap rfl) rfl rfl)
  · exact keepsSound_fail h _

theorem keepsSound_objectFieldStart (h : Sound t) : KeepsSound (objectFieldStart t c s) := by
  unfold objectFieldStart
  split_ifs
  · exact keepsSound_advance (h.same (idle_of_isGap rfl) rfl rfl)
  · exact keepsSound_advance (h.same ⟨nofun,nofun⟩ rfl rfl)
  · exact keepsSound_fail h _

theorem keepsSound_objectFieldEnd (h : Sound t) : KeepsSound (objectFieldEnd t c s) := by
  unfold objectFieldEnd
  split_ifs
  · exact keepsSound_advance (h.same (idle_of_isGap rfl) rfl rfl)
  · exact keepsSound_fail h _

/-- A field is added at the end; a field of that name from before goes. -/
theorem keepsSound_objectValueAdd (hinv : t.Inv) (h : Sound t) (hs : t.top.state = .objectValueAdd) :
    KeepsSound (objectValueAdd t c s) := by
  have ht := hinv.typed_plain (by rw [hs]; rfl)
  rw [hs] at ht
  obtain ⟨⟨fields,hfields⟩,key,hkey⟩ := ht
  have hcur := h.stack.1
  rw [hfields] at hcur
  obtain ⟨⟨hnodup,hok⟩,hroom⟩ := hcur
  obtain ⟨hobj,hobjRoom⟩ := h.obj.resolve_left fun hi => hi.2 hs
  have hmem : ∀ e ∈ Table.put fields (cString key) t.obj, e ∈ fields ∨ e = (cString key,t.obj) := by
    intro e he
    rcases List.mem_append.mp he with he | he
    · exact .inl (List.mem_of_mem_eraseP he)
    · exact .inr (List.mem_singleton.mp he)
  refine keepsSound_redo (h.changed (idle_of_isGap rfl) rfl ?_)
  show SoundAt t.depth (t.top.current.objectAdd (t.top.objFieldName.getD []) t.obj)
  rw [hfields,hkey]
  refine ⟨⟨Table.keys_put_nodup hnodup _ _,JsonObject.fieldsOk_iff.mpr fun e he => ?_⟩,?_⟩
  · rcases hmem e he with he | rfl
    · exact JsonObject.fieldsOk_iff.mp hok e he
    · exact ⟨zero_not_mem_cString key,hobj⟩
  · have hle : (JsonObject.object (Table.put fields (cString key) t.obj)).nesting ≤
        jsonTokenerMaxDepth - 1 - t.depth := by
      refine JsonObject.fieldsNesting_le.mpr fun e he => ?_
      rcases hmem e he with he | rfl
      · have he' := JsonObject.fieldsNesting_le.mp le_rfl e he
        rw [JsonObject.nesting] at hroom
        change t.depth + _ < _ at hroom
        omega
      · show t.obj.nesting + 1 ≤ _
        omega
    have hlt := hinv.depth_lt
    change t.depth + (JsonObject.object (Table.put fields (cString key) t.obj)).nesting < _
    omega

end States

theorem keepsSound_turn [DoubleFormat δ] (hinv : t.Inv) (h : Sound t) : KeepsSound (turn t c s) := by
  unfold turn
  split
  case h_1 => exact keepsSound_eatws hinv h
  case h_2 => exact keepsSound_start hinv h
  case h_3 => exact keepsSound_finish h
  case h_4 hs => exact keepsSound_null hinv h (by constructor <;> rw [hs] <;> nofun)
  case h_5 => exact keepsSound_commentStart h
  case h_6 hs =>
    refine keepsSound_scanRun h (idle_of_isGap (by rw [hs]; rfl)) fun run c s => ?_
    exact keepsSound_advance (h.same (idle_of_isGap rfl) rfl rfl)
  case h_7 hs =>
    refine keepsSound_scanRun h (idle_of_isGap (by rw [hs]; rfl)) fun run c s => ?_
    exact keepsSound_advance (h.same (idle_of_isGap rfl) rfl rfl)
  case h_8 => exact keepsSound_commentEnd h
  case h_9 hs =>
    refine keepsSound_quoted h (by constructor <;> rw [hs] <;> nofun) fun t' h' hd => h'.finished ?_
    exact soundAt_leaf (hd ▸ hinv.depth_lt) (zero_not_mem_cString t'.pb) rfl
  case h_10 => exact keepsSound_stringEscape hinv h
  case h_11 hs => exact keepsSound_escapeUnicode hinv h (by constructor <;> rw [hs] <;> nofun)
  case h_12 hs => exact keepsSound_boolean hinv h (by constructor <;> rw [hs] <;> nofun)
  case h_13 hs => exact keepsSound_number hinv h (by constructor <;> rw [hs] <;> nofun)
  case h_14 => exact keepsSound_array h
  case h_15 hs => exact keepsSound_arrayAdd hinv h hs
  case h_16 => exact keepsSound_separator h
  case h_17 => exact keepsSound_objectFieldStart h
  case h_18 hs =>
    refine keepsSound_quoted h (by constructor <;> rw [hs] <;> nofun) fun t' h' _ => ?_
    exact h'.same (idle_of_isGap rfl) rfl rfl
  case h_19 => exact keepsSound_objectFieldEnd h
  case h_20 => exact keepsSound_descend h
  case h_21 hs => exact keepsSound_objectValueAdd hinv h hs
  case h_22 => exact keepsSound_separator h

theorem loop_sound [DoubleFormat δ] {fuel : Nat} {r : Tokener δ × UInt8 × List UInt8} (hinv : t.Inv) (h : Sound t)
    (hr : loop fuel t s = some r) : SoundStack (r.1.top :: r.1.below) := by
  induction fuel generalizing t s with
  | zero => cases hr
  | succ fuel ih =>
    cases s with
    | nil =>
      cases hr
      exact h.stack
    | cons c s =>
      have hkeeps := keeps_turn (c := c) (s := s) hinv
      have hsound := keepsSound_turn (c := c) (s := s) hinv h
      rw [loop] at hr
      cases hturn : turn t c s with
      | next t' s' =>
        rw [hturn] at hr hkeeps hsound
        exact ih hkeeps.1 hsound hr
      | out t' c' s' =>
        rw [hturn] at hr hsound
        cases hr
        exact hsound

end Tokener

section Accepted
open Tokener
variable {δ : Type} [DoubleFormat δ]

/-- A text that is accepted gives a value with ints in range, strings without NUL, distinct field names,
and not more levels than the parser has. -/
theorem ok_of_jsonTokenerParse {str : List UInt8} {v : JsonObject δ} (h : jsonTokenerParse str = some (.ok v)) :
    v.Ok (fun _ => True) ∧ v.nesting < jsonTokenerMaxDepth := by
  obtain ⟨r,hr,_⟩ := returns_of_inv (δ := δ) inv_jsonTokenerNew (cString str ++ [0])
  have hnew : Sound (entered (jsonTokenerNew : Tokener δ)) :=
    ⟨⟨soundAt_leaf (Nat.zero_lt_succ 31) trivial rfl,trivial⟩,.inl (idle_of_isGap rfl)⟩
  rw [jsonTokenerParse,jsonTokenerParseEx_of_returns inv_jsonTokenerNew hr,Option.map_some] at h
  obtain ⟨fuel,hloop⟩ := hr
  have hstack := (loop_sound (inv_entered inv_jsonTokenerNew) hnew hloop).1
  dsimp only at h
  split at h
  case isTrue hsucc =>
    rw [value,if_pos hsucc] at h
    cases h
    exact ⟨hstack.ok,Nat.lt_of_le_of_lt (Nat.le_add_left _ _) hstack.room⟩
  case isFalse => cases h

theorem ok_of_jsonTokenerParse_array : ∃ v : JsonObject Millionths,
    jsonTokenerParse (bytes " [4294967295,[]]") = some (.ok v) ∧ v.Ok (fun _ => True) ∧
      v.nesting < jsonTokenerMaxDepth :=
  ⟨_,rfl,@ok_of_jsonTokenerParse Millionths _ (bytes " [4294967295,[]]") _ rfl⟩

end Accepted
end Memqueue
