import Memqueue.Http.Connection

/-! Where a request header ends, as a function of the packets alone.
`frame` is http_recv_hdr with the buffer replaced by the bytes in it; the loop of the source refines it. -/
namespace Memqueue

/-- How many whitespace bytes a text begins with. -/
def leading (s : List UInt8) : Nat := (s.takeWhile isspace).length

/-- A first packet after the whitespace loop, which gets no further than half of it. -/
def afterSpace (bs : List UInt8) : List UInt8 := bs.drop (min (leading bs) (bs.length / 2 + 1))

/-- http_recv_hdr over the bytes received so far: an error, or the text that holds a header end. -/
def frame (c : List UInt8) : List Recv → Option (Option HttpReqErr × List UInt8 × List Recv)
  | [] => if c.length < httpMaxHdrLen then none else some (some .maxHdrExc,c,[])
  | r :: rs =>
    if c.length < httpMaxHdrLen then
      match r with
      | .timeout => some (some .timeoutExc,c,rs)
      | .closed => some (some .cliClosed,c,rs)
      | .error => some (some .cliClosed,c,rs)
      | .data bs =>
        if bs = [] ∨ httpMaxHdrLen - c.length < bs.length then none
        else
          let c := if c = [] then afterSpace bs else c ++ bs
          if c = [] then frame [] rs
          else if (hdrEnd (cString c)).isSome then some (none,c,rs) else frame c rs
    else some (some .maxHdrExc,c,r :: rs)

private theorem leading_le (s : List UInt8) : leading s ≤ s.length :=
  (List.takeWhile_prefix isspace).length_le

private theorem leading_drop {s : List UInt8} {i : Nat} (h : i ≤ leading s) : leading s = i + leading (s.drop i) := by
  induction i generalizing s with
  | zero => simp
  | succ i ih =>
    cases s with
    | nil => simp [leading] at h
    | cons c s =>
      by_cases hc : isspace c = true
      · have hs : leading (c :: s) = leading s + 1 := by simp [leading,hc]
        rw [hs] at h ⊢
        rw [List.drop_succ_cons,ih (Nat.le_of_succ_le_succ h)]
        omega
      · simp [leading,hc] at h

private theorem leading_cons_space {c : UInt8} (s : List UInt8) (hc : isspace c = true) :
    leading (c :: s) = leading s + 1 := by simp [leading,hc]

private theorem leading_cons {c : UInt8} (s : List UInt8) (hc : isspace c = false) : leading (c :: s) = 0 := by
  simp [leading,hc]

/-- The two counters meet in the middle of the packet, unless the whitespace ends before. -/
private theorem skipSpace_eq {hdr : Buffer} {n : Nat} (ret i : Nat) (hn : i + ret = n) (hi : i ≤ n / 2 + 1)
    (hlead : i ≤ leading (hdr.slice 0 n)) :
    skipSpace hdr i ret =
      (min (leading (hdr.slice 0 n)) (n / 2 + 1),n - min (leading (hdr.slice 0 n)) (n / 2 + 1)) := by
  induction ret generalizing i with
  | zero =>
    have hle := leading_le (hdr.slice 0 n)
    rw [Buffer.length_slice] at hle
    simp only [skipSpace,Prod.mk.injEq]
    omega
  | succ ret ih =>
    have hdrop : (hdr.slice 0 n).drop i = hdr i :: hdr.slice (i + 1) ret := by
      rw [Buffer.drop_slice _ _ (by omega),show n - i = 1 + ret by omega,Buffer.slice_add]
      simp [Buffer.slice]
    have hsplit := leading_drop hlead
    rw [hdrop] at hsplit
    simp only [skipSpace]
    by_cases hc : isspace (hdr i) = true
    · rw [leading_cons_space _ hc] at hsplit
      by_cases hle : i ≤ ret + 1
      · rw [if_pos ⟨hle,hc⟩]
        exact ih (i + 1) (by omega) (by omega) (by omega)
      · rw [if_neg (fun h => hle h.1)]
        simp only [Prod.mk.injEq]
        omega
    · rw [leading_cons _ (by simpa using hc)] at hsplit
      rw [if_neg (fun h => hc h.2)]
      simp only [Prod.mk.injEq]
      omega

private theorem skipLeading_slice {hdr : Buffer} {bs : List UInt8} (h : hdr.slice 0 bs.length = bs) :
    ∃ hdr', skipLeading hdr bs.length = (hdr',(afterSpace bs).length) ∧
      hdr'.slice 0 (afterSpace bs).length = afterSpace bs := by
  have hskip := @skipSpace_eq hdr bs.length bs.length 0 (by omega) (by omega) (by omega)
  rw [h] at hskip
  have hmin : min (leading bs) (bs.length / 2 + 1) ≤ bs.length := (min_le_left _ _).trans (leading_le bs)
  have hlen : (afterSpace bs).length = bs.length - min (leading bs) (bs.length / 2 + 1) := by simp [afterSpace]
  have hpart : hdr.slice (min (leading bs) (bs.length / 2 + 1)) (afterSpace bs).length = afterSpace bs := by
    have hdrop := congrArg (List.drop (min (leading bs) (bs.length / 2 + 1))) h
    rw [Buffer.drop_slice _ _ hmin,Nat.zero_add] at hdrop
    rw [hlen]
    exact hdrop
  simp only [skipLeading,hskip,← hlen]
  split
  · refine ⟨_,rfl,?_⟩
    rw [hpart]
    have := Buffer.slice_write hdr 0 (afterSpace bs)
    exact this
  · rename_i hcond
    refine ⟨_,rfl,?_⟩
    rw [not_and_or,not_not,Nat.not_lt] at hcond
    rcases hcond with hzero | hzero
    · rw [hzero] at hpart
      exact hpart
    · have hnil : afterSpace bs = [] := List.eq_nil_of_length_eq_zero (by omega)
      rw [hnil]
      rfl

/-- After a packet the buffer begins with the bytes `frame` goes on with. -/
theorem packet_buffer {hdr : Buffer} {c : List UInt8} (hc : hdr.slice 0 c.length = c) (bs : List UInt8) :
    ∃ hdr' : Buffer, ∃ c' : List UInt8,
      (if c.length = 0 then skipLeading (hdr.write c.length bs) bs.length
        else (hdr.write c.length bs,bs.length)) = (hdr',c'.length - c.length) ∧
      (if c = [] then afterSpace bs else c ++ bs) = c' ∧ c.length ≤ c'.length ∧ hdr'.slice 0 c'.length = c' := by
  by_cases hnil : c = []
  · subst hnil
    have hw := Buffer.slice_append hdr 0 bs
    rw [Nat.zero_add] at hw
    obtain ⟨hdr',hskip,hs⟩ := skipLeading_slice hw
    exact ⟨hdr',afterSpace bs,by simpa using hskip,by simp,by simp,hs⟩
  · have hlen : c.length ≠ 0 := fun h => hnil (List.eq_nil_of_length_eq_zero h)
    refine ⟨hdr.write c.length bs,c ++ bs,?_,by simp [hnil],by simp,?_⟩
    · rw [if_neg hlen,List.length_append,Nat.add_sub_cancel_left]
    · rw [List.length_append,Buffer.slice_append,hc]

/-- What the loop leaves in the connection when `frame` ends in `r`. -/
def FramedBy (cli : HttpCli) : Option (Option HttpReqErr × List UInt8 × List Recv) →
    Option (Option HttpReqErr × HttpCli × List Recv) → Prop
  | none, out => out = none
  | some (some e,_,rest), out => ∃ hdr, out = some (some e,{ cli with hdr },rest)
  | some (none,c,rest), out => ∃ hdr : Buffer, ∃ e, hdr.slice 0 c.length = c ∧ hdrEnd (cString c) = some e ∧
      out = some (none,{ cli with hdr, hdrLen := e, bodyLen := c.length - e, body := some (c.drop e) },rest)

private theorem FramedBy.of_hdr {cli : HttpCli} {hdr : Buffer}
    {f : Option (Option HttpReqErr × List UInt8 × List Recv)} {out : Option (Option HttpReqErr × HttpCli × List Recv)}
    (h : FramedBy { cli with hdr } f out) : FramedBy cli f out := by
  match f, h with
  | none, h => exact h
  | some (some _,_,_), h => exact h
  | some (none,_,_), h => exact h

private theorem hdrEnd_pos {s : List UInt8} {e : Nat} (h : hdrEnd s = some e) : 2 ≤ e := by
  unfold hdrEnd at h
  rcases Option.or_eq_some_iff.mp h with h | ⟨_,h⟩ <;>
  · obtain ⟨i,_,rfl⟩ := Option.map_eq_some_iff.mp h
    omega

theorem cString_length_le (s : List UInt8) : (cString s).length ≤ s.length :=
  (List.takeWhile_prefix _).length_le

theorem hdrEnd_le {s : List UInt8} {e : Nat} (h : hdrEnd s = some e) : e ≤ s.length := by
  unfold hdrEnd at h
  rcases Option.or_eq_some_iff.mp h with h | ⟨_,h⟩ <;>
  · obtain ⟨i,hi,rfl⟩ := Option.map_eq_some_iff.mp h
    exact strstr_le (by decide) hi

/-- The loop of http_recv_hdr does what `frame` says. -/
theorem httpRecvHdrLoop_frame (cli : HttpCli) (c : List UInt8) (rs : List Recv) (hc : cli.hdr.slice 0 c.length = c) :
    FramedBy cli (frame c rs) (httpRecvHdrLoop cli c.length rs) := by
  induction rs generalizing cli c with
  | nil =>
    simp only [frame,httpRecvHdrLoop]
    split
    · rfl
    · exact ⟨cli.hdr,rfl⟩
  | cons r rs ih =>
    simp only [frame,httpRecvHdrLoop]
    split
    · cases r with
      | timeout => exact ⟨cli.hdr,rfl⟩
      | closed => exact ⟨cli.hdr,rfl⟩
      | error => exact ⟨cli.hdr,rfl⟩
      | data bs =>
        simp only
        split
        · rfl
        · rename_i hbs
          obtain ⟨hdr',c',hbuf,hc',hle,hs⟩ := packet_buffer hc bs
          rw [hbuf,hc']
          simp only
          rw [show c.length + (c'.length - c.length) = c'.length by omega,hs]
          by_cases hempty : c' = []
          · have hnil : c = [] := List.eq_nil_of_length_eq_zero (by rw [hempty] at hle; simpa using hle)
            subst hempty hnil
            exact (ih { cli with hdr := hdr' } [] hs).of_hdr
          · have hgrow : c'.length - c.length ≠ 0 := by
              by_cases hnil : c = []
              · rw [hnil]
                exact fun h => hempty (List.eq_nil_of_length_eq_zero h)
              · rw [← hc',if_neg hnil,List.length_append,Nat.add_sub_cancel_left]
                exact fun h => hbs (.inl (List.eq_nil_of_length_eq_zero h))
            rw [if_neg hempty,if_neg hgrow]
            cases he : hdrEnd (cString c') with
            | none => exact (ih { cli with hdr := hdr' } c' hs).of_hdr
            | some e =>
              have hele := (hdrEnd_le he).trans (cString_length_le c')
              have hbody : hdr'.slice e (c'.length - e) = c'.drop e := by
                have := congrArg (List.drop e) hs
                rwa [Buffer.drop_slice _ _ hele,Nat.zero_add] at this
              exact ⟨hdr',e,hs,he,by simp only [hbody]⟩
    · exact ⟨cli.hdr,rfl⟩

section Streams

/-- The bytes in a list of results. -/
def recvBytes (rs : List Recv) : List UInt8 := rs.flatMap fun r =>
  match r with
  | .data bs => bs
  | _ => []

/-- A way of cutting a stream into packets. -/
def Cut (s : List UInt8) (rs : List Recv) : Prop :=
  ∃ fs : List (List UInt8), (∀ f ∈ fs, f ≠ []) ∧ fs.flatten = s ∧ rs = fs.map .data

@[simp] theorem recvBytes_data (fs : List (List UInt8)) : recvBytes (fs.map .data) = fs.flatten := by
  induction fs with
  | nil => rfl
  | cons f fs ih =>
    rw [List.map_cons,List.flatten_cons,← ih]
    rfl

@[simp] theorem recvBytes_append (rs rs' : List Recv) : recvBytes (rs ++ rs') = recvBytes rs ++ recvBytes rs' :=
  List.flatMap_append

/-- Where in the stream the body starts, when the header has been received and `rest` is still to come. -/
def bodyStart (cli : HttpCli) (rs rest : List Recv) : Nat :=
  (recvBytes rs).length - (recvBytes rest).length - cli.bodyLen

/-- http_recv_hdr finds a header end: the header block, and where the body starts. -/
def Framed (cli : HttpCli) (rs : List Recv) (block : List UInt8) (start : Nat) : Prop :=
  ∃ cli' rest, httpRecvHdr cli rs = some (none,cli',rest) ∧ block = cli'.block ∧ start = bodyStart cli' rs rest

private theorem framed_of_frame (cli : HttpCli) {rs rest : List Recv} {c : List UInt8} {e : Nat}
    (hf : frame [] rs = some (none,c,rest)) (he : hdrEnd (cString c) = some e) :
    Framed cli rs (c.take e) ((recvBytes rs).length - (recvBytes rest).length - (c.length - e)) := by
  have h := httpRecvHdrLoop_frame { cli with cntLen := 0 } [] rs rfl
  rw [hf] at h
  obtain ⟨hdr,e',hslice,he',h⟩ := h
  rw [he] at he'
  cases he'
  have hle := (hdrEnd_le he).trans (cString_length_le c)
  refine ⟨_,rest,h,?_,rfl⟩
  rw [HttpCli.block]
  simp only
  rw [← Buffer.take_slice _ _ hle,hslice]

private theorem leading_append (f s : List UInt8) :
    leading (f ++ s) = if leading f = f.length then f.length + leading s else leading f := by
  induction f with
  | nil => simp [leading]
  | cons c f ih =>
    cases hc : isspace c with
    | true =>
      rw [List.cons_append,leading_cons_space _ hc,leading_cons_space _ hc,ih,List.length_cons]
      split <;> split <;> omega
    | false =>
      rw [List.cons_append,leading_cons _ hc,leading_cons _ hc,if_neg]
      simp

/-- Once something is in the buffer, every packet is appended to it, until one completes the header. -/
private theorem frame_grown {rs rest : List Recv} {c c' : List UInt8} (hc : c ≠ [])
    (hopen : (hdrEnd (cString c)).isSome = false) (h : frame c rs = some (none,c',rest)) :
    ∃ us g, rs = (us ++ [g]).map .data ++ rest ∧ c' = c ++ us.flatten ++ g ∧ c'.length ≤ httpMaxHdrLen ∧
      (hdrEnd (cString (c ++ us.flatten))).isSome = false ∧ (hdrEnd (cString c')).isSome = true := by
  induction rs generalizing c with
  | nil =>
    simp only [frame] at h
    split at h <;> cases h
  | cons r rs ih =>
    simp only [frame] at h
    split at h
    · cases r with
      | timeout => cases h
      | closed => cases h
      | error => cases h
      | data bs =>
        simp only at h
        split at h
        · cases h
        · rename_i hbs
          rw [not_or,Nat.not_lt] at hbs
          have hne : c ++ bs ≠ [] := by simp [hc]
          rw [if_neg hne] at h
          split at h
          · rename_i hsome
            cases h
            refine ⟨[],bs,rfl,by simp,?_,by simpa using hopen,hsome⟩
            rw [List.length_append]
            omega
          · rename_i hnone
            obtain ⟨us,g,rfl,rfl,hle,hopen',hsome⟩ := ih hne (by simpa using hnone) h
            refine ⟨bs :: us,g,rfl,by simp,hle,?_,hsome⟩
            simpa using hopen'
    · cases h

/-- A header end found in the packets `us ++ [g]`: some leading whitespace is gone, all of it or at least two
bytes, and before the last packet there was none to be found. -/
private theorem frame_start {rs rest : List Recv} {c' : List UInt8} (h : frame [] rs = some (none,c',rest)) :
    ∃ us g a, rs = (us ++ [g]).map .data ++ rest ∧ c' = (us.flatten ++ g).drop a ∧ c'.length ≤ httpMaxHdrLen ∧
      (hdrEnd (cString c')).isSome = true ∧ a < (us.flatten ++ g).length ∧ a ≤ leading (us.flatten ++ g) ∧
      (a = leading (us.flatten ++ g) ∨ 2 ≤ a) ∧
      (us.flatten.length ≤ a ∨ a ≤ us.flatten.length ∧ (hdrEnd (cString (us.flatten.drop a))).isSome = false) := by
  induction rs with
  | nil =>
    simp only [frame] at h
    cases h
  | cons r rs ih =>
    simp only [frame,List.length_nil] at h
    rw [if_pos (by decide)] at h
    cases r with
    | timeout => cases h
    | closed => cases h
    | error => cases h
    | data f =>
      simp only at h
      split at h
      · cases h
      · rename_i hbs
        rw [not_or,Nat.not_lt] at hbs
        simp only [if_true] at h
        have hlead := leading_le f
        have hlen : (afterSpace f).length = f.length - min (leading f) (f.length / 2 + 1) := by simp [afterSpace]
        by_cases hnil : afterSpace f = []
        · -- a packet of nothing but whitespace
          rw [if_pos hnil] at h
          obtain ⟨us,g,a,rfl,rfl,hle,hsome,hlt,ha,hcase,hopen⟩ := ih h
          have happ := leading_append f (us.flatten ++ g)
          rw [hnil,List.length_nil] at hlen
          rw [if_pos (by omega)] at happ
          have hdrop : ∀ t, (f ++ t).drop (f.length + a) = t.drop a := by
            intro t
            rw [← List.drop_drop,List.drop_left]
          refine ⟨f :: us,g,f.length + a,rfl,?_,hle,hsome,?_,?_,?_,?_⟩
          · rw [List.flatten_cons,List.append_assoc,hdrop]
          · rw [List.flatten_cons,List.append_assoc,List.length_append]
            omega
          · rw [List.flatten_cons,List.append_assoc]
            omega
          · rw [List.flatten_cons,List.append_assoc]
            omega
          · rw [List.flatten_cons,List.length_append,hdrop]
            rcases hopen with hopen | ⟨hopen,hnone⟩
            · exact .inl (by omega)
            · exact .inr ⟨by omega,hnone⟩
        · have hpos : 0 < (afterSpace f).length := List.length_pos_iff.mpr hnil
          rw [if_neg hnil] at h
          split at h
          · rename_i hsome
            cases h
            refine ⟨[],f,min (leading f) (f.length / 2 + 1),rfl,?_,by omega,hsome,?_,?_,?_,.inl (Nat.zero_le _)⟩
            · rfl
            · change _ < f.length
              omega
            · change _ ≤ leading f
              omega
            · change _ = leading f ∨ _
              omega
          · rename_i hnone
            obtain ⟨us,g,rfl,rfl,hle,hopen,hsome⟩ := frame_grown hnil (by simpa using hnone) h
            have happ := leading_append f (us.flatten ++ g)
            have hdrop : ∀ t, (f ++ t).drop (min (leading f) (f.length / 2 + 1)) = afterSpace f ++ t :=
              fun t => List.drop_append_of_le_length (by omega)
            refine ⟨f :: us,g,min (leading f) (f.length / 2 + 1),rfl,?_,hle,hsome,?_,?_,?_,?_⟩
            · rw [List.flatten_cons,List.append_assoc f,hdrop,List.append_assoc]
            · rw [List.flatten_cons,List.append_assoc,List.length_append]
              omega
            · rw [List.flatten_cons,List.append_assoc,happ]
              split <;> omega
            · rw [List.flatten_cons,List.append_assoc,happ]
              split <;> omega
            · rw [List.flatten_cons,hdrop,List.length_append]
              exact .inr ⟨by omega,hopen⟩

/-- The blank lines of a text that a longer look would find, and which of them counts. -/
private theorem hdrEnd_take {v : List UInt8} {r e : Nat} : hdrEnd (v.take r) = some e ↔
    (∃ i, strstr crlfcrlf v = some i ∧ i + 4 ≤ r ∧ e = i + 4) ∨
    ((∀ i, strstr crlfcrlf v = some i → r < i + 4) ∧ ∃ j, strstr lflf v = some j ∧ j + 2 ≤ r ∧ e = j + 2) := by
  have h₄ : ∀ {i}, strstr crlfcrlf (v.take r) = some i ↔ strstr crlfcrlf v = some i ∧ i + 4 ≤ r :=
    strstr_take (by decide)
  have h₂ : ∀ {i}, strstr lflf (v.take r) = some i ↔ strstr lflf v = some i ∧ i + 2 ≤ r := strstr_take (by decide)
  simp only [hdrEnd,Option.or_eq_some_iff,Option.map_eq_some_iff,Option.map_eq_none_iff]
  constructor
  · rintro (⟨i,hi,rfl⟩ | ⟨hnone,j,hj,rfl⟩)
    · obtain ⟨hi,hle⟩ := h₄.mp hi
      exact .inl ⟨i,hi,hle,rfl⟩
    · obtain ⟨hj,hle⟩ := h₂.mp hj
      refine .inr ⟨fun i hi => ?_,j,hj,hle,rfl⟩
      by_contra hge
      have := h₄.mpr ⟨hi,Nat.not_lt.mp hge⟩
      rw [hnone] at this
      cases this
  · rintro (⟨i,hi,hle,rfl⟩ | ⟨hfar,j,hj,hle,rfl⟩)
    · exact .inl ⟨i,h₄.mpr ⟨hi,hle⟩,rfl⟩
    · refine .inr ⟨?_,j,h₂.mpr ⟨hj,hle⟩,rfl⟩
      rw [Option.eq_none_iff_forall_ne_some]
      intro i hi
      obtain ⟨hi,hle⟩ := h₄.mp hi
      exact absurd (hfar i hi) (by omega)

/-- What the code can see of a stream: its buffer's worth, up to a NUL. -/
def inSight (s : List UInt8) : List UInt8 := cString (s.take httpMaxHdrLen)

/-- Both kinds of blank line are in sight and LF LF is complete before CR LF CR LF is. -/
def Crossed (s : List UInt8) : Prop :=
  ∃ i j, strstr crlfcrlf (inSight s) = some i ∧ strstr lflf (inSight s) = some j ∧ j + 2 < i + 4

private theorem cString_take {s : List UInt8} {r : Nat} (hr : r ≤ httpMaxHdrLen) :
    cString (s.take r) = (inSight s).take r := by
  rw [inSight,cString,cString,takeWhile_take,takeWhile_take,List.take_take,min_eq_left hr]

/-- Without such a crossing the end that is found does not depend on how much has arrived. -/
private theorem hdrEnd_unique {s : List UInt8} {r₁ r₂ e₁ e₂ : Nat} (hs : ¬ Crossed s)
    (h₁ : hdrEnd ((inSight s).take r₁) = some e₁) (h₂ : hdrEnd ((inSight s).take r₂) = some e₂) : e₁ = e₂ := by
  rcases hdrEnd_take.mp h₁ with ⟨i,hi,hir,rfl⟩ | ⟨hfar,j,hj,hjr,rfl⟩ <;>
  rcases hdrEnd_take.mp h₂ with ⟨k,hk,hkr,rfl⟩ | ⟨hfar',l,hl,hlr,rfl⟩
  · rw [hi] at hk
    cases hk
    rfl
  · exact absurd ⟨i,l,hi,hl,by have := hfar' i hi; omega⟩ hs
  · exact absurd ⟨k,j,hk,hj,by have := hfar k hk; omega⟩ hs
  · rw [hj] at hl
    cases hl
    rfl

/-- The header end that http_recv_hdr has found lies in its last packet, behind the whitespace it skipped. -/
theorem frame_found {rs rest : List Recv} {c : List UInt8} {e : Nat} (h : frame [] rs = some (none,c,rest))
    (he : hdrEnd (cString c) = some e) :
    ∃ us g a, rs = (us ++ [g]).map .data ++ rest ∧ c = (us.flatten ++ g).drop a ∧ c.length ≤ httpMaxHdrLen ∧
      a < (us.flatten ++ g).length ∧ a ≤ leading (us.flatten ++ g) ∧ (a = leading (us.flatten ++ g) ∨ 2 ≤ a) ∧
      us.flatten.length < a + e := by
  obtain ⟨us,g,a,hrs,hc,hle,hsome,hlt,ha,hcase,hopen⟩ := frame_start h
  refine ⟨us,g,a,hrs,hc,hle,hlt,ha,hcase,?_⟩
  rcases hopen with hopen | ⟨hopen,hnone⟩
  · have := hdrEnd_pos he
    omega
  · by_contra hge
    -- an end that early would have been seen before the last packet
    have htake : us.flatten.drop a = c.take (us.flatten.length - a) := by
      rw [hc,List.drop_append_of_le_length hopen,List.take_left' (List.length_drop)]
    rw [htake,cString,takeWhile_take] at hnone
    rw [← List.take_length (l := cString c)] at he
    have hear : (hdrEnd ((cString c).take (us.flatten.length - a))).isSome = true := by
      rcases hdrEnd_take.mp he with ⟨i,hi,_,rfl⟩ | ⟨hfar,j,hj,_,rfl⟩
      · rw [hdrEnd_take.mpr (.inl ⟨i,hi,by omega,rfl⟩)]
        rfl
      · rw [hdrEnd_take.mpr (.inr ⟨fun i hi => ?_,j,hj,by omega,rfl⟩)]
        · rfl
        · have h₁ := hfar i hi
          have h₂ := strstr_le (by decide) hi
          exact absurd (lt_of_lt_of_le h₁ h₂) (lt_irrefl _)
    rw [cString] at hear
    rw [hear] at hnone
    cases hnone

/-- A run of http_recv_hdr that found a header end took the packets `us ++ [g]`, skipped `a` bytes of them and
cut a header block of `e` bytes; the rest of the last packet is what there is of the body. -/
theorem httpRecvHdr_ok {cli cli' : HttpCli} {rs rest : List Recv} (h : httpRecvHdr cli rs = some (none,cli',rest)) :
    ∃ us g a e, ∃ hdr : Buffer, rs = (us ++ [g]).map .data ++ rest ∧
      hdrEnd (cString ((us.flatten ++ g).drop a)) = some e ∧ ((us.flatten ++ g).drop a).length ≤ httpMaxHdrLen ∧
      a ≤ leading (us.flatten ++ g) ∧ (a = leading (us.flatten ++ g) ∨ 2 ≤ a) ∧
      us.flatten.length < a + e ∧ a + e ≤ (us.flatten ++ g).length ∧
      hdr.slice 0 ((us.flatten ++ g).drop a).length = (us.flatten ++ g).drop a ∧
      cli' = { cli with
        cntLen := 0, hdr, hdrLen := e, body := some ((us.flatten ++ g).drop (a + e))
        bodyLen := (us.flatten ++ g).length - (a + e) } := by
  have hframe := httpRecvHdrLoop_frame { cli with cntLen := 0 } [] rs rfl
  rw [httpRecvHdr] at h
  rw [List.length_nil,h] at hframe
  cases hf : frame [] rs with
  | none =>
    rw [hf] at hframe
    cases hframe
  | some f =>
    obtain ⟨err,c,rest'⟩ := f
    rw [hf] at hframe
    cases err with
    | some err =>
      obtain ⟨_,hframe⟩ := hframe
      cases hframe
    | none =>
      obtain ⟨hdr,e,hslice,he,hframe⟩ := hframe
      cases hframe
      obtain ⟨us,g,a,hrs,rfl,hle,hlt,ha,hcase,hlast⟩ := frame_found hf he
      have hele := (hdrEnd_le he).trans (cString_length_le _)
      rw [List.length_drop] at hele
      refine ⟨us,g,a,e,hdr,hrs,he,hle,ha,hcase,hlast,by omega,hslice,?_⟩
      rw [List.drop_drop,List.length_drop,Nat.sub_sub]

/-- Every header end http_recv_hdr finds is one of the text behind the whitespace it has skipped. -/
private theorem Framed.found {cli : HttpCli} {s block : List UInt8} {rs : List Recv} {start : Nat} (hcut : Cut s rs)
    (h : Framed cli rs block start) :
    ∃ a r e, (a = leading s ∨ 2 ≤ a ∧ a < leading s) ∧
      hdrEnd ((inSight (s.drop a)).take r) = some e ∧ block = (s.drop a).take e ∧ block.length = e ∧ start = a + e := by
  obtain ⟨cli',rest,hr,rfl,rfl⟩ := h
  obtain ⟨us,g,a,e,hdr,hrs,he,hmax,ha,hcase,_,hle,hslice,rfl⟩ := httpRecvHdr_ok hr
  have hs : s = us.flatten ++ g ++ recvBytes rest := by
    obtain ⟨fs,_,rfl,hfs⟩ := hcut
    rw [← recvBytes_data,← hfs,hrs,recvBytes_append,recvBytes_data,List.flatten_append,List.flatten_singleton]
  have hall : (recvBytes rs).length = s.length := by
    rw [hrs,recvBytes_append,recvBytes_data,hs,List.flatten_append,List.flatten_singleton]
  have hlead : a = leading s ∨ 2 ≤ a ∧ a < leading s := by
    have := leading_append (us.flatten ++ g) (recvBytes rest)
    have hpos := hdrEnd_pos he
    rw [← hs] at this
    split at this <;> omega
  have hdrop : s.drop a = (us.flatten ++ g).drop a ++ recvBytes rest := by
    rw [hs,List.drop_append_of_le_length (by omega)]
  have hblock : (s.drop a).take e = ((us.flatten ++ g).drop a).take e := by
    rw [hdrop,List.take_append_of_le_length (by rw [List.length_drop]; omega)]
  refine ⟨a,((us.flatten ++ g).drop a).length,e,hlead,?_,?_,Buffer.length_slice _ _ _,?_⟩
  · rw [← cString_take hmax,hdrop,List.take_left]
    exact he
  · rw [hblock,HttpCli.block,← hslice,Buffer.take_slice]
    rw [List.length_drop]
    omega
  · rw [bodyStart,hall,hs,List.length_append]
    simp only
    omega

/-- What is left of a stream, as one packet. -/
private def restCut (s : List UInt8) : List (List UInt8) := if s = [] then [] else [s]

private theorem restCut_flatten (s : List UInt8) : (restCut s).flatten = s := by
  unfold restCut
  split
  · rename_i h
    rw [h]
    rfl
  · simp

private theorem restCut_ne {s f : List UInt8} (h : f ∈ restCut s) : f ≠ [] := by
  unfold restCut at h
  split at h
  · cases h
  · rename_i hs
    rw [List.mem_singleton.mp h]
    exact hs

/-- One packet for each byte. -/
private def single (c : UInt8) : List UInt8 := [c]

private theorem afterSpace_single {c : UInt8} (hc : isspace c = true) : afterSpace [c] = [] := by
  simp [afterSpace,leading,hc]

/-- Whitespace that comes byte by byte is skipped whatever its length. -/
private theorem frame_singles {ws : List UInt8} (hws : ∀ c ∈ ws, isspace c = true) (rs : List Recv) :
    frame [] ((ws.map single).map .data ++ rs) = frame [] rs := by
  induction ws with
  | nil => rfl
  | cons c ws ih =>
    rw [List.map_cons,List.map_cons,List.cons_append]
    have hc := afterSpace_single (hws c List.mem_cons_self)
    simp only [frame,single,List.length_nil,hc,if_true,List.cons_ne_nil,false_or,List.length_cons]
    rw [if_pos (by decide),if_neg (by decide)]
    exact ih fun d hd => hws d (List.mem_cons_of_mem _ hd)

private theorem flatten_singles (ws : List UInt8) : (ws.map single).flatten = ws := by
  induction ws with
  | nil => rfl
  | cons c ws ih =>
    rw [List.map_cons,List.flatten_cons,ih]
    rfl

private theorem hdrEnd_short {s : List UInt8} {e : Nat} (h : hdrEnd s = some e) : 2 ≤ s.length := by
  rw [← List.take_length (l := s)] at h
  rcases hdrEnd_take.mp h with ⟨i,_,hle,_⟩ | ⟨_,j,_,hle,_⟩ <;> omega

private theorem space_of_mem_leading {s : List UInt8} {a : Nat} (ha : a ≤ leading s) :
    ∀ c ∈ s.take a, isspace c = true := by
  have hpre : s.take a <+: s.takeWhile isspace :=
    List.prefix_of_prefix_length_le (List.take_prefix a s) (List.takeWhile_prefix isspace)
      ((List.length_take_le a s).trans ha)
  intro c hc
  exact List.mem_takeWhile_imp (hpre.subset hc)

/-- Packets that end in the text `(s.drop a).take r` with the whitespace before it gone. -/
private theorem framed_of_packets {cli : HttpCli} {s : List UInt8} {a r e : Nat} (fs : List (List UInt8))
    (ha : a ≤ s.length) (hr : r ≤ httpMaxHdrLen) (he : hdrEnd ((inSight (s.drop a)).take r) = some e)
    (hne : ∀ f ∈ fs, f ≠ []) (hfs : fs.flatten = s.take (a + r))
    (hframe : ∀ rs, frame [] (fs.map .data ++ rs) = some (none,(s.drop a).take r,rs)) :
    ∃ rs, Cut s rs ∧ Framed cli rs ((s.drop a).take e) (a + e) := by
  have hfl : (fs ++ restCut (s.drop (a + r))).flatten = s := by
    rw [List.flatten_append,hfs,restCut_flatten,List.take_append_drop]
  refine ⟨(fs ++ restCut (s.drop (a + r))).map .data,⟨_,?_,hfl,rfl⟩,?_⟩
  · intro f hf
    rcases List.mem_append.mp hf with hf | hf
    · exact hne f hf
    · exact restCut_ne hf
  · rw [← cString_take hr] at he
    have hele := (hdrEnd_le he).trans (cString_length_le _)
    rw [List.length_take,List.length_drop] at hele
    have hframed := framed_of_frame cli (hframe ((restCut (s.drop (a + r))).map .data)) he
    rw [← List.map_append,recvBytes_data,recvBytes_data,hfl,restCut_flatten,List.take_take,min_eq_left (by omega),
      List.length_drop,List.length_take,List.length_drop] at hframed
    rwa [show s.length - (s.length - (a + r)) - (min r (s.length - a) - e) = a + e by omega] at hframed

/-- Whitespace in single bytes, then the start of the header in one packet. -/
private theorem clean_cut (cli : HttpCli) {s : List UInt8} {r e : Nat} (hr : r ≤ httpMaxHdrLen)
    (he : hdrEnd ((inSight (s.drop (leading s))).take r) = some e) :
    ∃ rs, Cut s rs ∧ Framed cli rs ((s.drop (leading s)).take e) (leading s + e) := by
  have hsome := he
  rw [← cString_take hr] at hsome
  have hlen := (hdrEnd_short hsome).trans (cString_length_le _)
  have hne : (s.drop (leading s)).take r ≠ [] := by
    intro h
    rw [h] at hlen
    exact absurd hlen (by decide)
  have hlead : leading ((s.drop (leading s)).take r) = 0 := by
    have h₀ := leading_drop (le_refl (leading s))
    have h₁ := leading_append ((s.drop (leading s)).take r) ((s.drop (leading s)).drop r)
    rw [List.take_append_drop] at h₁
    split at h₁ <;> omega
  refine framed_of_packets ((s.take (leading s)).map single ++ [(s.drop (leading s)).take r])
    (leading_le s) hr he ?_ ?_ ?_
  · intro f hf
    rcases List.mem_append.mp hf with hf | hf
    · obtain ⟨c,_,rfl⟩ := List.mem_map.mp hf
      exact List.cons_ne_nil _ _
    · rw [List.mem_singleton.mp hf]
      exact hne
  · rw [List.flatten_append,flatten_singles,List.flatten_singleton,List.take_add]
  · intro rs
    rw [List.map_append,List.append_assoc,frame_singles (space_of_mem_leading le_rfl)]
    have hafter : afterSpace ((s.drop (leading s)).take r) = (s.drop (leading s)).take r := by simp [afterSpace,hlead]
    have hroom : ¬ httpMaxHdrLen - 0 < ((s.drop (leading s)).take r).length := by
      have := List.length_take_le r (s.drop (leading s))
      omega
    simp only [List.map_cons,List.map_nil,List.singleton_append,frame,List.length_nil,hafter,hne,hroom,hsome,
      Option.isSome_some,if_true,if_false,or_self]
    rw [if_pos (by decide)]

/-- Three bytes of whitespace in one packet leave the last of them at the head of the buffer. -/
private theorem dirty_cut (cli : HttpCli) {s : List UInt8} {a r e : Nat} (h2 : 2 ≤ a) (ha : a < leading s)
    (hr : r ≤ httpMaxHdrLen) (he : hdrEnd ((inSight (s.drop a)).take r) = some e) :
    ∃ rs, Cut s rs ∧ Framed cli rs ((s.drop a).take e) (a + e) := by
  have hlead := leading_le s
  obtain ⟨x,y,z,hs⟩ : ∃ x y z, s.drop (a - 2) = x :: y :: z :: s.drop (a + 1) := by
    refine ⟨s[a - 2],s[a - 1],s[a],?_⟩
    rw [List.drop_eq_getElem_cons (by omega),show a - 2 + 1 = a - 1 by omega,List.drop_eq_getElem_cons (by omega),
      show a - 1 + 1 = a by omega,List.drop_eq_getElem_cons (by omega)]
  have hz : s.drop a = z :: s.drop (a + 1) := by
    have := congrArg (List.drop 2) hs
    rw [List.drop_drop,show a - 2 + 2 = a by omega] at this
    simpa using this
  have hspace : ∀ c ∈ (s.drop (a - 2)).take 3, isspace c = true := by
    apply space_of_mem_leading
    have := leading_drop (s := s) (i := a - 2) (by omega)
    omega
  rw [hs] at hspace
  obtain ⟨hx,hy,hz'⟩ : isspace x = true ∧ isspace y = true ∧ isspace z = true := by simpa using hspace
  have hsome := he
  rw [← cString_take hr] at hsome
  have hlen := (hdrEnd_short hsome).trans (cString_length_le _)
  rw [List.length_take] at hlen
  -- what follows the whitespace byte that was left over
  obtain ⟨r,rfl⟩ : ∃ k, r = k + 1 := ⟨r - 1,by omega⟩
  have htext : (s.drop a).take (r + 1) = z :: (s.drop (a + 1)).take r := by rw [hz,List.take_succ_cons]
  have hne : (s.drop (a + 1)).take r ≠ [] := by
    intro h
    have := congrArg List.length htext
    rw [h,List.length_take] at this
    simp only [List.length_cons,List.length_nil] at this
    omega
  refine framed_of_packets ((s.take (a - 2)).map single ++ [[x,y,z],(s.drop (a + 1)).take r])
    (by omega) hr he ?_ ?_ ?_
  · intro f hf
    rcases List.mem_append.mp hf with hf | hf
    · obtain ⟨c,_,rfl⟩ := List.mem_map.mp hf
      exact List.cons_ne_nil _ _
    · rcases List.mem_cons.mp hf with rfl | hf
      · exact List.cons_ne_nil _ _
      · rw [List.mem_singleton.mp hf]
        exact hne
  · rw [List.flatten_append,flatten_singles,show a + (r + 1) = a - 2 + (r + 3) by omega,List.take_add,hs]
    simp
  · intro rs
    rw [List.map_append,List.append_assoc,frame_singles (space_of_mem_leading (by omega))]
    have hafter : afterSpace [x,y,z] = [z] := by simp [afterSpace,leading,hx,hy,hz']
    have hnone : (hdrEnd (cString [z])).isSome = false := by
      rw [Option.isSome_eq_false_iff,Option.isNone_iff_eq_none,Option.eq_none_iff_forall_ne_some]
      intro k hk
      have := (hdrEnd_short hk).trans (cString_length_le _)
      rw [List.length_singleton] at this
      omega
    have hroom : ¬ httpMaxHdrLen - 1 < ((s.drop (a + 1)).take r).length := by
      have := List.length_take_le r (s.drop (a + 1))
      omega
    rw [htext] at hsome ⊢
    simp only [List.map_cons,List.map_nil,List.cons_append,List.nil_append,frame,List.length_nil,hafter,hne,hroom,
      hsome,hnone,List.length_cons,Option.isSome_some,if_true,if_false,or_self,List.cons_ne_nil,false_or,
      Bool.false_eq_true,Nat.zero_add]
    rw [if_pos (by decide),if_neg (by decide),if_pos (by decide)]

/-- Any two cuts of `s` in which a header end is found agree on the header block and on where the body
starts, and in both the whitespace before the header is ignored. -/
def CutFree (cli : HttpCli) (s : List UInt8) : Prop :=
  ∀ rs₁ rs₂ block₁ block₂ start₁ start₂, Cut s rs₁ → Cut s rs₂ →
    Framed cli rs₁ block₁ start₁ → Framed cli rs₂ block₂ start₂ →
    block₁ = block₂ ∧ start₁ = start₂ ∧ start₁ = leading s + block₁.length ∧
      block₁ = (s.drop (leading s)).take block₁.length

/-- Framing is free of the cut exactly when no blank line is in sight from a whitespace byte after the first
two of the leading whitespace, and in the text behind it LF LF does not come before CR LF CR LF. -/
theorem cut_free_iff (cli : HttpCli) (s : List UInt8) : CutFree cli s ↔
    (∀ a, 2 ≤ a → a < leading s → hdrEnd (inSight (s.drop a)) = none) ∧ ¬ Crossed (s.drop (leading s)) := by
  have hfull : ∀ t : List UInt8, (inSight t).take httpMaxHdrLen = inSight t := by
    intro t
    rw [← cString_take le_rfl,inSight]
  constructor
  · intro h
    constructor
    · intro a h2 ha
      rw [Option.eq_none_iff_forall_ne_some]
      intro e he
      rw [← hfull] at he
      obtain ⟨rs,hcut,hframed⟩ := dirty_cut cli h2 ha le_rfl he
      obtain ⟨_,_,hstart,_⟩ := h rs rs _ _ _ _ hcut hcut hframed hframed
      have hele := (hdrEnd_le he).trans (List.length_take_le' _ _)
      have hsight := (cString_length_le _).trans (List.length_take_le' httpMaxHdrLen (s.drop a))
      rw [List.length_take,min_eq_left (hele.trans hsight)] at hstart
      omega
    · rintro ⟨i,j,hi,hj,hlt⟩
      have hmax := (strstr_le (by decide) hi).trans (cString_length_le _)
      rw [List.length_take] at hmax
      have hmax : i + 4 ≤ httpMaxHdrLen := hmax.trans (min_le_left _ _)
      have he₁ : hdrEnd ((inSight (s.drop (leading s))).take (i + 4)) = some (i + 4) :=
        hdrEnd_take.mpr (.inl ⟨i,hi,le_rfl,rfl⟩)
      have he₂ : hdrEnd ((inSight (s.drop (leading s))).take (j + 2)) = some (j + 2) := by
        refine hdrEnd_take.mpr (.inr ⟨fun k hk => ?_,j,hj,le_rfl,rfl⟩)
        rw [hi] at hk
        cases hk
        exact hlt
      obtain ⟨rs₁,hcut₁,hf₁⟩ := clean_cut cli hmax he₁
      obtain ⟨rs₂,hcut₂,hf₂⟩ := clean_cut cli (by omega) he₂
      obtain ⟨_,hstart,_⟩ := h rs₁ rs₂ _ _ _ _ hcut₁ hcut₂ hf₁ hf₂
      omega
  · rintro ⟨hspace,hcross⟩ rs₁ rs₂ block₁ block₂ start₁ start₂ hcut₁ hcut₂ hf₁ hf₂
    -- no run stops inside the leading whitespace
    have hall : ∀ {a r e}, (a = leading s ∨ 2 ≤ a ∧ a < leading s) →
        hdrEnd ((inSight (s.drop a)).take r) = some e → a = leading s := by
      intro a r e hcase he
      rcases hcase with h | ⟨h2,ha⟩
      · exact h
      · have hnone := hspace a h2 ha
        simp only [hdrEnd,Option.or_eq_none_iff,Option.map_eq_none_iff] at hnone
        rcases hdrEnd_take.mp he with ⟨i,hi,_⟩ | ⟨_,j,hj,_⟩
        · rw [hnone.1] at hi
          cases hi
        · rw [hnone.2] at hj
          cases hj
    obtain ⟨a₁,r₁,e₁,hcase₁,he₁,hb₁,hl₁,hs₁⟩ := hf₁.found hcut₁
    obtain ⟨a₂,r₂,e₂,hcase₂,he₂,hb₂,hl₂,hs₂⟩ := hf₂.found hcut₂
    obtain rfl := hall hcase₁ he₁
    obtain rfl := hall hcase₂ he₂
    obtain rfl := hdrEnd_unique hcross he₁ he₂
    exact ⟨by rw [hb₁,hb₂],by rw [hs₁,hs₂],by rw [hs₁,hl₁],by rw [hl₁]; exact hb₁⟩

end Streams

/-- The bytes of "GET /q HTTP/1.0" and an empty line. -/
def plainGet : List UInt8 := [71,69,84,32,47,113,32,72,84,84,80,47,49,46,48,13,10,13,10]

/-- Three blanks that arrive on their own: one of them stays at the head of the request line. -/
theorem blanks_not_ignored : ¬ CutFree .new (32 :: 32 :: 32 :: plainGet) := by
  have hframed : ∃ block start, Framed .new [.data [32,32,32],.data plainGet] block start ∧ block.length = 20 ∧
      start = 22 := by
    obtain ⟨⟨err,cli',rest⟩,hr,hobs⟩ := Option.map_eq_some_iff.mp (show
        (httpRecvHdr .new [.data [32,32,32],.data plainGet]).map (fun r => (r.1,r.2.2,r.2.1.hdrLen,r.2.1.bodyLen)) =
      some (none,[],20,0) by decide +kernel)
    simp only [Prod.mk.injEq] at hobs
    obtain ⟨rfl,rfl,hlen,hbody⟩ := hobs
    exact ⟨_,_,⟨cli',[],hr,rfl,rfl⟩,(Buffer.length_slice _ _ _).trans hlen,by rw [bodyStart,hbody]; rfl⟩
  obtain ⟨block,start,hf,hblock,hstart⟩ := hframed
  have hcut : Cut (32 :: 32 :: 32 :: plainGet) [.data [32,32,32],.data plainGet] :=
    ⟨[[32,32,32],plainGet],by decide,rfl,rfl⟩
  intro h
  obtain ⟨_,_,hignored,_⟩ := h _ _ _ _ _ _ hcut hcut hf hf
  rw [hstart,hblock] at hignored
  exact absurd hignored (by decide)

end Memqueue
