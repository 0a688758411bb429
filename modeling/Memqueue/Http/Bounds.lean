import Memqueue.Http.Framing
import Memqueue.Http.RequestLine

/-! The accesses to the header buffer: every index that http_recv_hdr, http_parse_req_line and http_parse_hdr
use on the way from the packets to the parsed header. -/
namespace Memqueue

/-- The whitespace loop looks at `hdr[i]` for as long as `i` is not past `ret`. -/
def skipSpaceUses (hdr : Buffer) (i : Nat) : Nat → List Nat
  | 0 => if i ≤ 0 then [i] else []
  | ret + 1 => if i ≤ ret + 1 then i :: (if isspace (hdr i) then skipSpaceUses hdr (i + 1) ret else []) else []

/-- The loop and the memmove. -/
def skipLeadingUses (hdr : Buffer) (n : Nat) : List Nat :=
  let (i,ret) := skipSpace hdr 0 n
  skipSpaceUses hdr 0 n ++ if i ≠ 0 ∧ 0 < ret then List.range' i ret ++ List.range ret else []

/-- The loop of http_recv_hdr: the recv, the whitespace, `tmp` with the NUL put in its place, the two strstr and
the memcpy of the body. -/
def recvHdrUses (cli : HttpCli) (recvd : Nat) : List Recv → List Nat
  | [] => []
  | r :: rs =>
    if recvd < httpMaxHdrLen then
      match r with
      | .data bs =>
        if bs = [] ∨ httpMaxHdrLen - recvd < bs.length then []
        else
          let hdr := cli.hdr.write recvd bs
          let skip := if recvd = 0 then skipLeadingUses hdr bs.length else []
          let (hdr,ret) := if recvd = 0 then skipLeading hdr bs.length else (hdr,bs.length)
          let cli := { cli with hdr := hdr }
          List.range' recvd bs.length ++ skip ++
            if ret = 0 then recvHdrUses cli recvd rs
            else
              let text := cString (hdr.slice 0 (recvd + ret))
              (recvd + ret) :: List.range (text.length + 1) ++
                match hdrEnd text with
                | none => recvHdrUses cli (recvd + ret) rs
                | some hdrLen => List.range' hdrLen (recvd + ret - hdrLen)
      | _ => []
    else []

/-- http_parse_req_line: the comparisons with a method, which take six bytes at most, the five loops, the strndup of
the uri, the comparison with a version and the NUL before the CR or LF. -/
def reqLineUses (cli : HttpCli) : List Nat :=
  let len := cli.hdrLen
  if len < 7 then []
  else
    List.range 6 ++ reqLineScans cli ++
      match httpMethodOf cli.hdr with
      | none => []
      | some (_,p) =>
        let uriStart := scan isspace cli.hdr p (len - p)
        let uriEnd := scan (fun c => !isspace c) cli.hdr uriStart (len - uriStart)
        if uriEnd = len then []
        else
          let protoStart := scan isspace cli.hdr uriEnd (len - uriEnd)
          let protoEnd := scan (fun c => c ≠ 10 && c ≠ 13) cli.hdr protoStart (len - protoStart)
          List.range' uriStart (uriEnd - uriStart) ++
            if protoEnd = len ∨ protoEnd - protoStart ≠ 8 then []
            else List.range' protoStart 8 ++
              if httpVersionOf (cli.hdr.slice protoStart 8) = none then [] else [protoEnd - 1]

/-- One turn of the loop of http_parse_hdr: the byte and the one after it, the NULs for the line end, the strchr, the
name in lower case and the blank before the value. -/
def parseHdrAtUses (st : HdrScan) (i : Nat) : List Nat :=
  i :: if st.hdr i ≠ 10 then []
  else (i + 1) :: if isspace (st.hdr (i + 1)) then []
  else
    let hdr := cutLine st.hdr i
    let p := scan (fun c => c ≠ 58 && c ≠ 0) hdr st.start (i - st.start)
    i :: (if i ≠ 0 then [i - 1] else []) ++ List.range' st.start (p + 1 - st.start) ++
      if hdr p ≠ 58 then []
      else
        let hdr : Buffer := Function.update hdr p 0
        let low := hdr.write st.start ((hdr.slice st.start (p - st.start)).map tolower)
        let v := scan (fun c => c ≠ 0 && !isspace c) low (p + 1) (i - (p + 1))
        p :: List.range' st.start (p + 1 - st.start) ++ List.range' (p + 1) (v + 1 - (p + 1))

def parseHdrUses (cli : HttpCli) : List Nat :=
  ((List.range' cli.hdrStart (cli.hdrLen - cli.hdrStart)).foldl
    (fun acc i => (parseHdrAt acc.1 i,acc.2 ++ parseHdrAtUses acc.1 i))
    ((⟨cli.hdr,cli.hdrStart,cli.hdrs⟩ : HdrScan),([] : List Nat))).2

/-- http_recv_req_hdr: the three functions in their order, each if the one before it has succeeded. -/
def reqHdrUses (cli : HttpCli) (rs : List Recv) : List Nat :=
  recvHdrUses { cli with cntLen := 0 } 0 rs ++
    match httpRecvHdr cli rs with
    | some (none,cli,_) =>
      if 0 ∈ cli.block then []
      else reqLineUses cli ++
        match httpParseReqLine cli with
        | (none,cli) => parseHdrUses cli
        | (some _,_) => []
    | _ => []

section Packets

/-- What the buffer holds after some packets, if it held `c` before. -/
def keptFrom (c : List UInt8) (ps : List (List UInt8)) : List UInt8 :=
  ps.foldl (fun c p => if c = [] then afterSpace p else c ++ p) c

/-- No header end is in sight after any of the packets. -/
def OpenFrom (c : List UInt8) (ps : List (List UInt8)) : Prop :=
  ∀ qs, qs <+: ps → hdrEnd (cString (keptFrom c qs)) = none

/-- As long as the header has not ended, recv gives between one byte and the room it is offered. -/
def Offered (c : List UInt8) (rs : List Recv) : Prop :=
  ∀ ps p rest, rs = (ps ++ [p]).map .data ++ rest → OpenFrom c ps →
    p ≠ [] ∧ p.length ≤ httpMaxHdrLen - (keptFrom c ps).length

/-- Some packet brings what is kept of a header that has not ended to exactly the length of the buffer. -/
def Fills (c : List UInt8) (rs : List Recv) : Prop :=
  ∃ ps p rest, rs = (ps ++ [p]).map .data ++ rest ∧ OpenFrom c ps ∧ (keptFrom c (ps ++ [p])).length = httpMaxHdrLen

variable {c : List UInt8} {p : List UInt8} {rs : List Recv}

theorem openFrom_cons {ps : List (List UInt8)} :
    OpenFrom c (p :: ps) ↔ hdrEnd (cString c) = none ∧ OpenFrom (keptFrom c [p]) ps := by
  constructor
  · intro h
    exact ⟨h [] (List.nil_prefix),fun qs hqs => h (p :: qs) (List.cons_prefix_cons.mpr ⟨rfl,hqs⟩)⟩
  · rintro ⟨hnil,h⟩ qs hqs
    cases qs with
    | nil => exact hnil
    | cons q qs =>
      obtain ⟨rfl,hrest⟩ := List.cons_prefix_cons.mp hqs
      exact h qs hrest

theorem keptFrom_single (p : List UInt8) : keptFrom [] [p] = afterSpace p := rfl

private theorem openFrom_nil (h : hdrEnd (cString c) = none) : OpenFrom c [] := by
  intro qs hqs
  rw [List.prefix_nil.mp hqs]
  exact h

theorem Offered.head (h : Offered c (.data p :: rs)) (hc : hdrEnd (cString c) = none) :
    p ≠ [] ∧ p.length ≤ httpMaxHdrLen - c.length := h [] p rs rfl (openFrom_nil hc)

theorem Offered.tail (h : Offered c (.data p :: rs)) (hc : hdrEnd (cString c) = none) :
    Offered (keptFrom c [p]) rs := by
  rintro ps q rest rfl hopen
  exact h (p :: ps) q rest rfl (openFrom_cons.mpr ⟨hc,hopen⟩)

/-- The first packet fills the buffer, or a later one does and the header has not ended before it. -/
theorem fills_cons (hc : hdrEnd (cString c) = none) : Fills c (.data p :: rs) ↔
    (keptFrom c [p]).length = httpMaxHdrLen ∨ hdrEnd (cString (keptFrom c [p])) = none ∧ Fills (keptFrom c [p]) rs := by
  constructor
  · rintro ⟨ps,q,rest,hrs,hopen,hlen⟩
    cases ps with
    | nil =>
      cases hrs
      exact .inl hlen
    | cons p' ps =>
      cases hrs
      obtain ⟨-,hopen⟩ := openFrom_cons.mp hopen
      exact .inr ⟨hopen [] List.nil_prefix,ps,q,rest,rfl,hopen,hlen⟩
  · rintro (hlen | ⟨hopen,ps,q,rest,rfl,hrest,hlen⟩)
    · exact ⟨[],p,rs,rfl,openFrom_nil hc,hlen⟩
    · exact ⟨p :: ps,q,rest,rfl,openFrom_cons.mpr ⟨hc,hrest⟩,hlen⟩

theorem not_fills {r : Recv} (h : ∀ bs, r ≠ .data bs) : ¬ Fills c (r :: rs) := by
  rintro ⟨ps,p,rest,hrs,-,-⟩
  cases ps with
  | nil => exact h p (List.cons.inj hrs).1
  | cons q ps => exact h q (List.cons.inj hrs).1

end Packets

section Receive

private theorem skipSpace_sum (hdr : Buffer) (i ret : Nat) :
    (skipSpace hdr i ret).1 + (skipSpace hdr i ret).2 = i + ret := by
  induction ret generalizing i with
  | zero => rfl
  | succ ret ih =>
    rw [skipSpace]
    split
    · rw [ih]
      omega
    · rfl

/-- The two counters meet in the middle, so no index is past half of the packet. -/
private theorem skipSpaceUses_le {hdr : Buffer} {i ret k : Nat} (h : k ∈ skipSpaceUses hdr i ret) :
    2 * k ≤ i + ret := by
  induction ret generalizing i with
  | zero =>
    rw [skipSpaceUses] at h
    split at h
    · rw [List.mem_singleton] at h
      omega
    · cases h
  | succ ret ih =>
    rw [skipSpaceUses] at h
    split at h
    · rcases List.mem_cons.mp h with rfl | h
      · omega
      · split at h
        · have := ih h
          omega
        · cases h
    · cases h

private theorem skipLeadingUses_lt {hdr : Buffer} {n k : Nat} (hn : 0 < n) (h : k ∈ skipLeadingUses hdr n) : k < n := by
  have hsum := skipSpace_sum hdr 0 n
  rcases List.mem_append.mp h with h | h
  · have := skipSpaceUses_le h
    omega
  · split at h
    · rcases List.mem_append.mp h with h | h
      · rw [List.mem_range'_1] at h
        omega
      · rw [List.mem_range] at h
        omega
    · cases h

private theorem afterSpace_length_le (p : List UInt8) : (afterSpace p).length ≤ p.length := by
  rw [afterSpace,List.length_drop]
  exact Nat.sub_le _ _

/-- Every index of http_recv_hdr is in the buffer, unless a packet fills it. -/
private theorem recvHdrUses_iff {cli : HttpCli} {c : List UInt8} {rs : List Recv} (hbuf : cli.hdr.slice 0 c.length = c)
    (hc : hdrEnd (cString c) = none) (hlen : c.length < httpMaxHdrLen) (h : Offered c rs) :
    (∀ k ∈ recvHdrUses cli c.length rs, k < httpMaxHdrLen) ↔ ¬ Fills c rs := by
  induction rs generalizing cli c with
  | nil =>
    apply iff_of_true (by simp [recvHdrUses])
    rintro ⟨ps,p,rest,hrs,-,-⟩
    have := congrArg List.length hrs
    simp at this
  | cons r rs ih =>
    cases r with
    | closed => exact iff_of_true (by simp [recvHdrUses]) (not_fills (by simp))
    | error => exact iff_of_true (by simp [recvHdrUses]) (not_fills (by simp))
    | timeout => exact iff_of_true (by simp [recvHdrUses]) (not_fills (by simp))
    | data bs =>
      obtain ⟨hne,hroom⟩ := h.head hc
      obtain ⟨hdr',c',hbuf',hc',hle,hs⟩ := packet_buffer hbuf bs
      have hkept : keptFrom c [bs] = c' := hc'
      have htail := h.tail hc
      rw [hkept] at htail
      have hpos := List.length_pos_iff.mpr hne
      have hskip : ∀ k ∈ (if c.length = 0 then skipLeadingUses (cli.hdr.write c.length bs) bs.length else []),
          k < httpMaxHdrLen := by
        intro k hk
        split at hk
        · have := skipLeadingUses_lt hpos hk
          omega
        · cases hk
      have hrecv : ∀ k ∈ List.range' c.length bs.length, k < httpMaxHdrLen := by
        intro k hk
        rw [List.mem_range'_1] at hk
        omega
      have hmax : c'.length ≤ httpMaxHdrLen := by
        rw [← hc']
        split
        · have := afterSpace_length_le bs
          omega
        · rw [List.length_append]
          omega
      simp only [recvHdrUses]
      rw [if_pos hlen,if_neg (not_or.mpr ⟨hne,by omega⟩),hbuf',fills_cons hc,hkept,List.forall_mem_append,
        List.forall_mem_append,and_iff_right ⟨hrecv,hskip⟩]
      have htotal : c.length + (c'.length - c.length) = c'.length := by omega
      simp only [htotal,hs]
      split
      · rename_i hzero
        -- nothing is kept of the packet, so there was nothing before it either
        have hnil : c = [] := by
          by_contra hcne
          rw [if_neg hcne] at hc'
          rw [← hc',List.length_append] at hzero
          omega
        have hnil' : c' = [] := List.eq_nil_of_length_eq_zero (by rw [hnil] at hzero; simpa using hzero)
        subst hnil hnil'
        have hrest := @ih { cli with hdr := hdr' } [] hs hc hlen htail
        rw [List.length_nil] at hrest
        have hne0 : ([] : List UInt8).length ≠ httpMaxHdrLen := by decide
        rw [List.length_nil,hrest,hc]
        tauto
      · by_cases hfull : c'.length = httpMaxHdrLen
        · refine iff_of_false (fun hall => ?_) (not_not.mpr (.inl hfull))
          exact absurd (hall c'.length (by simp)) (by omega)
        · have htext := cString_length_le c'
          have hscan : ∀ k ∈ c'.length :: List.range ((cString c').length + 1), k < httpMaxHdrLen := by
            intro k hk
            rcases List.mem_cons.mp hk with rfl | hk
            · omega
            · rw [List.mem_range] at hk
              omega
          rw [List.forall_mem_append,and_iff_right hscan]
          cases hend : hdrEnd (cString c') with
          | none =>
            have hrest := @ih { cli with hdr := hdr' } c' hs hend (by omega) htail
            simp only
            rw [hrest]
            tauto
          | some e =>
            refine iff_of_true (fun k hk => ?_) (by simp [hfull])
            rw [List.mem_range'_1] at hk
            omega

/-- The header block ends where http_recv_hdr has been. -/
private theorem hdrLen_used {cli cli' : HttpCli} {recvd : Nat} {rs rest : List Recv}
    (h : httpRecvHdrLoop cli recvd rs = some (none,cli',rest)) : ∃ k ∈ recvHdrUses cli recvd rs, cli'.hdrLen ≤ k := by
  induction rs generalizing cli recvd with
  | nil =>
    rw [httpRecvHdrLoop] at h
    split at h
    · cases h
    · cases h
  | cons r rs ih =>
    by_cases hlen : recvd < httpMaxHdrLen
    · cases r with
      | closed => simp [httpRecvHdrLoop,hlen] at h
      | error => simp [httpRecvHdrLoop,hlen] at h
      | timeout => simp [httpRecvHdrLoop,hlen] at h
      | data bs =>
        simp only [httpRecvHdrLoop,if_pos hlen] at h
        split at h
        · cases h
        · rename_i hbs
          simp only [recvHdrUses,if_pos hlen,if_neg hbs]
          generalize (if recvd = 0 then skipLeading (cli.hdr.write recvd bs) bs.length
            else (cli.hdr.write recvd bs,bs.length)) = r at h
          obtain ⟨hdr,ret⟩ := r
          simp only at h ⊢
          split at h
          · rename_i hret
            obtain ⟨k,hk,hle⟩ := ih h
            refine ⟨k,List.mem_append_right _ ?_,hle⟩
            rwa [if_pos hret]
          · rename_i hret
            rw [if_neg hret]
            split at h
            · rename_i hend
              obtain ⟨k,hk,hle⟩ := ih h
              refine ⟨k,List.mem_append_right _ (List.mem_append_right _ ?_),hle⟩
              simpa only [hend] using hk
            · rename_i e hend
              cases h
              refine ⟨recvd + ret,List.mem_append_right _ (by simp),?_⟩
              have := (hdrEnd_le hend).trans (cString_length_le _)
              rwa [Buffer.length_slice] at this
    · simp [httpRecvHdrLoop,hlen] at h

end Receive

section Parse
variable {cli : HttpCli}

/-- http_parse_req_line stays inside the header block. -/
theorem reqLineUses_lt {k : Nat} (h : k ∈ reqLineUses cli) : k < cli.hdrLen := by
  simp only [reqLineUses] at h
  split at h
  · cases h
  · rename_i hlen
    rcases List.mem_append.mp h with h | h
    · rcases List.mem_append.mp h with h | h
      · rw [List.mem_range] at h
        omega
      · exact reqLineScans_lt cli h
    · split at h
      · cases h
      · rename_i w p hmethod
        obtain ⟨rfl,-⟩ := httpMethodOf_cases hmethod
        have hp : (methodWord w).length ≤ 6 := by
          cases w
          all_goals decide
        generalize hs : scan isspace cli.hdr (methodWord w).length (cli.hdrLen - (methodWord w).length) = s at h
        generalize he : scan (fun c => !isspace c) cli.hdr s (cli.hdrLen - s) = e at h
        generalize hq : scan isspace cli.hdr e (cli.hdrLen - e) = q at h
        generalize hr : scan (fun c => c ≠ 10 && c ≠ 13) cli.hdr q (cli.hdrLen - q) = r at h
        obtain ⟨-,hslt,-,-⟩ := scan_to (by omega) hs
        obtain ⟨-,helt,-,-⟩ := scan_to hslt he
        obtain ⟨-,hqlt,-,-⟩ := scan_to helt hq
        obtain ⟨-,hrlt,-,-⟩ := scan_to hqlt hr
        split at h
        · cases h
        · rcases List.mem_append.mp h with h | h
          · rw [List.mem_range'_1] at h
            omega
          · split at h
            · cases h
            · rename_i hproto
              rcases List.mem_append.mp h with h | h
              · rw [List.mem_range'_1] at h
                omega
              · split at h
                · cases h
                · rw [List.mem_singleton] at h
                  omega

/-- One turn of http_parse_hdr looks no further than the byte after its own. -/
private theorem parseHdrAtUses_le {st : HdrScan} {i k : Nat} (hi : st.start ≤ i) (h : k ∈ parseHdrAtUses st i) :
    k ≤ i + 1 := by
  simp only [parseHdrAtUses] at h
  rcases List.mem_cons.mp h with rfl | h
  · omega
  split at h
  · cases h
  rcases List.mem_cons.mp h with rfl | h
  · exact le_rfl
  split at h
  · cases h
  generalize hp : scan (fun c => c ≠ 58 && c ≠ 0) (cutLine st.hdr i) st.start (i - st.start) = p at h
  obtain ⟨-,hpi,-,-⟩ := scan_to hi hp
  simp only [List.mem_append,List.mem_cons] at h
  rcases h with ((rfl | h) | h) | h
  · omega
  · split at h
    · rw [List.mem_singleton] at h
      omega
    · cases h
  · rw [List.mem_range'_1] at h
    omega
  · split at h
    · cases h
    · simp only [List.mem_append,List.mem_cons] at h
      rcases h with (rfl | h) | h
      · omega
      · rw [List.mem_range'_1] at h
        omega
      · generalize Buffer.write _ _ _ = low at h
        have := scan_le_add (p := fun c => c ≠ 0 && !isspace c) (f := low) (p + 1) (i - (p + 1))
        rw [List.mem_range'_1] at h
        omega

theorem parseHdrAt_start {st : HdrScan} {i : Nat} (h : st.start ≤ i) : (parseHdrAt st i).start ≤ i + 1 := by
  simp only [parseHdrAt]
  split
  · omega
  split
  · omega
  split
  · exact le_rfl
  · exact le_rfl

/-- http_parse_hdr looks at one byte after the header block at most. -/
theorem parseHdrUses_le {k : Nat} (h : k ∈ parseHdrUses cli) : k ≤ cli.hdrLen := by
  have hloop : ∀ n, cli.hdrStart + n ≤ cli.hdrLen →
      let acc := (List.range' cli.hdrStart n).foldl
        (fun acc i => (parseHdrAt acc.1 i,acc.2 ++ parseHdrAtUses acc.1 i))
        ((⟨cli.hdr,cli.hdrStart,cli.hdrs⟩ : HdrScan),([] : List Nat))
      acc.1.start ≤ cli.hdrStart + n ∧ ∀ k ∈ acc.2, k ≤ cli.hdrLen := by
    intro n hn
    induction n with
    | zero => exact ⟨le_rfl,by simp⟩
    | succ n ih =>
      obtain ⟨hstart,huses⟩ := ih (by omega)
      rw [List.range'_concat,List.foldl_append]
      simp only [List.foldl_cons,List.foldl_nil,Nat.one_mul]
      refine ⟨parseHdrAt_start hstart,fun k hk => ?_⟩
      rcases List.mem_append.mp hk with hk | hk
      · exact huses k hk
      · have := parseHdrAtUses_le hstart hk
        omega
  by_cases hle : cli.hdrStart ≤ cli.hdrLen
  · exact (hloop (cli.hdrLen - cli.hdrStart) (by omega)).2 k h
  · rw [parseHdrUses,Nat.sub_eq_zero_of_le (Nat.le_of_not_le hle)] at h
    cases h

end Parse

theorem httpParseReqLine_hdrLen (cli : HttpCli) : (httpParseReqLine cli).2.hdrLen = cli.hdrLen := by
  simp only [httpParseReqLine]
  split
  · rfl
  split
  · rfl
  simp only [httpParseUri]
  split
  · rfl
  split
  · rfl
  split
  · rfl
  split
  · rfl
  split
  · rfl
  · rfl

/-- The header buffer is left exactly by the packets that fill it. -/
theorem header_inBounds_iff (cli : HttpCli) {rs : List Recv} (h : Offered [] rs) :
    (∀ k ∈ reqHdrUses cli rs, k < httpMaxHdrLen) ↔ ¬ Fills [] rs := by
  have hrecv := @recvHdrUses_iff { cli with cntLen := 0 } [] _ rfl rfl (by decide) h
  rw [List.length_nil] at hrecv
  rw [← hrecv,reqHdrUses,List.forall_mem_append,and_iff_left_iff_imp]
  intro hall k hk
  split at hk
  · rename_i cli' rest hok
    obtain ⟨j,hj,hle⟩ := hdrLen_used hok
    have hlen := lt_of_le_of_lt hle (hall j hj)
    split at hk
    · cases hk
    · rcases List.mem_append.mp hk with hk | hk
      · exact (reqLineUses_lt hk).trans hlen
      · split at hk
        · rename_i cli'' hline
          have hsame := httpParseReqLine_hdrLen cli'
          rw [hline] at hsame
          have := parseHdrUses_le hk
          simp only at hsame
          omega
        · cases hk
  · cases hk

theorem offered_single {p : List UInt8} (hne : p ≠ []) (hlen : p.length ≤ httpMaxHdrLen) : Offered [] [.data p] := by
  intro ps q rest hrs _
  cases ps with
  | nil =>
    cases hrs
    exact ⟨hne,hlen⟩
  | cons p' ps =>
    have := congrArg List.length hrs
    simp at this

/-- "GET / HTTP/1.0" with its blank line in one packet. -/
theorem header_inBounds_short :
    Offered [] [.data [71,69,84,32,47,32,72,84,84,80,47,49,46,48,13,10,13,10]] ∧
      ∀ k ∈ reqHdrUses .new [.data [71,69,84,32,47,32,72,84,84,80,47,49,46,48,13,10,13,10]], k < httpMaxHdrLen := by
  have hoffered : Offered [] [.data [71,69,84,32,47,32,72,84,84,80,47,49,46,48,13,10,13,10]] :=
    offered_single (by decide) (by decide)
  refine ⟨hoffered,(header_inBounds_iff .new hoffered).mpr ?_⟩
  rintro ⟨ps,p,rest,hrs,-,hlen⟩
  cases ps with
  | nil =>
    cases hrs
    revert hlen
    decide
  | cons p' ps =>
    have := congrArg List.length hrs
    simp at this

/-- One packet of 8192 letters. -/
theorem header_out_of_bounds :
    Offered [] [.data (List.replicate 8192 65)] ∧
      ¬ ∀ k ∈ reqHdrUses .new [.data (List.replicate 8192 65)], k < httpMaxHdrLen := by
  have hne : List.replicate 8192 (65 : UInt8) ≠ [] := List.ne_nil_of_length_eq_add_one (List.length_replicate)
  have hoffered := offered_single hne List.length_replicate.le
  have hlead : leading (List.replicate 8192 65) = 0 := by
    rw [leading,List.replicate_succ,List.takeWhile_cons_of_neg (by decide)]
    rfl
  have hfills : Fills [] [.data (List.replicate 8192 65)] := by
    refine ⟨[],_,[],rfl,openFrom_nil rfl,?_⟩
    rw [List.nil_append,keptFrom_single,afterSpace,hlead,Nat.zero_min,List.drop_zero,List.length_replicate]
  refine ⟨hoffered,fun hall => ?_⟩
  have hrecv := @recvHdrUses_iff .new [] _ rfl rfl (by decide) hoffered
  exact hrecv.mp (fun k hk => hall k (List.mem_append_left _ hk)) hfills

end Memqueue
