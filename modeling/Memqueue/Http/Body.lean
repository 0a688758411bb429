import Memqueue.Http.Framing
import Memqueue.Http.Announced

/-! What reaches a handler as the body of a POST: the exact and the chunked receiver.
Both start from the bytes that came in the same packet as the end of the header. -/
namespace Memqueue

section Frames

private theorem parseHost_frame (cli : HttpCli) : (parseHost cli).2.body = cli.body ∧
    (parseHost cli).2.bodyLen = cli.bodyLen ∧ (parseHost cli).2.nolen = cli.nolen := by
  unfold parseHost
  split
  · exact ⟨rfl,rfl,rfl⟩
  · split
    · exact ⟨rfl,rfl,rfl⟩
    · split <;> exact ⟨rfl,rfl,rfl⟩

private theorem httpParseUri_frame (cli : HttpCli) (p : Nat) : (httpParseUri cli p).2.body = cli.body ∧
    (httpParseUri cli p).2.bodyLen = cli.bodyLen ∧ (httpParseUri cli p).2.nolen = cli.nolen := by
  simp only [httpParseUri]
  split
  · exact ⟨rfl,rfl,rfl⟩
  · split
    · exact ⟨rfl,rfl,rfl⟩
    · split
      · exact ⟨rfl,rfl,rfl⟩
      · split
        · exact ⟨rfl,rfl,rfl⟩
        · split <;> exact ⟨rfl,rfl,rfl⟩

private theorem httpParseReqLine_frame (cli : HttpCli) : (httpParseReqLine cli).2.body = cli.body ∧
    (httpParseReqLine cli).2.bodyLen = cli.bodyLen ∧ (httpParseReqLine cli).2.nolen = cli.nolen := by
  simp only [httpParseReqLine]
  split
  · exact ⟨rfl,rfl,rfl⟩
  · split
    · exact ⟨rfl,rfl,rfl⟩
    · exact httpParseUri_frame _ _

/-- Parsing the header leaves the body alone. -/
theorem httpParseReqHdr_frame (cli : HttpCli) : (httpParseReqHdr cli).2.body = cli.body ∧
    (httpParseReqHdr cli).2.bodyLen = cli.bodyLen ∧ (httpParseReqHdr cli).2.nolen = cli.nolen := by
  have hline := httpParseReqLine_frame cli
  unfold httpParseReqHdr
  split
  · exact ⟨rfl,rfl,rfl⟩
  · split
    · rename_i e cli' heq
      rw [heq] at hline
      exact hline
    · rename_i cli' heq
      rw [heq] at hline
      obtain ⟨h₁,h₂,h₃⟩ := parseHost_frame (parseFraming (httpParseHdr cli'))
      exact ⟨h₁.trans hline.1,h₂.trans hline.2.1,h₃.trans hline.2.2⟩

/-- A received and accepted header: the packets it took, and the part of the body that came with it. -/
theorem httpRecvReqHdr_ok {cli cli₁ : HttpCli} {rs rest : List Recv}
    (h : httpRecvReqHdr cli rs = some (none,cli₁,rest)) :
    ∃ us g start, rs = (us ++ [g]).map .data ++ rest ∧ us.flatten.length < start ∧ start ≤ (us.flatten ++ g).length ∧
      cli₁.body = some ((us.flatten ++ g).drop start) ∧ cli₁.bodyLen = (us.flatten ++ g).length - start ∧
      cli₁.nolen = cli.nolen := by
  unfold httpRecvReqHdr at h
  split at h
  · rename_i cli₀ rs₀ hr
    obtain ⟨us,g,a,e,hdr,hrs,_,_,_,_,hlast,hle,_,hcli⟩ := httpRecvHdr_ok hr
    simp only [Option.some.injEq,Prod.mk.injEq] at h
    obtain ⟨_,rfl,rfl⟩ := h
    obtain ⟨hb,hl,hn⟩ := httpParseReqHdr_frame cli₀
    refine ⟨us,g,a + e,hrs,hlast,hle,?_,?_,?_⟩
    · rw [hb,hcli]
    · rw [hl,hcli]
    · rw [hn,hcli]
  · rename_i hne
    exact absurd h (hne _ _)

/-- A received header says nothing of an earlier length, and fits into the buffer. -/
theorem httpRecvHdr_received {cli c : HttpCli} {rs rest : List Recv} (h : httpRecvHdr cli rs = some (none,c,rest)) :
    c.hdrs = cli.hdrs ∧ c.cntLen = 0 ∧ c.hdrLen ≤ httpMaxHdrLen := by
  obtain ⟨us,g,a,e,hdr,_,hend,hmax,_,_,_,_,_,rfl⟩ := httpRecvHdr_ok h
  exact ⟨rfl,rfl,(hdrEnd_le hend).trans ((cString_length_le _).trans hmax)⟩

end Frames

section Exact

/-- A packet of `rs` ends at position `pos` of the stream. -/
def Boundary (rs : List Recv) (pos : Nat) : Prop := ∃ rs₁ rs₂, rs = rs₁ ++ rs₂ ∧ (recvBytes rs₁).length = pos

private theorem patch_end (t bs : List UInt8) : patch (some t) t.length bs = t ++ bs := by
  simp [patch]

theorem exactLoop_done {cli : HttpCli} {recvd : Nat} (h : ¬ recvd < cli.cntLen) (rs : List Recv) :
    httpRecvExactLoop cli recvd rs = some (0,cli,rs) := by
  cases rs with
  | nil => rw [httpRecvExactLoop,if_neg h]
  | cons r rs => simp only [httpRecvExactLoop,if_neg h]

/-- With enough bytes to come the loop takes packets up to the first that reaches the announced length. -/
private theorem exactLoop_data {cli : HttpCli} {t : List UInt8} {gs : List (List UInt8)} (hbody : cli.body = some t)
    (hlen : cli.bodyLen = t.length) (hgs : ∀ g ∈ gs, g ≠ [] ∧ g.length ≤ tcpBufSize)
    (henough : cli.cntLen ≤ t.length + gs.flatten.length) :
    ∃ k cli', httpRecvExactLoop cli t.length (gs.map .data) = some (0,cli',(gs.drop k).map .data) ∧
      cli'.handed = some (t ++ (gs.take k).flatten) ∧ cli.cntLen ≤ t.length + (gs.take k).flatten.length ∧
      ∀ j < k, t.length + (gs.take j).flatten.length < cli.cntLen := by
  induction gs generalizing cli t with
  | nil =>
    refine ⟨0,cli,?_,?_,?_,fun j hj => absurd hj (Nat.not_lt_zero j)⟩
    · rw [List.map_nil,httpRecvExactLoop,if_neg (by simpa using henough)]
      rfl
    · simp [HttpCli.handed,hbody,hlen]
    · simpa using henough
  | cons g gs ih =>
    by_cases hlt : t.length < cli.cntLen
    · obtain ⟨hne,hroom⟩ := hgs g List.mem_cons_self
      have hcli : httpRecvExactLoop cli t.length ((g :: gs).map .data) = httpRecvExactLoop
          { cli with body := some (t ++ g), bodyLen := (t ++ g).length } (t ++ g).length (gs.map .data) := by
        rw [List.map_cons,httpRecvExactLoop,if_pos hlt]
        simp only [hne,Nat.not_lt.mpr hroom,or_self,if_false,hbody,patch_end,List.length_append]
      obtain ⟨k,cli',hloop,hhand,hreach,hbefore⟩ := @ih { cli with body := some (t ++ g), bodyLen := (t ++ g).length }
        (t ++ g) rfl rfl (fun x hx => hgs x (List.mem_cons_of_mem _ hx))
        (by simpa [Nat.add_assoc] using henough)
      refine ⟨k + 1,cli',hcli.trans hloop,?_,?_,?_⟩
      · simpa using hhand
      · simpa [Nat.add_assoc] using hreach
      · intro j hj
        cases j with
        | zero => simpa using hlt
        | succ j => simpa [Nat.add_assoc] using hbefore j (Nat.lt_of_succ_lt_succ hj)
    · refine ⟨0,cli,?_,?_,by simpa using hlt,fun j hj => absurd hj (Nat.not_lt_zero j)⟩
      · rw [List.map_cons,httpRecvExactLoop,if_neg hlt]
        rfl
      · simp [HttpCli.handed,hbody,hlen]

/-- With too few of them it waits. -/
private theorem exactLoop_starved {cli : HttpCli} {t : List UInt8} {gs : List (List UInt8)} (hbody : cli.body = some t)
    (hfew : t.length + gs.flatten.length < cli.cntLen) : httpRecvExactLoop cli t.length (gs.map .data) = none := by
  induction gs generalizing cli t with
  | nil => rw [List.map_nil,httpRecvExactLoop,if_pos (by simpa using hfew)]
  | cons g gs ih =>
    rw [List.flatten_cons,List.length_append] at hfew
    rw [List.map_cons,httpRecvExactLoop,if_pos (by omega)]
    dsimp only
    split
    · rfl
    · rw [hbody,patch_end,← List.length_append]
      exact @ih { cli with body := some (t ++ g), bodyLen := (t ++ g).length } (t ++ g) rfl
        (by rw [List.length_append,Nat.add_assoc]; exact hfew)

private theorem flatten_take_le (gs : List (List UInt8)) {j k : Nat} (h : j ≤ k) :
    (gs.take j).flatten.length ≤ (gs.take k).flatten.length := by
  obtain ⟨d,rfl⟩ := Nat.exists_eq_add_of_le h
  rw [List.take_add,List.flatten_append,List.length_append]
  exact Nat.le_add_right _ _

/-- Behind the header the ends of packets are those of the packets still to come. -/
private theorem boundary_iff {us gs : List (List UInt8)} {g : List UInt8} {start n : Nat}
    (hlast : us.flatten.length < start) (hle : start ≤ (us.flatten ++ g).length) :
    Boundary ((us ++ [g]).map .data ++ gs.map .data) (start + n) ↔
      ∃ k, (us.flatten ++ g).length - start + (gs.take k).flatten.length = n := by
  rw [← List.map_append]
  constructor
  · rintro ⟨rs₁,rs₂,heq,hpos⟩
    obtain ⟨fs₁,fs₂,hfs,rfl,_⟩ := List.map_eq_append_iff.mp heq
    rw [recvBytes_data] at hpos
    have htake : fs₁ = (us ++ [g] ++ gs).take fs₁.length := by rw [hfs,List.take_left]
    by_cases hm : fs₁.length ≤ us.length
    · -- a packet end that early lies before the end of the header
      rw [htake,List.append_assoc,List.take_append_of_le_length hm] at hpos
      have hshort := flatten_take_le us hm
      rw [List.take_length] at hshort
      omega
    · obtain ⟨k,hk⟩ := Nat.exists_eq_add_of_lt (Nat.not_le.mp hm)
      refine ⟨k,?_⟩
      rw [htake,hk,show us.length + k + 1 = (us ++ [g]).length + k by simp; omega,
        List.take_length_add_append,List.flatten_append,List.flatten_append,List.flatten_singleton] at hpos
      simp only [List.length_append] at hpos hle ⊢
      omega
  · rintro ⟨k,hk⟩
    refine ⟨(us ++ [g] ++ gs.take k).map .data,(gs.drop k).map .data,?_,?_⟩
    · rw [← List.map_append,List.append_assoc (us ++ [g]),List.take_append_drop]
    · rw [recvBytes_data,List.flatten_append,List.flatten_append,List.flatten_singleton]
      simp only [List.length_append] at hk hle ⊢
      omega

end Exact

section Handled
variable (away : List UInt8 → Int)

theorem httpSetPath_frame (cli : HttpCli) : (httpSetPath cli).body = cli.body ∧
    (httpSetPath cli).bodyLen = cli.bodyLen ∧ (httpSetPath cli).nolen = cli.nolen ∧
    (httpSetPath cli).cntLen = cli.cntLen ∧ (httpSetPath cli).chunked = cli.chunked ∧
    (httpSetPath cli).method = cli.method := by
  unfold httpSetPath
  simp only
  split <;> exact ⟨rfl,rfl,rfl,rfl,rfl,rfl⟩

/-- An accepted header in a cut of `s`: the packets before and behind its end, and what came of the body. -/
private theorem accepted_cut {cli cli₁ : HttpCli} {s : List UInt8} {rs rest : List Recv} (hcut : Cut s rs)
    (hhdr : httpRecvReqHdr cli rs = some (none,cli₁,rest)) :
    ∃ (us : List (List UInt8)) (g : List UInt8) (gs : List (List UInt8)) (start : Nat),
      rs = (us ++ [g]).map .data ++ gs.map .data ∧ rest = gs.map .data ∧ (∀ x ∈ gs, x ≠ []) ∧
      bodyStart cli₁ rs rest = start ∧ us.flatten.length < start ∧ start ≤ (us.flatten ++ g).length ∧
      cli₁.body = some ((us.flatten ++ g).drop start) ∧ cli₁.bodyLen = (us.flatten ++ g).length - start ∧
      cli₁.nolen = cli.nolen ∧ s.drop start = (us.flatten ++ g).drop start ++ gs.flatten := by
  obtain ⟨us,g,start,hrs,hlast,hle,hbody,hlen,hn⟩ := httpRecvReqHdr_ok hhdr
  obtain ⟨fs,hfs,rfl,hdata⟩ := hcut
  obtain ⟨gs,rfl,hgs⟩ : ∃ gs, rest = gs.map .data ∧ fs = us ++ [g] ++ gs := by
    rw [hrs] at hdata
    obtain ⟨fs₁,fs₂,hsplit,h₁,h₂⟩ := List.append_eq_map_iff.mp hdata
    refine ⟨fs₂,h₂.symm,?_⟩
    rw [hsplit,(List.map_injective_iff.mpr (fun _ _ h => Recv.data.inj h)) h₁]
  refine ⟨us,g,gs,start,hrs,rfl,?_,?_,hlast,hle,hbody,hlen,hn,?_⟩
  · intro x hx
    exact hfs x (by rw [hgs]; exact List.mem_append_right _ hx)
  · rw [bodyStart,hrs,recvBytes_append,recvBytes_data,recvBytes_data,hlen,List.flatten_append,List.flatten_singleton]
    simp only [List.length_append] at hle ⊢
    omega
  · rw [hgs,List.flatten_append,List.flatten_append,List.flatten_singleton,List.drop_append_of_le_length hle]

/-- A chunk size in hexadecimal digits. -/
def hexSize (n : Nat) : List UInt8 := (Nat.toDigits 16 n).map fun c => UInt8.ofNat c.toNat

/-- The chunked transfer coding. -/
def encodeChunks (cs : List (List UInt8)) : List UInt8 :=
  (cs.flatMap fun d => hexSize d.length ++ [13,10] ++ d ++ [13,10]) ++ [48,13,10,13,10]

/-- http_recv_chunked leaves in its first turn, before it has received or decoded anything. -/
theorem httpRecvChunked_eq (cli : HttpCli) (rs : List Recv) : httpRecvChunked away cli rs = some (0,cli,rs) := by
  simp only [httpRecvChunked]
  split
  · rfl
  · rename_i hne
    have hturn : ∀ recvd, recvd < 2^64 → recvd ≠ cli.cntLen →
        (chunkTurn away cli 0 ⟨recvd,0,1,cli.cntLen⟩).1 = true ∧
        (chunkTurn away cli 0 ⟨recvd,0,1,cli.cntLen⟩).2.1 = cli := by
      intro recvd hlt hne
      have hmore : 0 < moreThan ((recvd + 0) % 2^64) cli.cntLen := by
        rw [Nat.add_zero,Nat.mod_eq_of_lt hlt,moreThan]
        split <;> omega
      simp only [chunkTurn,hmore,and_self,if_true]
    obtain ⟨h₁,h₂⟩ := hturn _ (by unfold wrapU64; omega) hne
    cases rs with
    | nil => simp only [httpRecvChunkedLoop,h₁,h₂,if_true]
    | cons r rs => simp only [httpRecvChunkedLoop,h₁,h₂,if_true]

/-- How many bytes of body are waited for once the header is there: the number that is read from it, and none on a
connection where a transfer encoding has been named. -/
def awaited (c : HttpCli) : Nat :=
  if c.nolen || (c.chunked || sendsHeader transferEncoding c.block (c.hdr c.hdrLen)) then 0
  else lengthRead c.block (c.hdr c.hdrLen) c.following

/-- Of a number that is sent in well-formed header lines, all or nothing is waited for. -/
theorem awaited_sent {c : HttpCli} {line : List UInt8} {hs hs' : List Header} {h : Header} {n : Nat}
    (hblock : c.block = line ++ ([13,10] ++ (hs ++ h :: hs').flatMap Header.line ++ [13,10]))
    (hline : requestLineEnd c.block = some line.length) (hw : ∀ x ∈ hs ++ h :: hs', x.Wf)
    (hfirst : ∀ x ∈ hs, x.name.map tolower ≠ contentLength) (hname : h.name.map tolower = contentLength)
    (hvalue : h.value = decimal n) (hn : n < 2^63) :
    awaited c = if (c.nolen || (c.chunked || sendsHeader transferEncoding c.block (c.hdr c.hdrLen))) = true ∨
      h.blanks = [] ∨ hs' = [] ∧ isspace (c.hdr c.hdrLen) = true then 0 else n := by
  rw [awaited]
  by_cases hchunked : (c.nolen || (c.chunked || sendsHeader transferEncoding c.block (c.hdr c.hdrLen))) = true
  · rw [if_pos hchunked,if_pos (.inl hchunked)]
  · rw [hblock] at hline
    simp only [hchunked,Bool.false_eq_true,if_false,false_or]
    rw [hblock]
    exact lengthRead_sent c.following hline hw hfirst hname hvalue hn

/-- Chunks are not received at all, and of a plain body what is missing. -/
theorem httpRecvbody_eq (cli : HttpCli) (rs : List Recv) : httpRecvbody away cli rs =
    if cli.nolen || cli.chunked then some (0,cli,rs) else httpRecvExactLoop cli cli.bodyLen rs := by
  rw [httpRecvbody,httpRecvChunked_eq,httpRecvExact]
  by_cases hchunked : cli.chunked = true
  · rw [if_pos hchunked,hchunked,Bool.or_true,if_pos rfl]
  · rw [if_neg hchunked,Bool.eq_false_iff.mpr hchunked,Bool.or_false]
    split
    · rfl
    split
    · rename_i heq
      rw [exactLoop_done (by omega)]
    · rfl

/-- The body of an accepted POST is received as if it were a plain one of the awaited length. -/
private theorem httpHandleCliRd_post {cli c : HttpCli} {rs rest : List Recv} (hinit : cli.hdrs = [])
    (hrecv : httpRecvHdr cli rs = some (none,c,rest)) (hok : (httpParseReqHdr c).1 = none)
    (hpost : methodNamed c.block = some .post) :
    ∃ c₁ c₂, httpRecvReqHdr cli rs = some (none,c₁,rest) ∧ c₂.body = c₁.body ∧ c₂.bodyLen = c₁.bodyLen ∧
      (awaited c = 0 ∧ httpHandleCliRd away cli rs = some (none,c₂,rest) ∨ awaited c = c₂.cntLen ∧
        httpHandleCliRd away cli rs = (httpRecvExactLoop c₂ c₂.bodyLen rest).map fun r => (none,r.2)) := by
  obtain ⟨hhdrs,hzero,hfits⟩ := httpRecvHdr_received hrecv
  have hparse : httpParseReqHdr c = (none,(httpParseReqHdr c).2) := Prod.ext hok rfl
  generalize (httpParseReqHdr c).2 = c₁ at hparse
  obtain ⟨hchunked,hcnt,hnolen,hmethod⟩ := httpParseReqHdr_framing hparse (hhdrs.trans hinit) hzero hfits
  obtain ⟨h₁,h₂,h₃,h₄,h₅,h₆⟩ := httpSetPath_frame c₁
  have hreq : httpRecvReqHdr cli rs = some (none,c₁,rest) := by
    rw [httpRecvReqHdr,hrecv]
    dsimp only
    rw [hparse]
  refine ⟨c₁,httpSetPath c₁,hreq,h₁,h₂,?_⟩
  simp only [httpHandleCliRd,hreq,h₆,hmethod,hpost,if_true,httpRecvbody_eq,h₃,h₅,hchunked,hnolen]
  rw [awaited]
  split
  · exact .inl ⟨rfl,rfl⟩
  · exact .inr ⟨(hcnt.symm.trans h₄.symm),rfl⟩

/-- A POST whose stream is `t` behind the header and then the packets `gs`: its body ends with the first packet that
reaches the awaited length, if there is one. -/
private theorem post_data {cli c c₁ : HttpCli} {rs : List Recv} {t : List UInt8} {gs : List (List UInt8)}
    (hinit : cli.hdrs = []) (hrecv : httpRecvHdr cli rs = some (none,c,gs.map .data))
    (hok : (httpParseReqHdr c).1 = none) (hpost : methodNamed c.block = some .post)
    (hreq : httpRecvReqHdr cli rs = some (none,c₁,gs.map .data)) (hbody : c₁.body = some t)
    (hlen : c₁.bodyLen = t.length) (hgs : ∀ g ∈ gs, g ≠ [] ∧ g.length ≤ tcpBufSize) :
    (awaited c ≤ t.length + gs.flatten.length → ∃ k cli' rest', httpHandleCliRd away cli rs = some (none,cli',rest') ∧
      cli'.handed = some (t ++ (gs.take k).flatten) ∧ awaited c ≤ t.length + (gs.take k).flatten.length ∧
      ∀ j < k, t.length + (gs.take j).flatten.length < awaited c) ∧
    (t.length + gs.flatten.length < awaited c → httpHandleCliRd away cli rs = none) := by
  obtain ⟨c₁',c₂,hreq',hbody₂,hlen₂,hcase⟩ := httpHandleCliRd_post away hinit hrecv hok hpost
  rw [hreq] at hreq'
  cases hreq'
  rw [hbody] at hbody₂
  rw [hlen] at hlen₂
  rcases hcase with ⟨hzero,hhandle⟩ | ⟨hm,hhandle⟩
  · rw [hzero]
    refine ⟨fun _ => ⟨0,c₂,_,hhandle,?_,Nat.zero_le _,fun j hj => absurd hj (Nat.not_lt_zero j)⟩,fun h => by omega⟩
    simp [HttpCli.handed,hbody₂,hlen₂]
  · rw [hm,hhandle,hlen₂]
    constructor
    · intro henough
      obtain ⟨k,cli',hloop,hhand,hreach,hbefore⟩ := exactLoop_data hbody₂ hlen₂ hgs henough
      exact ⟨k,cli',_,by rw [hloop]; rfl,hhand,hreach,hbefore⟩
    · intro hfew
      rw [exactLoop_starved hbody₂ hfew]
      rfl

/-- The body of a POST is the first `n` bytes behind the header exactly when no more than `n` are waited for, and the
first packet to end after as many as are waited for ends with the `n`th. -/
theorem post_body_exact_iff {cli c : HttpCli} {s : List UInt8} {rs rest : List Recv} (hcut : Cut s rs)
    (hinit : cli.hdrs = []) (hrecv : httpRecvHdr cli rs = some (none,c,rest)) (hok : (httpParseReqHdr c).1 = none)
    (hpost : methodNamed c.block = some .post) (hroom : ∀ g, .data g ∈ rest → g.length ≤ tcpBufSize) {n : Nat}
    (henough : bodyStart c rs rest + n ≤ s.length) :
    (∃ cli' rest', httpHandleCliRd away cli rs = some (none,cli',rest') ∧
      cli'.handed = some ((s.drop (bodyStart c rs rest)).take n)) ↔
    awaited c ≤ n ∧ Boundary rs (bodyStart c rs rest + n) ∧
      ∀ j < n, awaited c ≤ j → ¬ Boundary rs (bodyStart c rs rest + j) := by
  have hreq : httpRecvReqHdr cli rs = some (none,(httpParseReqHdr c).2,rest) := by
    rw [httpRecvReqHdr,hrecv]
    dsimp only
    rw [hok]
  have hsame : bodyStart c rs rest = bodyStart (httpParseReqHdr c).2 rs rest := by
    rw [bodyStart,bodyStart,(httpParseReqHdr_frame c).2.1]
  obtain ⟨us,g,gs,start,hrs,rfl,hne,hstart,hlast,hle,hbody,hlen,-,hstream⟩ := accepted_cut hcut hreq
  have hlength := congrArg List.length hstream
  rw [List.length_append,List.length_drop,List.length_drop] at hlength
  rw [hsame,hstart] at henough ⊢
  obtain ⟨hdata,hstarved⟩ := post_data away hinit hrecv hok hpost hreq hbody (by rw [hlen,List.length_drop])
    (fun x hx => ⟨hne x hx,hroom x (List.mem_map_of_mem hx)⟩)
  rw [List.length_drop] at hdata hstarved
  have hends : ∀ j, Boundary rs (start + j) ↔
      ∃ k, (us.flatten ++ g).length - start + (gs.take k).flatten.length = j := by
    intro j
    rw [hrs,boundary_iff hlast hle]
  simp only [hends]
  by_cases hm : awaited c ≤ (us.flatten ++ g).length - start + gs.flatten.length
  · obtain ⟨k,cli',rest',hhandle,hhand,hreach,hbefore⟩ := hdata hm
    clear hdata
    have hpre : (us.flatten ++ g).drop start ++ (gs.take k).flatten = (s.drop start).take
        ((us.flatten ++ g).length - start + (gs.take k).flatten.length) := by
      rw [hstream]
      nth_rewrite 3 [← List.take_append_drop k gs]
      rw [List.flatten_append,← List.append_assoc,List.take_left' (by rw [List.length_append,List.length_drop])]
    have hkle := flatten_take_le gs (Nat.le_max_left k gs.length)
    rw [List.take_of_length_le (Nat.le_max_right k gs.length)] at hkle
    have hfit : (us.flatten ++ g).length - start + (gs.take k).flatten.length ≤ s.length - start := by omega
    have hfit' : n ≤ s.length - start := by omega
    constructor
    · rintro ⟨cli'',rest'',hhandle',hhand'⟩
      rw [hhandle] at hhandle'
      cases hhandle'
      rw [hhand,hpre] at hhand'
      have hn := congrArg List.length (Option.some.inj hhand')
      rw [List.length_take,List.length_take,List.length_drop,min_eq_left hfit,min_eq_left hfit'] at hn
      refine ⟨by omega,⟨k,hn⟩,?_⟩
      rintro j hj hmj ⟨i,hi⟩
      -- a packet that ends earlier ends before the awaited length
      rcases Nat.lt_or_ge i k with hik | hki
      · have := hbefore i hik
        omega
      · have := flatten_take_le gs hki
        omega
    · rintro ⟨hmn,⟨i,hi⟩,hfirst⟩
      have hki : k ≤ i := by
        by_contra hlt
        have := hbefore i (Nat.not_le.mp hlt)
        omega
      have hkn := flatten_take_le gs hki
      have hn : (us.flatten ++ g).length - start + (gs.take k).flatten.length = n := by
        by_contra hne
        exact hfirst _ (by omega) hreach ⟨k,rfl⟩
      exact ⟨cli',rest',hhandle,by rw [hhand,hpre,hn]⟩
  · rw [hstarved (Nat.not_le.mp hm)]
    constructor
    · rintro ⟨_,_,h,-⟩
      cases h
    · rintro ⟨hmn,-⟩
      exact absurd hmn (by omega)

/-- A chunked body reaches the handler decoded only by accident: the packet that completes the header ends after
as many bytes as the chunks hold, and the encoding begins with the chunks' own data. -/
theorem chunked_body_iff {cli cli₁ : HttpCli} {s : List UInt8} {rs rest : List Recv} {cs : List (List UInt8)}
    (hcut : Cut s rs) (hhdr : httpRecvReqHdr cli rs = some (none,cli₁,rest)) (hpost : cli₁.method = some .post)
    (hchunked : cli₁.chunked = true) (henc : s.drop (bodyStart cli₁ rs rest) = encodeChunks cs) :
    ∃ cli' rest', httpHandleCliRd away cli rs = some (none,cli',rest') ∧
      (cli'.handed = some cs.flatten ↔ cs.flatten <+: encodeChunks cs ∧
        Boundary rs (bodyStart cli₁ rs rest + cs.flatten.length) ∧
        ∀ n < cs.flatten.length, ¬ Boundary rs (bodyStart cli₁ rs rest + n)) := by
  obtain ⟨us,g,gs,start,hrs,rfl,_,hstart,hlast,hle,hbody,hlen,_,hstream⟩ := accepted_cut hcut hhdr
  rw [hstart] at henc ⊢
  rw [henc] at hstream
  obtain ⟨h₁,h₂,_,_,h₅,h₆⟩ := httpSetPath_frame cli₁
  refine ⟨httpSetPath cli₁,gs.map .data,?_,?_⟩
  · simp only [httpHandleCliRd,hhdr,h₆,hpost,if_true,httpRecvbody,h₅,hchunked,httpRecvChunked_eq,Option.map_some]
  · have hhand : (httpSetPath cli₁).handed = some ((us.flatten ++ g).drop start) := by
      simp [HttpCli.handed,h₁,h₂,hbody,hlen]
    have hends : ∀ n, Boundary rs (start + n) ↔
        ∃ k, ((us.flatten ++ g).drop start).length + (gs.take k).flatten.length = n := by
      intro n
      rw [hrs,boundary_iff hlast hle,List.length_drop]
    rw [hhand,Option.some.injEq]
    simp only [hends]
    constructor
    · intro h
      rw [h] at hstream ⊢
      refine ⟨by rw [hstream]; exact List.prefix_append _ _,⟨0,by simp⟩,?_⟩
      rintro n hn ⟨k,hk⟩
      omega
    · rintro ⟨hpre,⟨k,hk⟩,hfirst⟩
      have hsame : ((us.flatten ++ g).drop start).length = cs.flatten.length := by
        by_contra hne
        exact hfirst ((us.flatten ++ g).drop start).length (by omega) ⟨0,by simp⟩
      rw [hstream] at hpre
      exact ((List.prefix_of_prefix_length_le (List.prefix_append _ _) hpre hsame.le).eq_of_length hsame)

/-- A recv result that brings no bytes. -/
def Recv.fails : Recv → Bool
  | .data _ => false
  | _ => true

/-- An accepted POST of whose `n` bytes of body too few have come when a recv fails. -/
def ShortOf (cli : HttpCli) (rs : List Recv) (n : Nat) : Prop :=
  ∃ (c : HttpCli) (gs : List (List UInt8)) (f : Recv) (ks : List Recv),
    httpRecvHdr cli rs = some (none,c,gs.map .data ++ f :: ks) ∧ (httpParseReqHdr c).1 = none ∧
    methodNamed c.block = some .post ∧ f.fails = true ∧ c.bodyLen + gs.flatten.length < n

/-- The count that body_len follows while `m` bytes are waited for, beside the bytes that are `there`: a timeout takes
two off it, and an error frees the bytes. In the end the count is not above what is there. -/
def keepsBody (m told there : Nat) : List Recv → Bool
  | [] => told ≤ there
  | r :: rs =>
    if told < m then
      match r with
      | .error => told = 0
      | .closed => told ≤ there
      | .timeout => keepsBody m ((told + (2^64 - 2)) % 2^64) there rs
      | .data bs => keepsBody m (told + bs.length) (max there (min told there + bs.length)) rs
    else told ≤ there

/-- Where more is waited for than `n` bytes, what comes keeps the body. -/
def KeptBeyond (cli : HttpCli) (rs : List Recv) (n : Nat) : Prop :=
  ∀ c rest, httpRecvHdr cli rs = some (none,c,rest) → (httpParseReqHdr c).1 = none →
    methodNamed c.block = some .post → n < awaited c → keepsBody (awaited c) c.bodyLen c.bodyLen rest = true

/-- `body` points to memory that holds `body_len` bytes. -/
def HttpCli.BodyHeld (cli : HttpCli) : Prop :=
  match cli.body with
  | none => cli.bodyLen = 0
  | some b => cli.bodyLen ≤ b.length

private theorem bodyHeld_iff {cli : HttpCli} {b : List UInt8} (hbody : cli.body = some b) :
    cli.BodyHeld ↔ cli.bodyLen ≤ b.length := by
  rw [HttpCli.BodyHeld,hbody]

private theorem patch_length (b : List UInt8) (off : Nat) (bs : List UInt8) :
    (patch (some b) off bs).length = max b.length (min off b.length + bs.length) := by
  simp only [patch,Option.getD_some,List.length_append,List.length_take,List.length_drop]
  omega

/-- The loop leaves a body of the length it tells exactly when the counts say so. -/
private theorem exactLoop_held {cli cli' : HttpCli} {b : List UInt8} {rs rest : List Recv} {ret : Int}
    (hbody : cli.body = some b) (h : httpRecvExactLoop cli cli.bodyLen rs = some (ret,cli',rest)) :
    cli'.BodyHeld ↔ keepsBody cli.cntLen cli.bodyLen b.length rs = true := by
  induction rs generalizing cli b with
  | nil =>
    simp only [httpRecvExactLoop] at h
    split at h
    · cases h
    · cases h
      rw [keepsBody,decide_eq_true_eq,bodyHeld_iff hbody]
  | cons r rs ih =>
    simp only [httpRecvExactLoop] at h
    simp only [keepsBody]
    split at h
    · rename_i hlt
      rw [if_pos hlt]
      cases r with
      | closed =>
        cases h
        rw [decide_eq_true_eq]
        exact bodyHeld_iff hbody
      | error =>
        cases h
        rw [decide_eq_true_eq]
        exact Iff.rfl
      | timeout => exact @ih { cli with bodyLen := (cli.bodyLen + (2^64 - 2)) % 2^64 } b hbody h
      | data bs =>
        dsimp only at h ⊢
        split at h
        · cases h
        · rw [hbody] at h
          let grown : HttpCli :=
            { cli with body := some (patch (some b) cli.bodyLen bs), bodyLen := cli.bodyLen + bs.length }
          have hlater := @ih grown _ rfl h
          rw [patch_length] at hlater
          exact hlater
    · rename_i hdone
      cases h
      rw [if_neg hdone,decide_eq_true_eq,bodyHeld_iff hbody]

/-- Nothing is lost where no recv fails before the awaited length. -/
private theorem keepsBody_of_whole {m told there : Nat} {rs : List Recv} (hle : told ≤ there)
    (hwhole : ∀ (gs : List (List UInt8)) (f : Recv) (ks : List Recv), rs = gs.map .data ++ f :: ks → f.fails = true →
      m ≤ told + gs.flatten.length) : keepsBody m told there rs = true := by
  induction rs generalizing told there with
  | nil => exact decide_eq_true hle
  | cons r rs ih =>
    simp only [keepsBody]
    split
    · rename_i hlt
      have hdata : r.fails = true → m ≤ told := fun hf => by simpa using hwhole [] r rs rfl hf
      cases r with
      | error => exact absurd (hdata rfl) (Nat.not_le.mpr hlt)
      | closed => exact absurd (hdata rfl) (Nat.not_le.mpr hlt)
      | timeout => exact absurd (hdata rfl) (Nat.not_le.mpr hlt)
      | data bs =>
        refine ih (by omega) fun gs f ks hrs hf => ?_
        have := hwhole (bs :: gs) f ks (by rw [hrs]; rfl) hf
        rw [List.flatten_cons,List.length_append] at this
        omega
    · exact decide_eq_true hle

private theorem httpRecvReqHdr_received {cli c₁ : HttpCli} {rs rest : List Recv}
    (h : httpRecvReqHdr cli rs = some (none,c₁,rest)) :
    ∃ c, httpRecvHdr cli rs = some (none,c,rest) ∧ httpParseReqHdr c = (none,c₁) := by
  unfold httpRecvReqHdr at h
  split at h
  · rename_i c rest' hrecv
    simp only [Option.some.injEq,Prod.mk.injEq] at h
    obtain ⟨hok,hc,rfl⟩ := h
    exact ⟨c,hrecv,Prod.ext hok hc⟩
  · rename_i hne
    exact absurd h (hne _ _)

/-- An accepted POST always comes to the router, with a body that is held exactly when the counts say so. -/
private theorem post_routed {cli c cli' : HttpCli} {rs rest rest' : List Recv} {err : Option HttpReqErr}
    (hinit : cli.hdrs = []) (h : httpHandleCliRd away cli rs = some (err,cli',rest'))
    (hrecv : httpRecvHdr cli rs = some (none,c,rest)) (hok : (httpParseReqHdr c).1 = none)
    (hpost : methodNamed c.block = some .post) :
    err = none ∧ (cli'.BodyHeld ↔ keepsBody (awaited c) c.bodyLen c.bodyLen rest = true) := by
  obtain ⟨c₁,c₂,hreq,hbody,hlen,hcase⟩ := httpHandleCliRd_post away hinit hrecv hok hpost
  obtain ⟨us,g,a,e,hdr,_,_,_,_,_,_,hle,_,hc⟩ := httpRecvHdr_ok hrecv
  have hparsed : c₁ = (httpParseReqHdr c).2 := by
    rw [httpRecvReqHdr,hrecv] at hreq
    exact (congrArg (fun r => r.2.1) (Option.some.inj hreq)).symm
  obtain ⟨hbody₁,hlen₁,-⟩ := httpParseReqHdr_frame c
  rw [hparsed,hbody₁,hc] at hbody
  rw [hparsed,hlen₁] at hlen
  have hthere : ((us.flatten ++ g).drop (a + e)).length = c.bodyLen := by rw [List.length_drop,hc]
  rcases hcase with ⟨hzero,hhandle⟩ | ⟨hm,hhandle⟩
  · rw [hhandle] at h
    cases h
    refine ⟨rfl,?_⟩
    rw [bodyHeld_iff hbody,hzero,hlen,hthere]
    refine iff_of_true le_rfl (keepsBody_of_whole le_rfl fun _ _ _ _ _ => Nat.zero_le _)
  · rw [hhandle] at h
    obtain ⟨⟨ret,cli₂,rest₂⟩,hloop,hr⟩ := Option.map_eq_some_iff.mp h
    cases hr
    refine ⟨rfl,?_⟩
    rw [exactLoop_held hbody hloop,← hm,hthere,hlen]

/-- For a request handled to its end, whatever number `n` is sent as its Content-Length: a body that breaks off before
`n` bytes keeps the router from being called, and the router finds the body it is told of, exactly when no body breaks
off before `n` bytes and what is waited for beyond them is kept. -/
theorem broken_body_stopped_iff {cli cli' : HttpCli} {rs rest : List Recv} {err : Option HttpReqErr}
    (hinit : cli.hdrs = []) (h : httpHandleCliRd away cli rs = some (err,cli',rest)) (n : Nat) :
    ((ShortOf cli rs n → err ≠ none) ∧ (err = none → cli'.BodyHeld)) ↔ ¬ ShortOf cli rs n ∧ KeptBeyond cli rs n := by
  constructor
  · rintro ⟨hstop,hheld⟩
    refine ⟨fun hshort => ?_,?_⟩
    · obtain ⟨c,gs,f,ks,hrecv,hok,hpost,hrest⟩ := hshort
      exact hstop ⟨c,gs,f,ks,hrecv,hok,hpost,hrest⟩ (post_routed away hinit h hrecv hok hpost).1
    · intro c rest' hrecv hok hpost _
      obtain ⟨hrouted,hiff⟩ := post_routed away hinit h hrecv hok hpost
      exact hiff.mp (hheld hrouted)
  · rintro ⟨hwhole,hkept⟩
    refine ⟨fun hshort => absurd hshort hwhole,?_⟩
    rintro rfl
    match hreq : httpRecvReqHdr cli rs with
    | none =>
      rw [httpHandleCliRd,hreq] at h
      cases h
    | some (some e,c₁,rest₁) =>
      rw [httpHandleCliRd,hreq] at h
      cases h
    | some (none,c₁,rest₁) =>
      obtain ⟨c,hrecv,hparse⟩ := httpRecvReqHdr_received hreq
      have hok : (httpParseReqHdr c).1 = none := by rw [hparse]
      by_cases hpost : methodNamed c.block = some .post
      · obtain ⟨-,hiff⟩ := post_routed away hinit h hrecv hok hpost
        refine hiff.mpr ?_
        by_cases hbeyond : n < awaited c
        · exact hkept c rest₁ hrecv hok hpost hbeyond
        · refine keepsBody_of_whole le_rfl fun gs f ks hrest hf => ?_
          by_contra hlt
          exact hwhole ⟨c,gs,f,ks,by rw [hrecv,hrest],hok,hpost,hf,by omega⟩
      · obtain ⟨hhdrs,hzero,hfits⟩ := httpRecvHdr_received hrecv
        obtain ⟨-,-,-,hmethod⟩ := httpParseReqHdr_framing hparse (hhdrs.trans hinit) hzero hfits
        obtain ⟨us,g,start,_,_,_,hbody,hlen,_⟩ := httpRecvReqHdr_ok hreq
        obtain ⟨h₁,h₂,_,_,_,h₆⟩ := httpSetPath_frame c₁
        simp only [httpHandleCliRd,hreq,h₆,hmethod,if_neg hpost] at h
        cases h
        rw [bodyHeld_iff (h₁.trans hbody),h₂,hlen,List.length_drop]

end Handled

/-- A POST to /q that announces two bytes of body. -/
def postTwo : List UInt8 :=
  [80,79,83,84,32,47,113,32,72,84,84,80,47,49,46,48,13,10,67,111,110,116,101,110,116,45,76,101,110,103,116,104,58,32,50,
    13,10,13,10]

/-- The request that follows comes in the same packet and ends up in the message. -/
theorem pipelined_in_body : ∃ c cli' rest rest',
    Cut (postTwo ++ [104,105] ++ plainGet) [.data (postTwo ++ [104,105] ++ plainGet)] ∧
    httpRecvHdr .new [.data (postTwo ++ [104,105] ++ plainGet)] = some (none,c,rest) ∧
    (httpParseReqHdr c).1 = none ∧ methodNamed c.block = some .post ∧ awaited c = 2 ∧
    bodyStart c [.data (postTwo ++ [104,105] ++ plainGet)] rest = postTwo.length ∧
    httpHandleCliRd (fun _ => 0) .new [.data (postTwo ++ [104,105] ++ plainGet)] = some (none,cli',rest') ∧
    cli'.handed ≠ some (((postTwo ++ [104,105] ++ plainGet).drop postTwo.length).take 2) := by
  obtain ⟨⟨err,c,rest⟩,hr,hobs⟩ := Option.map_eq_some_iff.mp (show
      (httpRecvHdr .new [.data (postTwo ++ [104,105] ++ plainGet)]).map
        (fun r => ((r.1,(httpParseReqHdr r.2.1).1),r.2.2,methodNamed r.2.1.block,[awaited r.2.1,r.2.1.bodyLen])) =
    some ((none,none),[],some .post,[2,21]) by decide +kernel)
  simp only [Prod.mk.injEq,List.cons.injEq] at hobs
  obtain ⟨⟨rfl,hok⟩,rfl,hmethod,hlen,hbody,_⟩ := hobs
  obtain ⟨⟨err,cli',rest'⟩,hr',hobs'⟩ := Option.map_eq_some_iff.mp (show
      (httpHandleCliRd (fun _ => 0) .new [.data (postTwo ++ [104,105] ++ plainGet)]).map
        (fun r => (r.1,r.2.1.handed)) = some (none,some ([104,105] ++ plainGet)) by decide +kernel)
  simp only [Prod.mk.injEq] at hobs'
  obtain ⟨rfl,hhand⟩ := hobs'
  refine ⟨c,cli',[],rest',⟨[_],by decide,by simp,rfl⟩,hr,hok,hmethod,hlen,by rw [bodyStart,hbody]; rfl,hr',?_⟩
  rw [hhand]
  decide

/-- The two bytes come in two packets, and the second packet ends with them. -/
theorem post_body_exact_split : ∃ cli' rest',
    httpHandleCliRd (fun _ => 0) .new [.data (postTwo ++ [104]),.data [105]] = some (none,cli',rest') ∧
    cli'.handed = some [104,105] := by
  obtain ⟨⟨err,c,rest⟩,hr,hobs⟩ := Option.map_eq_some_iff.mp (show
      (httpRecvHdr .new [.data (postTwo ++ [104]),.data [105]]).map
        (fun r => ((r.1,(httpParseReqHdr r.2.1).1),r.2.2,methodNamed r.2.1.block,[awaited r.2.1,r.2.1.bodyLen])) =
    some ((none,none),[.data [105]],some .post,[2,1]) by decide +kernel)
  simp only [Prod.mk.injEq,List.cons.injEq] at hobs
  obtain ⟨⟨rfl,hok⟩,rfl,hmethod,hlen,hbody,_⟩ := hobs
  have hcut : Cut (postTwo ++ [104,105]) [.data (postTwo ++ [104]),.data [105]] :=
    ⟨[postTwo ++ [104],[105]],by decide,rfl,rfl⟩
  have hstart : bodyStart c [.data (postTwo ++ [104]),.data [105]] [.data [105]] = postTwo.length := by
    rw [bodyStart,hbody]
    rfl
  have hiff := @post_body_exact_iff (fun _ => 0) _ _ _ _ _ hcut rfl hr hok hmethod
    (by
      intro g hg
      cases List.mem_singleton.mp hg
      decide) 2
    (by
      rw [hstart]
      decide)
  rw [hstart,hlen] at hiff
  exact hiff.mpr ⟨le_rfl,⟨_,[],(List.append_nil _).symm,rfl⟩,fun j hj hle => absurd hle (Nat.not_le.mpr hj)⟩

/-- A POST to /q with a chunked body. -/
def postChunked : List UInt8 :=
  [80,79,83,84,32,47,113,32,72,84,84,80,47,49,46,49,13,10,84,114,97,110,115,102,101,114,45,69,110,99,111,100,105,110,
    103,58,32,99,104,117,110,107,101,100,13,10,13,10]

/-- One chunk of two bytes comes after the header, and the handler gets no body at all. -/
theorem chunks_not_decoded : ∃ cli₁ cli' rest rest',
    Cut (postChunked ++ encodeChunks [[104,105]]) [.data postChunked,.data (encodeChunks [[104,105]])] ∧
    httpRecvReqHdr .new [.data postChunked,.data (encodeChunks [[104,105]])] = some (none,cli₁,rest) ∧
    cli₁.method = some .post ∧ cli₁.chunked = true ∧
    bodyStart cli₁ [.data postChunked,.data (encodeChunks [[104,105]])] rest = postChunked.length ∧
    httpHandleCliRd (fun _ => 0) .new [.data postChunked,.data (encodeChunks [[104,105]])] = some (none,cli',rest') ∧
    cli'.handed ≠ some [[104,105]].flatten := by
  obtain ⟨⟨err,cli₁,rest⟩,hr,hobs⟩ := Option.map_eq_some_iff.mp (show
      (httpRecvReqHdr .new [.data postChunked,.data (encodeChunks [[104,105]])]).map
        (fun r => (r.1,r.2.2,r.2.1.method,r.2.1.chunked,r.2.1.bodyLen)) =
    some (none,[.data (encodeChunks [[104,105]])],some .post,true,0) by decide +kernel)
  simp only [Prod.mk.injEq] at hobs
  obtain ⟨rfl,rfl,hmethod,hchunked,hbody⟩ := hobs
  obtain ⟨⟨err,cli',rest'⟩,hr',hobs'⟩ := Option.map_eq_some_iff.mp (show
      (httpHandleCliRd (fun _ => 0) .new [.data postChunked,.data (encodeChunks [[104,105]])]).map
        (fun r => (r.1,r.2.1.handed)) = some (none,some []) by decide +kernel)
  simp only [Prod.mk.injEq] at hobs'
  obtain ⟨rfl,hhand⟩ := hobs'
  refine ⟨cli₁,cli',_,rest',⟨[_,_],by decide,by simp,rfl⟩,hr,hmethod,hchunked,?_,hr',?_⟩
  · rw [bodyStart,hbody]
    rfl
  · rw [hhand]
    decide

/-- The chunk "1" is its own size line; a packet that ends after that line's first byte gives the right body. -/
theorem chunked_body_lucky : ∃ cli' rest',
    httpHandleCliRd (fun _ => 0) .new [.data (postChunked ++ [49]),.data [13,10,49,13,10,48,13,10,13,10]] =
      some (none,cli',rest') ∧ cli'.handed = some [49] := by
  obtain ⟨⟨err,cli₁,rest⟩,hr,hobs⟩ := Option.map_eq_some_iff.mp (show
      (httpRecvReqHdr .new [.data (postChunked ++ [49]),.data [13,10,49,13,10,48,13,10,13,10]]).map
        (fun r => (r.1,r.2.2,r.2.1.method,r.2.1.chunked,r.2.1.bodyLen)) =
    some (none,[.data [13,10,49,13,10,48,13,10,13,10]],some .post,true,1) by decide +kernel)
  simp only [Prod.mk.injEq] at hobs
  obtain ⟨rfl,rfl,hmethod,hchunked,hbody⟩ := hobs
  have hcut : Cut (postChunked ++ encodeChunks [[49]])
      [.data (postChunked ++ [49]),.data [13,10,49,13,10,48,13,10,13,10]] :=
    ⟨[postChunked ++ [49],[13,10,49,13,10,48,13,10,13,10]],by decide,by decide,rfl⟩
  have hstart : bodyStart cli₁ [.data (postChunked ++ [49]),.data [13,10,49,13,10,48,13,10,13,10]]
      [.data [13,10,49,13,10,48,13,10,13,10]] = postChunked.length := by
    rw [bodyStart,hbody]
    rfl
  obtain ⟨cli',rest',hh,hiff⟩ := @chunked_body_iff (fun _ => 0) _ _ _ _ _ [[49]] hcut hr hmethod hchunked
    (by rw [hstart,List.drop_left])
  refine ⟨cli',rest',hh,hiff.mpr ⟨by decide,?_,?_⟩⟩
  · rw [hstart]
    exact ⟨[.data (postChunked ++ [49])],_,rfl,by decide⟩
  · -- the only earlier end of a packet would be before the first byte of the stream
    rw [hstart]
    rintro n hn ⟨rs₁,rs₂,heq,hpos⟩
    have hn : n = 0 := Nat.lt_one_iff.mp hn
    subst hn
    cases rs₁ with
    | nil => exact absurd hpos (by decide)
    | cons r rs₁ =>
      obtain ⟨rfl,_⟩ := List.cons.inj heq
      rw [← List.singleton_append,recvBytes_append,List.length_append] at hpos
      have hlong : (recvBytes [.data (postChunked ++ [49])]).length = postChunked.length + 1 := rfl
      omega

/-- One of the two bytes has come when recv fails: the handler is called, with no body and a length of 1. -/
theorem broken_body_routed : ∃ cli' rest,
    httpHandleCliRd (fun _ => 0) .new [.data postTwo,.data [104],.error] = some (none,cli',rest) ∧
    ShortOf .new [.data postTwo,.data [104],.error] 2 ∧ ¬ cli'.BodyHeld := by
  obtain ⟨⟨err,c,rest⟩,hr,hobs⟩ := Option.map_eq_some_iff.mp (show
      (httpRecvHdr .new [.data postTwo,.data [104],.error]).map
        (fun r => ((r.1,(httpParseReqHdr r.2.1).1),r.2.2,methodNamed r.2.1.block,r.2.1.bodyLen)) =
    some ((none,none),[.data [104],.error],some .post,0) by decide +kernel)
  simp only [Prod.mk.injEq] at hobs
  obtain ⟨⟨rfl,hok⟩,rfl,hmethod,hbody⟩ := hobs
  obtain ⟨⟨err,cli',rest'⟩,hr',hobs'⟩ := Option.map_eq_some_iff.mp (show
      (httpHandleCliRd (fun _ => 0) .new [.data postTwo,.data [104],.error]).map
        (fun r => (r.1,r.2.1.body,r.2.1.bodyLen)) = some (none,none,1) by decide +kernel)
  simp only [Prod.mk.injEq] at hobs'
  obtain ⟨rfl,hnull,hone⟩ := hobs'
  refine ⟨cli',rest',hr',⟨c,[[104]],.error,[],hr,hok,hmethod,rfl,?_⟩,?_⟩
  · rw [hbody]
    decide
  · simp [HttpCli.BodyHeld,hnull,hone]

/-- Both bytes come, and the router finds them. -/
theorem whole_body_routed : ∃ cli' rest,
    httpHandleCliRd (fun _ => 0) .new [.data postTwo,.data [104,105]] = some (none,cli',rest) ∧ cli'.BodyHeld := by
  obtain ⟨⟨err,c,rest⟩,hr,hobs⟩ := Option.map_eq_some_iff.mp (show
      (httpRecvHdr .new [.data postTwo,.data [104,105]]).map (fun r => (r.1,r.2.2,awaited r.2.1)) =
    some (none,[.data [104,105]],2) by decide +kernel)
  simp only [Prod.mk.injEq] at hobs
  obtain ⟨rfl,rfl,hlen⟩ := hobs
  obtain ⟨⟨err,cli',rest'⟩,hr',hobs'⟩ := Option.map_eq_some_iff.mp (show
      (httpHandleCliRd (fun _ => 0) .new [.data postTwo,.data [104,105]]).map (fun r => r.1) =
        some none by decide +kernel)
  obtain rfl : err = none := hobs'
  refine ⟨cli',rest',hr',((broken_body_stopped_iff _ rfl hr' 2).mpr ⟨?_,?_⟩).2 rfl⟩
  · rintro ⟨c₂,gs,f,ks,hr₂,_,_,hf,_⟩
    rw [hr] at hr₂
    simp only [Option.some.injEq,Prod.mk.injEq,true_and] at hr₂
    have hmem : f ∈ [Recv.data [104,105]] := by
      rw [hr₂.2]
      exact List.mem_append_right _ List.mem_cons_self
    rw [List.mem_singleton.mp hmem] at hf
    cases hf
  · intro c₂ rest₂ hr₂ _ _ hbeyond
    rw [hr] at hr₂
    cases hr₂
    rw [hlen] at hbeyond
    exact absurd hbeyond (lt_irrefl 2)

end Memqueue
