import Memqueue.Http.Leftovers

/-! Requests on one connection: what one of them leaves for the next.
Two connections with different pasts are given the same packets. -/
namespace Memqueue

/-- A connection with another body. -/
def HttpCli.withBody (cli : HttpCli) (body : Option (List UInt8)) (bodyLen : Nat) : HttpCli :=
  { cli with body, bodyLen }

section Body
variable {a : HttpCli}

private theorem exactLoop_packet {cli : HttpCli} {recvd : Nat} (h : recvd < cli.cntLen) (bs : List UInt8)
    (rs : List Recv) :
    httpRecvExactLoop cli recvd (.data bs :: rs) = if bs = [] ∨ tcpBufSize < bs.length then none
      else httpRecvExactLoop (cli.withBody (some (patch cli.body recvd bs)) (recvd + bs.length))
        (recvd + bs.length) rs := by
  rw [httpRecvExactLoop,if_pos h]
  rfl

/-- What a failed recv does to the body; after a timeout the loop goes on with another count. -/
private theorem exactLoop_fail (recvd : Nat) : ∃ later, ∀ (cli : HttpCli) (rs : List Recv), recvd < cli.cntLen →
    httpRecvExactLoop cli recvd [] = none ∧
    httpRecvExactLoop cli recvd (.closed :: rs) = some (0,cli.withBody cli.body recvd,rs) ∧
    httpRecvExactLoop cli recvd (.error :: rs) = some (-1,cli.withBody none cli.bodyLen,rs) ∧
    httpRecvExactLoop cli recvd (.timeout :: rs) = httpRecvExactLoop (cli.withBody cli.body later) later rs := by
  refine ⟨(recvd + (2^64 - 2)) % 2^64,fun cli rs h => ⟨?_,?_,?_,?_⟩⟩
  all_goals rw [httpRecvExactLoop,if_pos h]
  all_goals rfl

/-- What the loop of http_recv_exact makes of the body depends on the connection only through the announced length. -/
private theorem exactLoop_withBody (b : HttpCli) (hcnt : b.cntLen = a.cntLen) (recvd : Nat) (rs : List Recv) :
    httpRecvExactLoop (b.withBody a.body a.bodyLen) recvd rs =
      (httpRecvExactLoop a recvd rs).map fun r => (r.1,b.withBody r.2.1.body r.2.1.bodyLen,r.2.2) := by
  induction rs generalizing a recvd with
  | nil =>
    by_cases hlt : recvd < a.cntLen
    · obtain ⟨_,hfail⟩ := exactLoop_fail recvd
      rw [(hfail a [] hlt).1,(hfail (b.withBody a.body a.bodyLen) [] (hcnt ▸ hlt)).1]
      rfl
    · rw [exactLoop_done hlt,@exactLoop_done (b.withBody a.body a.bodyLen) recvd (hcnt ▸ hlt)]
      rfl
  | cons r rs ih =>
    by_cases hlt : recvd < a.cntLen
    swap
    · rw [exactLoop_done hlt,@exactLoop_done (b.withBody a.body a.bodyLen) recvd (hcnt ▸ hlt)]
      rfl
    obtain ⟨later,hfail⟩ := exactLoop_fail recvd
    obtain ⟨-,hclosed,herror,htimeout⟩ := hfail a rs hlt
    obtain ⟨-,hclosed',herror',htimeout'⟩ := hfail (b.withBody a.body a.bodyLen) rs (hcnt ▸ hlt)
    cases r with
    | closed =>
      rw [hclosed,hclosed']
      rfl
    | error =>
      rw [herror,herror']
      rfl
    | timeout =>
      rw [htimeout,htimeout']
      exact @ih (a.withBody a.body later) hcnt later
    | data bs =>
      rw [exactLoop_packet hlt,@exactLoop_packet (b.withBody a.body a.bodyLen) recvd (hcnt ▸ hlt)]
      split
      · rfl
      · exact @ih (a.withBody (some (patch a.body recvd bs)) (recvd + bs.length)) hcnt _

theorem httpRecvExact_withBody (b : HttpCli) (hcnt : b.cntLen = a.cntLen) (hnolen : b.nolen = a.nolen)
    (rs : List Recv) :
    httpRecvExact (b.withBody a.body a.bodyLen) rs =
      (httpRecvExact a rs).map fun r => (r.1,b.withBody r.2.1.body r.2.1.bodyLen,r.2.2) := by
  have hnolen' : (b.withBody a.body a.bodyLen).nolen = a.nolen := hnolen
  have hcnt' : (b.withBody a.body a.bodyLen).cntLen = a.cntLen := hcnt
  rw [httpRecvExact,httpRecvExact,hnolen',hcnt']
  show (if a.nolen = true then _ else if a.bodyLen = a.cntLen then _ else _) = _
  split
  · rfl
  split
  · rfl
  · exact exactLoop_withBody b hcnt a.bodyLen rs

/-- Of a connection only the body changes. -/
theorem httpRecvExact_self (a : HttpCli) (rs : List Recv) :
    ((httpRecvExact a rs).map fun r => (r.1,a.withBody r.2.1.body r.2.1.bodyLen,r.2.2)) = httpRecvExact a rs :=
  (httpRecvExact_withBody a rfl rfl rs).symm

end Body

section History
variable (away : List UInt8 → Int)

/-- A request with an accepted header: only a POST that is not chunked has its body received. -/
theorem httpHandleCliRd_accepted {cli c : HttpCli} {rs rest : List Recv}
    (h : httpRecvReqHdr cli rs = some (none,c,rest)) :
    httpHandleCliRd away cli rs = if c.method = some .post ∧ c.chunked = false
      then (httpRecvExact (httpSetPath c) rest).map fun r => (none,r.2) else some (none,httpSetPath c,rest) := by
  obtain ⟨-,-,-,-,hchunked,hmethod⟩ := httpSetPath_frame c
  rw [httpHandleCliRd,h]
  dsimp only
  rw [hmethod,httpRecvbody,hchunked]
  by_cases hpost : c.method = some .post
  · rw [if_pos hpost]
    cases hc : c.chunked with
    | true =>
      rw [if_pos rfl,if_neg (by simp),httpRecvChunked_eq]
      rfl
    | false => rw [if_neg (by simp),if_pos ⟨hpost,rfl⟩]
  · rw [if_neg hpost,if_neg fun h => hpost h.1]

theorem httpHandleCliRd_rejected {cli c : HttpCli} {rs rest : List Recv} {e : HttpReqErr}
    (h : httpRecvReqHdr cli rs = some (some e,c,rest)) : httpHandleCliRd away cli rs = some (some e,c,rest) := by
  rw [httpHandleCliRd,h]

/-- A keep-alive connection at the start of a request: all requests have been handled, and no packet is left over. -/
inductive Served : HttpCli → Prop
  | start : Served HttpCli.new.init
  | next {cli cli' : HttpCli} {rs : List Recv} : Served cli → httpHandleCliRd away cli rs = some (none,cli',[]) →
      Served cli'.reset.init

private theorem handle_nolen {cli cli' : HttpCli} {rs rest : List Recv}
    (h : httpHandleCliRd away cli rs = some (none,cli',rest)) : cli'.nolen = cli.nolen := by
  match hr : httpRecvReqHdr cli rs with
  | none =>
    rw [httpHandleCliRd,hr] at h
    cases h
  | some (some e,c,rest) =>
    rw [httpHandleCliRd_rejected away hr] at h
    cases h
  | some (none,c,rest) =>
    obtain ⟨_,_,_,_,_,_,_,_,hnolen⟩ := httpRecvReqHdr_ok hr
    obtain ⟨-,-,hpath,-⟩ := httpSetPath_frame c
    rw [httpHandleCliRd_accepted away hr] at h
    split at h
    · rw [← httpRecvExact_self,Option.map_map] at h
      obtain ⟨r,-,h⟩ := Option.map_eq_some_iff.mp h
      cases h
      exact hpath.trans hnolen
    · cases h
      exact hpath.trans hnolen

theorem Served.isFresh {cli : HttpCli} (h : Served away cli) : cli.Fresh := by
  induction h with
  | start => exact ⟨rfl,rfl,rfl,rfl⟩
  | next _ hreq ih => exact ⟨(handle_nolen away hreq).trans ih.nolen,rfl,rfl,rfl⟩

end History

/-- What http_lt_cli_rd knows of a request: what http_handle_cli_rd returned and the fields parsed, with the strings
the header table leads to and the body as it is handed over. -/
structure ParsedReq where
  ret : Option HttpReqErr
  method : Option HttpMethod
  uri : Option (List UInt8)
  http11 : Bool
  hdrs : List (List UInt8 × List UInt8)
  cntLen : Nat
  chunked : Bool
  body : Option (List UInt8)
  deriving DecidableEq

def parsedReq (r : Option HttpReqErr × HttpCli × List Recv) : ParsedReq where
  ret := r.1
  method := r.2.1.method
  uri := r.2.1.uri
  http11 := r.2.1.http11
  hdrs := r.2.1.hdrs.map fun e => (e.1,r.2.1.value e.2)
  cntLen := r.2.1.cntLen
  chunked := r.2.1.chunked
  body := r.2.1.handed

section Request
variable {n : Nat} {a b : HttpCli}

private theorem parsed_alike {c d : HttpCli} (h : Twin n c d) (hv : SameValues c d) (hchunked : c.chunked = d.chunked)
    (hmethod : c.method = d.method) (hversion : c.http11 = d.http11) (e : Option HttpReqErr)
    (body : Option (List UInt8)) (k : Nat) (rest : List Recv) :
    parsedReq (e,c.withBody body k,rest) = parsedReq (e,d.withBody body k,rest) := by
  have hvalues : c.hdrs.map (fun e => (e.1,c.value e.2)) = d.hdrs.map (fun e => (e.1,d.value e.2)) := by
    rw [← h.hdrs]
    exact List.map_congr_left fun e he => Prod.ext rfl (hv e he)
  show ParsedReq.mk e c.method c.uri c.http11 _ c.cntLen c.chunked _ =
    ParsedReq.mk e d.method d.uri d.http11 _ d.cntLen d.chunked _
  rw [hmethod,h.uri,hversion,h.cntLen,hchunked]
  exact congrArg (fun t => ParsedReq.mk e d.method d.uri d.http11 t d.cntLen d.chunked _) hvalues

private theorem httpSetPath_twin {c d : HttpCli} (h : Twin n c d) (hv : SameValues c d) :
    Twin n (httpSetPath c) (httpSetPath d) ∧ SameValues (httpSetPath c) (httpSetPath d) := by
  rw [httpSetPath,httpSetPath,← h.uri]
  split
  · exact ⟨⟨h.hdr,h.hdrLen,h.cntLen,h.nolen,h.hdrs,rfl,h.body,h.bodyLen⟩,hv⟩
  · exact ⟨⟨h.hdr,h.hdrLen,h.cntLen,h.nolen,h.hdrs,rfl,h.body,h.bodyLen⟩,hv⟩

private theorem httpSetPath_http11 (cli : HttpCli) : (httpSetPath cli).http11 = cli.http11 := by
  rw [httpSetPath]
  split
  · rfl
  · rfl

variable (away : List UInt8 → Int)

/-- The flag in the result is the flag that decided how the body is received. -/
private theorem handle_chunked {cli c : HttpCli} {rs rest : List Recv}
    (h : httpRecvReqHdr cli rs = some (none,c,rest)) :
    (httpHandleCliRd away cli rs).map (fun r => r.2.1.chunked) = if c.method = some .post ∧ c.chunked = false
      then (httpRecvExact (httpSetPath c) rest).map (fun _ => false) else some c.chunked := by
  obtain ⟨-,-,-,-,hchunked,-⟩ := httpSetPath_frame c
  rw [httpHandleCliRd_accepted away h]
  split
  · rename_i hpost
    rw [← httpRecvExact_self,Option.map_map,Option.map_map,Option.map_map]
    refine congrArg (fun f => Option.map f (httpRecvExact (httpSetPath c) rest)) (funext fun r => ?_)
    exact hchunked.trans hpost.2
  · exact congrArg some hchunked

private theorem handle_alike {c d : HttpCli} {rs rest : List Recv} (hc : httpRecvReqHdr a rs = some (none,c,rest))
    (hd : httpRecvReqHdr b rs = some (none,d,rest)) (h : Twin n c d) (hv : SameValues c d)
    (hchunked : c.chunked = d.chunked) (hmethod : c.method = d.method) (hversion : c.http11 = d.http11) :
    (httpHandleCliRd away a rs).map parsedReq = (httpHandleCliRd away b rs).map parsedReq := by
  obtain ⟨hpath,hvalues⟩ := httpSetPath_twin h hv
  obtain ⟨-,-,-,-,hchunked₁,hmethod₁⟩ := httpSetPath_frame c
  obtain ⟨-,-,-,-,hchunked₂,hmethod₂⟩ := httpSetPath_frame d
  have hsame := parsed_alike hpath hvalues (hchunked₁.trans (hchunked.trans hchunked₂.symm))
    (hmethod₁.trans (hmethod.trans hmethod₂.symm))
    ((httpSetPath_http11 c).trans (hversion.trans (httpSetPath_http11 d).symm))
  rw [httpHandleCliRd_accepted away hc,httpHandleCliRd_accepted away hd,← hmethod,← hchunked]
  split
  · have hexact := httpRecvExact_withBody (httpSetPath d) hpath.cntLen.symm hpath.nolen.symm rest
    rw [hpath.body,hpath.bodyLen] at hexact
    rw [← httpRecvExact_self (httpSetPath c),show httpRecvExact (httpSetPath d) rest = _ from hexact]
    simp only [Option.map_map]
    refine congrArg (fun f => Option.map f (httpRecvExact (httpSetPath c) rest)) (funext fun r => ?_)
    exact hsame none r.2.1.body r.2.1.bodyLen r.2.2
  · have heq := hsame none (httpSetPath c).body (httpSetPath c).bodyLen rest
    nth_rewrite 2 [hpath.body] at heq
    nth_rewrite 2 [hpath.bodyLen] at heq
    exact congrArg some heq

end Request

section Independence
variable (away : List UInt8 → Int)

/-- What the buffers hold behind the two header blocks, once they have been received. -/
def BehindAlike (a b : HttpCli) (rs : List Recv) : Prop :=
  match httpRecvHdr a rs, httpRecvHdr b rs with
  | some (none,c,_), some (none,d,_) => SameBehind c d
  | _, _ => True

/-- The bytes of the request have a transfer encoding, a method and a request line, or the two connections have the
same from before. -/
def LeftAlike (a b : HttpCli) (rs : List Recv) : Prop :=
  match httpRecvHdr a rs with
  | none => True
  | some (some _,_,_) => a.chunked = b.chunked ∧ a.method = b.method ∧ a.http11 = b.http11
  | some (none,c,_) =>
    (sendsHeader transferEncoding c.block (c.hdr c.hdrLen) = true ∨ a.chunked = b.chunked) ∧
      ((sentMethod c.block).isSome = true ∨ a.method = b.method) ∧ (sendsLine c.block = true ∨ a.http11 = b.http11)

private theorem or_eq_iff {o : Option HttpMethod} {x y : Option HttpMethod} :
    o.or x = o.or y ↔ o.isSome = true ∨ x = y := by
  cases o with
  | none => simp
  | some m => simp

private theorem getD_eq_iff {o : Option Bool} {x y : Bool} : o.getD x = o.getD y ↔ o.isSome = true ∨ x = y := by
  cases o with
  | none => simp
  | some m => simp

private theorem flag_eq_iff {o x y : Bool} : (x || o) = (y || o) ↔ o = true ∨ x = y := by
  cases o with
  | false => simp
  | true => simp

/-- Only a connection that is not chunked can still wait for the body. -/
private theorem flag_of_result {α β : Type} {p : Prop} [Decidable p] {x y : Bool} {u : Option α} {v : Option β}
    (h : (if p ∧ x = false then u.map (fun _ => false) else some x) =
      if p ∧ y = false then v.map (fun _ => false) else some y) : x = y := by
  have hmap : ∀ {γ : Type} {w : Option γ}, w.map (fun _ => false) ≠ some true := by
    intro γ w hw
    obtain ⟨_,-,hw⟩ := Option.map_eq_some_iff.mp hw
    cases hw
  cases x with
  | true =>
    cases y with
    | true => rfl
    | false =>
      rw [if_neg (by simp)] at h
      split at h
      · exact absurd h.symm hmap
      · exact Option.some.inj h
  | false =>
    cases y with
    | false => rfl
    | true =>
      rw [if_neg (fun h : p ∧ true = false => Bool.noConfusion h.2)] at h
      split at h
      · exact absurd h hmap
      · exact Option.some.inj h

/-- The parsed requests share the fields that the request gives, and those that were the same before. -/
private theorem parsed_fields {a b c d : HttpCli} {n : Nat} (h : Twin n c d) (hn : c.hdrLen ≤ n)
    (hc : HdrReceived a c) (hd : HdrReceived b d) (hbehind : SameBehind c d) :
    ((httpParseReqHdr c).2.chunked = (httpParseReqHdr d).2.chunked ↔ ownChunked c = true ∨ a.chunked = b.chunked) ∧
      ((httpParseReqHdr c).2.method = (httpParseReqHdr d).2.method ↔
        (ownMethod c).isSome = true ∨ a.method = b.method) ∧
      ((httpParseReqHdr c).2.http11 = (httpParseReqHdr d).2.http11 ↔
        (ownVersion c).isSome = true ∨ a.http11 = b.http11) := by
  obtain ⟨hmethod,hversion,hchunked⟩ := own_twin h hn hc hd hbehind
  obtain ⟨hc₁,hc₂,hc₃⟩ := httpParseReqHdr_own c
  obtain ⟨hd₁,hd₂,hd₃⟩ := httpParseReqHdr_own d
  rw [hc₁,hc₂,hc₃,hd₁,hd₂,hd₃,hc.chunked,hc.method,hc.http11,hd.chunked,hd.method,hd.http11,← hchunked,← hmethod,
    ← hversion]
  exact ⟨flag_eq_iff,or_eq_iff,getD_eq_iff⟩

private theorem received_iff {a b c d : HttpCli} {rs rest : List Recv} {n : Nat}
    (hra : httpRecvHdr a rs = some (none,c,rest)) (hrb : httpRecvHdr b rs = some (none,d,rest)) (h : Twin n c d)
    (hn : c.hdrLen ≤ n) (hc : HdrReceived a c) (hd : HdrReceived b d) (hbehind : SameBehind c d) :
    (httpHandleCliRd away a rs).map parsedReq = (httpHandleCliRd away b rs).map parsedReq ↔
      (ownChunked c = true ∨ a.chunked = b.chunked) ∧ ((ownMethod c).isSome = true ∨ a.method = b.method) ∧
        ((ownVersion c).isSome = true ∨ a.http11 = b.http11) := by
  obtain ⟨hret,htwin,hvalues⟩ := httpParseReqHdr_twin h hn hc hd hbehind
  obtain ⟨hchunked,hmethod,hversion⟩ := parsed_fields h hn hc hd hbehind
  rw [← hchunked,← hmethod,← hversion]
  have hra' : httpRecvReqHdr a rs = some ((httpParseReqHdr c).1,(httpParseReqHdr c).2,rest) := by
    rw [httpRecvReqHdr,hra]
  have hrb' : httpRecvReqHdr b rs = some ((httpParseReqHdr c).1,(httpParseReqHdr d).2,rest) := by
    rw [httpRecvReqHdr,hrb,hret]
  cases he : (httpParseReqHdr c).1 with
  | some e =>
    rw [he] at hra' hrb'
    rw [httpHandleCliRd_rejected away hra',httpHandleCliRd_rejected away hrb']
    constructor
    · intro heq
      have hparsed := Option.some.inj heq
      exact ⟨congrArg ParsedReq.chunked hparsed,congrArg ParsedReq.method hparsed,congrArg ParsedReq.http11 hparsed⟩
    · rintro ⟨h₁,h₂,h₃⟩
      have heq := parsed_alike htwin hvalues h₁ h₂ h₃ (some e) (httpParseReqHdr c).2.body
          (httpParseReqHdr c).2.bodyLen rest
      nth_rewrite 2 [htwin.body] at heq
      nth_rewrite 2 [htwin.bodyLen] at heq
      exact congrArg some heq
  | none =>
    rw [he] at hra' hrb'
    obtain ⟨hnamed,hversioned⟩ := own_accepted he
    have h₂ := hmethod.mpr (.inl hnamed)
    have h₃ := hversion.mpr (.inl hversioned)
    constructor
    · intro heq
      refine ⟨?_,h₂,h₃⟩
      have hflags : (httpHandleCliRd away a rs).map (fun r => r.2.1.chunked) =
          (httpHandleCliRd away b rs).map (fun r => r.2.1.chunked) := by
        have hmap := congrArg (Option.map ParsedReq.chunked) heq
        rw [Option.map_map,Option.map_map] at hmap
        exact hmap
      rw [handle_chunked away hra',handle_chunked away hrb',← h₂] at hflags
      exact flag_of_result hflags
    · rintro ⟨h₁,-,-⟩
      exact handle_alike away hra' hrb' htwin hvalues h₁ h₂ h₃

/-- Two connections after any histories get the same request: it is parsed alike exactly where neither of them has
something left over that the request does not overwrite. -/
theorem request_alike_iff {a b : HttpCli} (ha : Served away a) (hb : Served away b) {rs : List Recv}
    (h : BehindAlike a b rs) :
    (httpHandleCliRd away a rs).map parsedReq = (httpHandleCliRd away b rs).map parsedReq ↔ LeftAlike a b rs := by
  have hfa := ha.isFresh
  have hfb := hb.isFresh
  have hrec := httpRecvHdr_alike hfa hfb rs
  rw [BehindAlike] at h
  rw [LeftAlike]
  generalize hra : httpRecvHdr a rs = ra at hrec h
  generalize hrb : httpRecvHdr b rs = rb at hrec h
  cases hrec with
  | waiting =>
    have hwait : ∀ cli, httpRecvHdr cli rs = none → httpHandleCliRd away cli rs = none := by
      intro cli hcli
      rw [httpHandleCliRd,httpRecvReqHdr,hcli]
    rw [hwait a hra,hwait b hrb]
    exact iff_of_true rfl trivial
  | failed e f g rest =>
    have hfail : ∀ {cli c}, httpRecvHdr cli rs = some (some e,c,rest) →
        httpHandleCliRd away cli rs = some (some e,c,rest) := by
      intro cli c hcli
      exact httpHandleCliRd_rejected away (by rw [httpRecvReqHdr,hcli])
    rw [hfail hra,hfail hrb]
    constructor
    · intro heq
      have hparsed := Option.some.inj heq
      exact ⟨congrArg ParsedReq.chunked hparsed,congrArg ParsedReq.method hparsed,congrArg ParsedReq.http11 hparsed⟩
    · rintro ⟨h₁,h₂,h₃⟩
      apply congrArg some
      show ParsedReq.mk (some e) a.method a.uri a.http11 (a.hdrs.map _) 0 a.chunked (a.body.map _) =
        ParsedReq.mk (some e) b.method b.uri b.http11 (b.hdrs.map _) 0 b.chunked (b.body.map _)
      rw [h₁,h₂,h₃,hfa.uri,hfb.uri,hfa.hdrs,hfb.hdrs,hfa.body,hfb.body]
      rfl
  | received rest htwin hc hd =>
    obtain ⟨hmethod,hversion,hchunked⟩ := own_sent hc
    have hiff := received_iff away hra hrb htwin (Nat.le_add_right _ _) hc hd h
    rw [hmethod,hversion,hchunked] at hiff
    exact hiff

end Independence

/-- A chunked POST leaves its flag behind, and the next POST on the connection loses its body. -/
theorem chunked_left_over : ¬ ∀ (a b : HttpCli) (rs : List Recv), Served (fun _ => 0) a → Served (fun _ => 0) b →
    (httpHandleCliRd (fun _ => 0) a rs).map parsedReq = (httpHandleCliRd (fun _ => 0) b rs).map parsedReq := by
  intro hall
  obtain ⟨⟨err,cli',rest⟩,hr,hobs⟩ := Option.map_eq_some_iff.mp (show
      (httpHandleCliRd (fun _ => 0) HttpCli.new.init [.data (postChunked ++ encodeChunks [[104,105]])]).map
        (fun r => (r.1,r.2.2,(httpHandleCliRd (fun _ => 0) r.2.1.reset.init [.data postTwo,.data [104,105]]).map
          fun q => (parsedReq q).body)) = some (none,[],some (some [])) by decide +kernel)
  simp only [Prod.mk.injEq] at hobs
  obtain ⟨rfl,rfl,hbody⟩ := hobs
  have hfresh : (httpHandleCliRd (fun _ => 0) HttpCli.new.init [.data postTwo,.data [104,105]]).map
      (fun q => (parsedReq q).body) = some (some [104,105]) := by decide +kernel
  have heq := congrArg (Option.map ParsedReq.body)
    (hall _ _ [.data postTwo,.data [104,105]] .start (.next .start hr))
  rw [Option.map_map,Option.map_map] at heq
  have hbodies := (hfresh.symm.trans heq).trans hbody
  revert hbodies
  decide

/-- A GET is parsed alike on a fresh connection and after a POST whose header has been longer. -/
theorem get_after_post : ∃ cli', httpHandleCliRd (fun _ => 0) HttpCli.new.init [.data (postTwo ++ [104,105])] =
    some (none,cli',[]) ∧
    (httpHandleCliRd (fun _ => 0) HttpCli.new.init [.data plainGet]).map parsedReq =
      (httpHandleCliRd (fun _ => 0) cli'.reset.init [.data plainGet]).map parsedReq := by
  obtain ⟨⟨err,cli',rest⟩,hr,hobs⟩ := Option.map_eq_some_iff.mp (show
      (httpHandleCliRd (fun _ => 0) HttpCli.new.init [.data (postTwo ++ [104,105])]).map
        (fun r => (r.1,r.2.2,r.2.1.reset.init.chunked,(httpRecvHdr r.2.1.reset.init [.data plainGet]).map
          fun q => (q.1,isspace (q.2.1.hdr q.2.1.hdrLen)))) = some (none,[],false,some (none,false)) by decide +kernel)
  simp only [Prod.mk.injEq] at hobs
  obtain ⟨rfl,rfl,hflag,hobs⟩ := hobs
  obtain ⟨⟨err,d,rest⟩,hd,hobs⟩ := Option.map_eq_some_iff.mp hobs
  simp only [Prod.mk.injEq] at hobs
  obtain ⟨rfl,hspace⟩ := hobs
  obtain ⟨⟨err,c,rest⟩,hc,hobs⟩ := Option.map_eq_some_iff.mp (show
      (httpRecvHdr HttpCli.new.init [.data plainGet]).map (fun q => (q.1,isspace (q.2.1.hdr q.2.1.hdrLen),
        (sentMethod q.2.1.block).isSome,sendsLine q.2.1.block)) = some (none,false,true,true) by decide +kernel)
  simp only [Prod.mk.injEq] at hobs
  obtain ⟨rfl,hspace',hmethod,hversion⟩ := hobs
  refine ⟨cli',hr,(request_alike_iff (fun _ => 0) .start (.next .start hr) ?_).mpr ?_⟩
  · rw [BehindAlike,hc,hd]
    exact .inr ⟨hspace',hspace⟩
  · rw [LeftAlike,hc]
    exact ⟨.inr hflag.symm,.inl hmethod,.inl hversion⟩

end Memqueue
