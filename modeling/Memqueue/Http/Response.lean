import Memqueue.Hash.Chains
import Memqueue.Lib.CString

/-! The response side of http_impl.c: header lines collected in a hash, then written out slot by slot.
The number of slots is computed in one traversal of the hash, and they are filled in another. -/
namespace Memqueue

/-- The bytes of a string literal. -/
def lit (s : String) : List UInt8 := s.toList.map fun c => UInt8.ofNat c.toNat

/-- resp_state_t -/
inductive RespState where
  | hdrBegin
  | hdrSent
  | bodySent
  deriving DecidableEq, Repr

/-- struct http_resp, with the bytes `body` points to. -/
structure HttpResp where
  respcode : Int
  respcodeInt : List UInt8
  respcodeStr : List UInt8
  hdrs : HHash (List UInt8)
  body : List UInt8
  bodyLen : Nat
  state : RespState

/-- struct iovec -/
structure Iovec where
  iovBase : List UInt8
  iovLen : Nat
  deriving DecidableEq, Repr

def Iovec.bytes (v : Iovec) : List UInt8 := v.iovBase.take v.iovLen

/-- What http_cli_init does to the response. -/
def httpCliInitResp (r : HttpResp) : HttpResp := { r with bodyLen := 0, respcode := 0, hdrs := hInit (List UInt8) 128 }

def httpAddHeader (r : HttpResp) (name value : List UInt8) : HttpResp :=
  { r with hdrs := (hInsert r.hdrs name value).2 }

/-- The cases of http_set_respcode: respcode_int, respcode_str and dont_close. -/
def respcodes : List (Int × List UInt8 × List UInt8 × Bool) := [
  (200,lit "200 ",lit "OK",true),
  (201,lit "201 ",lit "Created",true),
  (202,lit "202 ",lit "Accepted",true),
  (203,lit "203 ",lit "Non-Authoritative Information",false),
  (204,lit "204 ",lit "No Content",true),
  (205,lit "205 ",lit "Reset Content",false),
  (206,lit "206 ",lit "Partial Content",true),
  (300,lit "300 ",lit "Multiple Choices",false),
  (301,lit "301 ",lit "Moved Permanently",true),
  (302,lit "302 ",lit "Found",true),
  (303,lit "303 ",lit "See Other",true),
  (304,lit "304 ",lit "Not Modified",true),
  (305,lit "305 ",lit "Use Proxy",false),
  (307,lit "307 ",lit "Temporary Redirect",false),
  (400,lit "400 ",lit "Bad Request",false),
  (401,lit "401 ",lit "Unauthorized",false),
  (404,lit "404 ",lit "Not Found",false),
  (405,lit "405 ",lit "Method Not Allowed",false),
  (407,lit "407 ",lit "Proxy Authentication Required",false),
  (408,lit "408 ",lit "Request Timeout",false),
  (409,lit "409 ",lit "Conflict",false),
  (410,lit "410 ",lit "Gone",false),
  (411,lit "411 ",lit "Length Required",false),
  (412,lit "412 ",lit "Precondition Failed",false),
  (413,lit "413 ",lit "Request Entity Too Large",false),
  (414,lit "414 ",lit "Request-URI Too Long",false),
  (415,lit "415 ",lit "Unsupported Media Type",false),
  (416,lit "416 ",lit "Requested Range Not Satisfiable",false),
  (417,lit "417 ",lit "Expectation Failed",false),
  (500,lit "500 ",lit "Internal Server Error",false),
  (501,lit "501 ",lit "Not Implemented",false),
  (502,lit "502 ",lit "Bad Gateway",false),
  (503,lit "503 ",lit "Service Unavailable",false),
  (504,lit "504 ",lit "Gateway Timeout",false),
  (505,lit "505 ",lit "HTTP Version Not Supported",false)]

/-- The case taken, with the code it leaves. -/
def respcodeCase (respcode : Int) : Int × List UInt8 × List UInt8 × Bool :=
  match respcodes.lookup respcode with
  | some c => (respcode,c)
  | none => (204,lit "204 ",lit "No Content",false)

/-- http_set_respcode. A code that has been set stays. -/
def httpSetRespcode (r : HttpResp) (respcode : Int) : HttpResp :=
  if r.respcode ≠ 0 then r
  else
    let (respcode,respcodeInt,respcodeStr,dontClose) := respcodeCase respcode
    httpAddHeader { r with respcode, respcodeInt, respcodeStr } (lit "Connection")
      (if dontClose then lit "keep-alive" else lit "close")

/-- The four slots of one header. -/
def headerIovecs (item : HItem (List UInt8)) : List Iovec :=
  [⟨item.key,item.key.length⟩,⟨lit ": ",2⟩,⟨item.value,item.value.length⟩,⟨lit "\n",1⟩]

/-- http_cli_resp_hdr_create: the size of the array it allocates, and the slots it fills. -/
def httpCliRespHdrCreate (http11 : Bool) (r : HttpResp) : HttpResp × Nat × List Iovec :=
  if r.state ≠ .hdrBegin then (r,0,[])
  else
    let (r,totalIovecs) :=
      if r.bodyLen ≠ 0 then (httpAddHeader r (lit "Content-Length") (decimal r.bodyLen),4 + 2)
      else (httpSetRespcode r 204,4)
    let r := if r.respcode = 0 then httpSetRespcode r 200 else r
    let r := if hGet r.hdrs (lit "Server") = none then
      httpAddHeader r (lit "Server") (lit "express HTTP Server: 1.0") else r
    let (counted,hdrs) := hTraverse (r.hdrs.orderHead.length + 1) r.hdrs
    let totalIovecs := totalIovecs + 4 * counted.length + 1
    let (items,hdrs) := hTraverse (hdrs.orderHead.length + 1) hdrs
    let line : List Iovec :=
      [⟨if http11 then lit "HTTP/1.1 " else lit "HTTP/1.0 ",9⟩,⟨r.respcodeInt,4⟩,⟨r.respcodeStr,r.respcodeStr.length⟩,
        ⟨lit "\n",1⟩]
    ({ r with hdrs },totalIovecs,line ++ items.flatMap headerIovecs ++ [⟨lit "\n",1⟩])

/-- http_respond: what is handed to writev, with the number of slots allocated for it. -/
def httpRespond (http11 : Bool) (r : HttpResp) (httpCode : Int) (body : List UInt8) :
    HttpResp × Option (Nat × List Iovec) :=
  if r.state ≠ .hdrBegin then (r,none)
  else
    let r := httpSetRespcode r httpCode
    let r := if body.length ≠ 0 then { r with body, bodyLen := body.length } else r
    let (r,allocated,iovecs) := httpCliRespHdrCreate http11 r
    if iovecs.length < 1 then (r,none)
    else
      let iovecs := if r.bodyLen ≠ 0 then iovecs ++ [⟨r.body,r.bodyLen⟩] else iovecs
      ({ r with state := .bodySent },some (allocated,iovecs))

/-- The first line of a response. The number in it is the code that http_set_respcode has left. -/
def statusLine (http11 : Bool) (code : Int) : List UInt8 :=
  (if http11 then lit "HTTP/1.1 " else lit "HTTP/1.0 ") ++ (decimal (respcodeCase code).1.toNat ++ lit " ") ++
    (respcodeCase code).2.2.1 ++ lit "\n"

/-- What http_set_respcode says about the connection. -/
def connectionValue (code : Int) : List UInt8 := if (respcodeCase code).2.2.2 then lit "keep-alive" else lit "close"

/-- A header as it is sent. -/
def headerLine (e : List UInt8 × List UInt8) : List UInt8 := e.1 ++ lit ": " ++ e.2 ++ lit "\n"

section Codes

private theorem respcodeCase_ne (code : Int) : (respcodeCase code).1 ≠ 0 := by
  rw [respcodeCase]
  split
  · rename_i c hc
    rintro rfl
    have hnone : respcodes.lookup 0 = none := by decide
    rw [hnone] at hc
    cases hc
  · decide

/-- Every case writes the code it is for. -/
theorem respcodeCase_int (code : Int) :
    (respcodeCase code).2.1 = decimal (respcodeCase code).1.toNat ++ lit " " ∧ (respcodeCase code).2.1.length = 4 := by
  have hall : ∀ e ∈ respcodes, e.2.1 = decimal e.1.toNat ++ lit " " ∧ e.2.1.length = 4 := by decide
  rw [respcodeCase]
  split
  · rename_i c hc
    exact hall (code,c) (Table.mem_of_get hc)
  · decide

end Codes

section Fresh
variable {r : HttpResp} {t : Table (List UInt8) (List UInt8)}

/-- Headers `t` have been added, and nothing else has happened. -/
structure HttpResp.Collecting (r : HttpResp) (t : Table (List UInt8) (List UInt8)) : Prop where
  hdrs : Represents r.hdrs t
  state : r.state = .hdrBegin
  bodyLen : r.bodyLen = 0
  respcode : r.respcode = 0

theorem HttpResp.Collecting.add (h : r.Collecting t) (name value : List UInt8) :
    (httpAddHeader r name value).Collecting (t.insert name value) :=
  ⟨h.hdrs.insert name value,h.state,h.bodyLen,h.respcode⟩

theorem collecting_added {r : HttpResp} (hstate : r.state = .hdrBegin) (adds : List (List UInt8 × List UInt8)) :
    (adds.foldl (fun r a => httpAddHeader r a.1 a.2) (httpCliInitResp r)).Collecting (Table.insertAll adds []) := by
  have hinit : (httpCliInitResp r).Collecting [] := ⟨represents_init _ _,hstate,rfl,rfl⟩
  generalize httpCliInitResp r = r' at hinit ⊢
  generalize ([] : Table (List UInt8) (List UInt8)) = t at hinit ⊢
  induction adds generalizing r' t with
  | nil => exact hinit
  | cons a adds ih => exact ih _ _ (hinit.add a.1 a.2)

theorem httpSetRespcode_set (h : r.respcode ≠ 0) (code : Int) : httpSetRespcode r code = r := if_pos h

theorem HttpResp.Collecting.setRespcode (h : r.Collecting t) (code : Int) : ∃ hdrs,
    Represents hdrs (t.insert (lit "Connection") (connectionValue code)) ∧
    httpSetRespcode r code = { r with
      respcode := (respcodeCase code).1, respcodeInt := (respcodeCase code).2.1
      respcodeStr := (respcodeCase code).2.2.1, hdrs } := by
  rw [httpSetRespcode,if_neg (not_not.mpr h.respcode)]
  exact ⟨_,h.hdrs.insert _ _,rfl⟩

end Fresh

section Create
variable {r : HttpResp} {t : Table (List UInt8) (List UInt8)}

/-- The headers http_cli_resp_hdr_create adds itself. -/
def completed (t : Table (List UInt8) (List UInt8)) (bodyLen : Nat) : Table (List UInt8) (List UInt8) :=
  let t := if bodyLen ≠ 0 then t.insert (lit "Content-Length") (decimal bodyLen) else t
  t.insert (lit "Server") (lit "express HTTP Server: 1.0")

/-- Both traversals see the same headers, so the slots are counted and filled for the same ones. -/
theorem httpCliRespHdrCreate_eq (http11 : Bool) (hr : Represents r.hdrs t) (hstate : r.state = .hdrBegin)
    (hcode : r.respcode ≠ 0) :
    ∃ hdrs, Represents hdrs (completed t r.bodyLen) ∧
      httpCliRespHdrCreate http11 r = ({ r with hdrs },
        (if r.bodyLen ≠ 0 then 6 else 4) + 4 * hdrs.orderHead.length + 1,
        [⟨if http11 then lit "HTTP/1.1 " else lit "HTTP/1.0 ",9⟩,⟨r.respcodeInt,4⟩,⟨r.respcodeStr,r.respcodeStr.length⟩,
          ⟨lit "\n",1⟩] ++
          hdrs.orderHead.flatMap headerIovecs ++ [⟨lit "\n",1⟩]) := by
  have hlength : ∃ hdrs,
      Represents hdrs (if r.bodyLen ≠ 0 then t.insert (lit "Content-Length") (decimal r.bodyLen) else t) ∧
      (if r.bodyLen ≠ 0 then (httpAddHeader r (lit "Content-Length") (decimal r.bodyLen),4 + 2)
        else (httpSetRespcode r 204,4)) = ({ r with hdrs },if r.bodyLen ≠ 0 then 6 else 4) := by
    split
    · exact ⟨_,hr.insert _ _,rfl⟩
    · rw [httpSetRespcode_set hcode]
      exact ⟨r.hdrs,hr,rfl⟩
  obtain ⟨hdrs₁,hr₁,hlength⟩ := hlength
  have hserver : ∃ hdrs, Represents hdrs (completed t r.bodyLen) ∧
      (if hGet hdrs₁ (lit "Server") = none then
        httpAddHeader { r with hdrs := hdrs₁ } (lit "Server") (lit "express HTTP Server: 1.0")
      else { r with hdrs := hdrs₁ }) = { r with hdrs } := by
    split
    · exact ⟨_,hr₁.insert _ _,rfl⟩
    · rename_i hpresent
      rw [hr₁.get] at hpresent
      refine ⟨hdrs₁,?_,rfl⟩
      rw [completed,Table.insert,if_pos (Option.isSome_iff_ne_none.mpr hpresent)]
      exact hr₁
  obtain ⟨hdrs,hr₂,hserver⟩ := hserver
  refine ⟨hdrs,hr₂,?_⟩
  rw [httpCliRespHdrCreate,if_neg (not_not.mpr hstate),hlength]
  dsimp only
  rw [if_neg hcode,hserver]
  dsimp only
  rw [hr₂.traverse (Nat.lt_succ_self _)]
  dsimp only
  rw [hr₂.traverse (Nat.lt_succ_self _)]

private theorem headerIovecs_bytes {h : HHash (List UInt8)} (hr : Represents h t) :
    (h.orderHead.flatMap headerIovecs).flatMap Iovec.bytes = t.flatMap headerLine := by
  rw [← hr.order,List.flatMap_assoc,List.flatMap_map]
  refine congrArg (fun f => List.flatMap f h.orderHead) (funext fun item => ?_)
  simp only [headerIovecs,Iovec.bytes,headerLine,List.flatMap_cons,List.flatMap_nil,List.take_length,List.append_nil,
    List.append_assoc]
  rfl

private theorem headerIovecs_length (L : List (HItem (List UInt8))) :
    (L.flatMap headerIovecs).length = 4 * L.length := by
  induction L with
  | nil => rfl
  | cons item L ih =>
    rw [List.flatMap_cons,List.length_append,ih,List.length_cons,headerIovecs]
    simp only [List.length_cons,List.length_nil]
    omega

end Create

section Respond
variable {t : Table (List UInt8) (List UInt8)}

/-- The content of resp.hdrs when the response is written. -/
def respHeaders (t : Table (List UInt8) (List UInt8)) (code : Int) (body : List UInt8) :
    Table (List UInt8) (List UInt8) :=
  completed (t.insert (lit "Connection") (connectionValue code)) body.length

private theorem extends_respHeaders (code : Int) (body : List UInt8) : t <+: respHeaders t code body := by
  rw [respHeaders,completed]
  generalize connectionValue code = connection
  have hfirst := Table.extends_insert t (lit "Connection") connection
  split
  · exact hfirst.trans ((Table.extends_insert _ _ _).trans (Table.extends_insert _ _ _))
  · exact hfirst.trans (Table.extends_insert _ _ _)

private theorem get_inserted (t : Table (List UInt8) (List UInt8)) (k v : List UInt8) :
    ∃ w, (t.insert k v).get k = some w := by
  rw [Table.get_insert,if_pos rfl]
  cases t.get k with
  | none => exact ⟨v,rfl⟩
  | some w => exact ⟨w,rfl⟩

private theorem respHeaders_get (h : t.get (lit "Content-Length") = none) (code : Int) (body : List UInt8) :
    (∃ v, (respHeaders t code body).get (lit "Connection") = some v) ∧
      (∃ v, (respHeaders t code body).get (lit "Server") = some v) ∧
      (respHeaders t code body).get (lit "Content-Length") =
        if body = [] then none else some (decimal body.length) := by
  rw [respHeaders,completed]
  generalize connectionValue code = connection
  obtain ⟨v,hv⟩ := get_inserted t (lit "Connection") connection
  have hserver : ∀ u : Table (List UInt8) (List UInt8), u.get (lit "Connection") = some v →
      (u.insert (lit "Server") (lit "express HTTP Server: 1.0")).get (lit "Connection") = some v :=
    fun u hu => Table.get_insert_of_some hu _
  have hlength : (t.insert (lit "Connection") connection).get (lit "Content-Length") = none := by
    rw [Table.get_insert,h,if_neg (by decide)]
    rfl
  refine ⟨⟨v,hserver _ ?_⟩,get_inserted _ _ _,?_⟩
  · split
    · exact Table.get_insert_of_some hv _
    · exact hv
  · rw [Table.get_insert,if_neg (show lit "Content-Length" ≠ lit "Server" by decide),Option.or_none]
    cases body with
    | nil => exact hlength
    | cons c body =>
      rw [if_pos (show (c :: body).length ≠ 0 from Nat.succ_ne_zero _),if_neg (List.cons_ne_nil c body)]
      exact Table.get_insert_self hlength _

/-- A response whose code and body have been set. -/
structure HttpResp.Decided (r : HttpResp) (t : Table (List UInt8) (List UInt8)) (code : Int) (body : List UInt8) :
    Prop where
  hdrs : Represents r.hdrs t
  state : r.state = .hdrBegin
  respcode : r.respcode ≠ 0
  respcodeInt : r.respcodeInt = (respcodeCase code).2.1
  respcodeStr : r.respcodeStr = (respcodeCase code).2.2.1
  bodyLen : r.bodyLen = body.length
  body : r.bodyLen ≠ 0 → r.body = body

private theorem HttpResp.Collecting.decide {r : HttpResp} (h : r.Collecting t) (code : Int) (body : List UInt8) :
    (if body.length ≠ 0 then { httpSetRespcode r code with body, bodyLen := body.length }
      else httpSetRespcode r code).Decided
      (t.insert (lit "Connection") (connectionValue code)) code body := by
  obtain ⟨hdrs,hr,hset⟩ := h.setRespcode code
  rw [hset]
  split
  · exact ⟨hr,h.state,respcodeCase_ne code,rfl,rfl,rfl,fun _ => rfl⟩
  · rename_i hempty
    have hlen : r.bodyLen = body.length := h.bodyLen.trans (not_not.mp hempty).symm
    exact ⟨hr,h.state,respcodeCase_ne code,rfl,rfl,hlen,fun hne => absurd h.bodyLen hne⟩

private theorem lit_lengths : (lit "HTTP/1.1 ").length = 9 ∧ (lit "HTTP/1.0 ").length = 9 ∧ (lit "\n").length = 1 ∧
    (lit ": ").length = 2 := by
  decide

private theorem headerIovecs_whole {L : List (HItem (List UInt8))} {v : Iovec} (h : v ∈ L.flatMap headerIovecs) :
    v.iovLen = v.iovBase.length := by
  obtain ⟨item,-,hv⟩ := List.mem_flatMap.mp h
  rw [headerIovecs] at hv
  simp only [List.mem_cons,List.not_mem_nil,or_false] at hv
  rcases hv with rfl | rfl | rfl | rfl
  · rfl
  · exact lit_lengths.2.2.2.symm
  · rfl
  · exact lit_lengths.2.2.1.symm

/-- The slots of the status line. -/
def statusIovecs (http11 : Bool) (code : Int) : List Iovec :=
  [⟨if http11 then lit "HTTP/1.1 " else lit "HTTP/1.0 ",9⟩,⟨(respcodeCase code).2.1,4⟩,
    ⟨(respcodeCase code).2.2.1,(respcodeCase code).2.2.1.length⟩,⟨lit "\n",1⟩]

private theorem statusIovecs_whole {http11 : Bool} {code : Int} {v : Iovec} (h : v ∈ statusIovecs http11 code) :
    v.iovLen = v.iovBase.length := by
  obtain ⟨h₁,h₂,h₃,-⟩ := lit_lengths
  rw [statusIovecs] at h
  simp only [List.mem_cons,List.not_mem_nil,or_false] at h
  rcases h with rfl | rfl | rfl | rfl
  · cases http11 with
    | true => exact h₁.symm
    | false => exact h₂.symm
  · exact (respcodeCase_int code).2.symm
  · rfl
  · exact h₃.symm

private theorem statusIovecs_bytes (http11 : Bool) (code : Int) :
    (statusIovecs http11 code).flatMap Iovec.bytes = statusLine http11 code := by
  have hwhole : (statusIovecs http11 code).flatMap Iovec.bytes = (statusIovecs http11 code).flatMap Iovec.iovBase := by
    refine List.flatMap_congr fun v hv => ?_
    rw [Iovec.bytes,statusIovecs_whole hv,List.take_length]
  rw [hwhole,statusIovecs,statusLine,← (respcodeCase_int code).1]
  simp only [List.flatMap_cons,List.flatMap_nil,List.append_nil,List.append_assoc]

/-- The slots up to the empty line. -/
def headIovecs (http11 : Bool) (code : Int) (h : HHash (List UInt8)) : List Iovec :=
  statusIovecs http11 code ++ h.orderHead.flatMap headerIovecs ++ [⟨lit "\n",1⟩]

private theorem headIovecs_length (http11 : Bool) (code : Int) (h : HHash (List UInt8)) :
    (headIovecs http11 code h).length = 4 + 4 * h.orderHead.length + 1 := by
  rw [headIovecs,List.length_append,List.length_append,headerIovecs_length]
  rfl

private theorem headIovecs_whole {http11 : Bool} {code : Int} {h : HHash (List UInt8)} {v : Iovec}
    (hv : v ∈ headIovecs http11 code h) : v.iovLen = v.iovBase.length := by
  rw [headIovecs,List.mem_append,List.mem_append,List.mem_singleton] at hv
  rcases hv with (hv | hv) | rfl
  · exact statusIovecs_whole hv
  · exact headerIovecs_whole hv
  · exact lit_lengths.2.2.1.symm

private theorem headIovecs_bytes (http11 : Bool) (code : Int) {h : HHash (List UInt8)} (hr : Represents h t) :
    (headIovecs http11 code h).flatMap Iovec.bytes =
      statusLine http11 code ++ t.flatMap headerLine ++ lit "\n" := by
  rw [headIovecs,List.flatMap_append,List.flatMap_append,statusIovecs_bytes,headerIovecs_bytes hr]
  rfl

private theorem HttpResp.Decided.create {r : HttpResp} {code : Int} {body : List UInt8} (h : r.Decided t code body)
    (http11 : Bool) : ∃ hdrs, Represents hdrs (completed t body.length) ∧
      httpCliRespHdrCreate http11 r = ({ r with hdrs },(if r.bodyLen ≠ 0 then 6 else 4) + 4 * hdrs.orderHead.length + 1,
        headIovecs http11 code hdrs) := by
  obtain ⟨hdrs,hr,hcreate⟩ := httpCliRespHdrCreate_eq http11 h.hdrs h.state h.respcode
  rw [h.bodyLen] at hr
  refine ⟨hdrs,hr,?_⟩
  rw [hcreate,h.respcodeInt,h.respcodeStr]
  rfl

/-- http_respond after any headers have been added to a fresh response: the slots it fills fit into the array that
was counted out for them, no slot reaches behind its string, and together they are the response. -/
theorem response_serialised (http11 : Bool) {r : HttpResp} (hstate : r.state = .hdrBegin)
    {adds : List (List UInt8 × List UInt8)} (hadds : ∀ a ∈ adds, a.1 ≠ lit "Content-Length") (code : Int)
    (body : List UInt8) :
    ∃ r' headers allocated iovecs,
      httpRespond http11 (adds.foldl (fun r a => httpAddHeader r a.1 a.2) (httpCliInitResp r)) code body =
        (r',some (allocated,iovecs)) ∧
      iovecs.length ≤ allocated ∧ (∀ v ∈ iovecs, v.iovLen = v.iovBase.length) ∧
      Represents r'.hdrs headers ∧ (Table.keys headers).Nodup ∧ Table.insertAll adds [] <+: headers ∧
      lit "Connection" ∈ Table.keys headers ∧ lit "Server" ∈ Table.keys headers ∧
      headers.get (lit "Content-Length") = (if body = [] then none else some (decimal body.length)) ∧
      iovecs.flatMap Iovec.bytes = statusLine http11 code ++ headers.flatMap headerLine ++ lit "\n" ++ body := by
  have hfresh := collecting_added hstate adds
  have hnone : (Table.insertAll adds []).get (lit "Content-Length") = none := by
    have hadded : Table.get adds (lit "Content-Length") = none := by
      rw [Table.get_eq_none]
      intro hmem
      obtain ⟨a,ha,hkey⟩ := List.mem_map.mp hmem
      exact hadds a ha hkey
    rw [Table.get_insertAll,hadded]
    rfl
  generalize adds.foldl (fun r a => httpAddHeader r a.1 a.2) (httpCliInitResp r) = r₁ at hfresh ⊢
  have hdecided := hfresh.decide code body
  generalize hr₂ : (if body.length ≠ 0 then { httpSetRespcode r₁ code with body, bodyLen := body.length }
    else httpSetRespcode r₁ code) = r₂ at hdecided
  obtain ⟨hdrs,hr,hcreate⟩ := hdecided.create http11
  obtain ⟨⟨_,hconnection⟩,⟨_,hserver⟩,hlength⟩ := respHeaders_get hnone code body
  have hkey : ∀ {k v : List UInt8}, (respHeaders (Table.insertAll adds []) code body).get k = some v →
      k ∈ Table.keys (respHeaders (Table.insertAll adds []) code body) :=
    fun hget => List.mem_map_of_mem (Table.mem_of_get hget)
  rw [httpRespond,if_neg (not_not.mpr hfresh.state)]
  dsimp only
  rw [hr₂,hcreate]
  dsimp only
  have hcount := headIovecs_length http11 code hdrs
  rw [if_neg (by omega)]
  refine ⟨_,respHeaders (Table.insertAll adds []) code body,_,_,rfl,?_,?_,hr,hr.nodup_keys,
    extends_respHeaders code body,hkey hconnection,hkey hserver,hlength,?_⟩
  · split
    · rw [List.length_append,hcount,List.length_singleton]
      omega
    · rw [hcount]
  · intro v hv
    split at hv
    · rename_i hne
      rcases List.mem_append.mp hv with hv | hv
      · exact headIovecs_whole hv
      · rw [List.mem_singleton.mp hv]
        exact hdecided.bodyLen.trans (congrArg List.length (hdecided.body hne).symm)
    · exact headIovecs_whole hv
  · split
    · rename_i hne
      have hslot : Iovec.bytes ⟨r₂.body,r₂.bodyLen⟩ = body := by
        rw [hdecided.body hne,hdecided.bodyLen]
        exact List.take_length
      rw [List.flatMap_append,headIovecs_bytes http11 code hr,List.flatMap_cons,List.flatMap_nil,List.append_nil,hslot]
      rfl
    · rename_i hempty
      rw [headIovecs_bytes http11 code hr,
        List.eq_nil_of_length_eq_zero (hdecided.bodyLen.symm.trans (not_not.mp hempty)),List.append_nil]
      rfl

theorem response_hi : ∃ r' allocated iovecs,
    httpRespond true (httpAddHeader (httpCliInitResp ⟨0,[],[],hInit _ 128,[],0,.hdrBegin⟩) (lit "Content-Type")
      (lit "text/plain"))
      200 (lit "hi") = (r',some (allocated,iovecs)) ∧
      iovecs.length ≤ allocated ∧ lit "hi" <:+ iovecs.flatMap Iovec.bytes := by
  obtain ⟨r',headers,allocated,iovecs,heq,hfits,-,-,-,-,-,-,-,hbytes⟩ :=
    @response_serialised true ⟨0,[],[],hInit _ 128,[],0,.hdrBegin⟩ rfl [(lit "Content-Type",lit "text/plain")]
      (by decide) 200 (lit "hi")
  refine ⟨r',allocated,iovecs,heq,hfits,?_⟩
  rw [hbytes]
  exact List.suffix_append _ _

end Respond

end Memqueue
