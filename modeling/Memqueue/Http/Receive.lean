import Memqueue.Http.State

/-! The receive loops of http_impl.c, over the list of what successive calls of http_recv give.
`none` says that the list ends while the coroutine still waits, or holds what recv never gives. -/
namespace Memqueue

/-- The blank line that ends a header: CR LF CR LF. -/
def crlfcrlf : List UInt8 := [13,10,13,10]

/-- Its other form: LF LF. -/
def lflf : List UInt8 := [10,10]

/-- The two strstr calls in their order: where the header block ends, by the first that matches. -/
def hdrEnd (s : List UInt8) : Option Nat :=
  ((strstr crlfcrlf s).map (· + 4)).or ((strstr lflf s).map (· + 2))

/-- The loop over whitespace before the header: `i` goes up while `ret` goes down. -/
def skipSpace (hdr : Buffer) (i : Nat) : Nat → Nat × Nat
  | 0 => (i,0)
  | ret + 1 => if i ≤ ret + 1 ∧ isspace (hdr i) = true then skipSpace hdr (i + 1) ret else (i,ret + 1)

/-- The bytes of a first packet, without the whitespace before the header that gets skipped. -/
def skipLeading (hdr : Buffer) (ret : Nat) : Buffer × Nat :=
  let (i,ret) := skipSpace hdr 0 ret
  if i ≠ 0 ∧ 0 < ret then (hdr.write 0 (hdr.slice i ret),ret) else (hdr,ret)

/-- The loop of http_recv_hdr. The NUL it puts after the bytes received is taken back at once. -/
def httpRecvHdrLoop (cli : HttpCli) (recvd : Nat) :
    List Recv → Option (Option HttpReqErr × HttpCli × List Recv)
  | [] => if recvd < httpMaxHdrLen then none else some (some .maxHdrExc,cli,[])
  | r :: rs =>
    if recvd < httpMaxHdrLen then
      match r with
      | .timeout => some (some .timeoutExc,cli,rs)
      | .closed => some (some .cliClosed,cli,rs)
      | .error => some (some .cliClosed,cli,rs)
      | .data bs =>
        if bs = [] ∨ httpMaxHdrLen - recvd < bs.length then none
        else
          let hdr := cli.hdr.write recvd bs
          let (hdr,ret) := if recvd = 0 then skipLeading hdr bs.length else (hdr,bs.length)
          let cli := { cli with hdr := hdr }
          if ret = 0 then httpRecvHdrLoop cli recvd rs
          else
            match hdrEnd (cString (hdr.slice 0 (recvd + ret))) with
            | none => httpRecvHdrLoop cli (recvd + ret) rs
            | some hdrLen =>
              let bodyLen := recvd + ret - hdrLen
              some (none,{ cli with hdrLen, bodyLen, body := some (hdr.slice hdrLen bodyLen) },rs)
    else some (some .maxHdrExc,cli,r :: rs)

def httpRecvHdr (cli : HttpCli) (rs : List Recv) : Option (Option HttpReqErr × HttpCli × List Recv) :=
  httpRecvHdrLoop { cli with cntLen := 0 } 0 rs

/-- The memory of a body after a recv at offset `off`. -/
def patch (body : Option (List UInt8)) (off : Nat) (bs : List UInt8) : List UInt8 :=
  let old := body.getD []
  old.take off ++ bs ++ old.drop (off + bs.length)

/-- The loop of http_recv_exact. `ret` is a uint64_t, so a timeout's -2 is added to `recvd`. -/
def httpRecvExactLoop (cli : HttpCli) (recvd : Nat) : List Recv → Option (Int × HttpCli × List Recv)
  | [] => if recvd < cli.cntLen then none else some (0,cli,[])
  | r :: rs =>
    if recvd < cli.cntLen then
      match r with
      | .error => some (-1,{ cli with body := none },rs)
      | .closed => some (0,{ cli with bodyLen := recvd },rs)
      | .timeout =>
        let recvd := (recvd + (2^64 - 2)) % 2^64
        httpRecvExactLoop { cli with bodyLen := recvd } recvd rs
      | .data bs =>
        if bs = [] ∨ tcpBufSize < bs.length then none
        else
          let recvd' := recvd + bs.length
          httpRecvExactLoop { cli with body := some (patch cli.body recvd bs), bodyLen := recvd' } recvd' rs
    else some (0,cli,r :: rs)

def httpRecvExact (cli : HttpCli) (rs : List Recv) : Option (Int × HttpCli × List Recv) :=
  if cli.nolen then some (0,cli,rs)
  else if cli.bodyLen = cli.cntLen then some (0,cli,rs)
  else httpRecvExactLoop cli cli.bodyLen rs

/-- The digit of `c` in a base up to 36, as the chain of class tests in http_strtol has it. -/
def digitOf (c : UInt8) : Option Nat :=
  if isdigit c then some (c.toNat - 48)
  else if 65 ≤ c ∧ c ≤ 90 then some (c.toNat - 65 + 10)
  else if 97 ≤ c ∧ c ≤ 122 then some (c.toNat - 97 + 10)
  else none

/-- HTTP_IS_HEX, which takes the letter x for a digit. -/
def httpIsHex (c : UInt8) : Bool := c = 120 || c = 88 || (digitOf c).any (· < 16)

abbrev longMin : Int := -2^63

abbrev longMax : Int := 2^63 - 1

/-- An unsigned long as a long. -/
def wrapLong (x : Int) : Int := x.bmod (2^64)

/-- The first value of cutoff. For a negative number it is 2^63, which a long does not hold. -/
def strtolCutoff (neg : Bool) : Int := if neg then wrapLong (wrapU64 (-(longMin + longMax)) + longMax) else longMax

/-- The conversion loop of http_strtol up to `&s1[len] >= s`, with acc and any. -/
def strtolLoop (s1 : Buffer) (len : Nat) (base cutoff cutlim : Int) : Nat → UInt8 → Nat → Int → Int → Int × Int
  | 0, _, _, acc, any => (acc,any)
  | fuel + 1, c, s, acc, any =>
    if s ≤ len then
      match digitOf c with
      | none => (acc,any)
      | some d =>
        if base ≤ d then (acc,any)
        else if any < 0 ∨ cutoff < acc ∨ acc = cutoff ∧ cutlim < d then
          strtolLoop s1 len base cutoff cutlim fuel (s1 s) (s + 1) acc (-1)
        else strtolLoop s1 len base cutoff cutlim fuel (s1 s) (s + 1) (acc * base + d) 1
    else (acc,any)

/-- What is made of acc and any behind the loop. -/
def strtolResult (neg : Bool) : Int × Int → Int
  | (acc,any) =>
    if any < 0 then if neg then longMin else longMax
    else if any = 0 then acc
    else if neg then -acc
    else acc

/-- http_strtol from the choice of the base on. -/
def strtolConvert (s1 : Buffer) (len : Nat) (base : Int) (neg : Bool) (c : UInt8) (s : Nat) : Int :=
  if base < 2 ∨ 36 < base then 0
  else
    let cutoff := strtolCutoff neg
    strtolResult neg (strtolLoop s1 len base (cutoff.tdiv base) (cutoff.tmod base) (len + 1) c s 0 0)

/-- http_strtol behind the sign. In base 16 a 0 with another digit behind it means that there is nothing to convert. -/
def strtolFrom (s1 : Buffer) (len : Nat) (base : Int) (neg : Bool) (c : UInt8) (s : Nat) : Int :=
  if (base = 0 ∨ base = 16) ∧ httpIsHex (s1 s) ∧ c = 48 then
    if s + 2 ≤ len then 0 else strtolConvert s1 len 16 neg (s1 (s + 1)) (s + 2)
  else strtolConvert s1 len (if base = 0 then if c = 48 then 8 else 10 else base) neg c s

/-- The blanks http_strtol skips, and the byte after them. -/
def strtolBlanks (s1 : Buffer) (len : Nat) : Nat → Nat → UInt8 × Nat
  | 0, s => (s1 s,s + 1)
  | fuel + 1, s => if s1 s = 32 ∧ s + 2 < len then strtolBlanks s1 len fuel (s + 1) else (s1 s,s + 1)

def httpStrtol (s1 : Buffer) (len : Nat) (base : Int) : Int :=
  let (c,s) := strtolBlanks s1 len len 0
  if c = 45 then strtolFrom s1 len base true (s1 s) (s + 1)
  else if c = 43 then strtolFrom s1 len base false (s1 s) (s + 1)
  else strtolFrom s1 len base false c s

section Chunked

-- What the compiled code makes of the difference when http_strcasechr returned NULL.
variable (away : List UInt8 → Int)

/-- http_strcasechr for LF, minus the start of the text. -/
def lfOffset (s : List UInt8) : Int :=
  match strstr [10] s with
  | some i => i
  | none => away s

/-- `more` of http_recv_chunked: what came past the current chunk, or -1 if it is not complete. -/
def moreThan (recvd cntLen : Nat) : Nat := if recvd < cntLen then 2^64 - 1 else recvd - cntLen

/-- Skips the whitespace after a chunk. -/
def skipChunkEnd (body : Buffer) (ret : Nat) : Nat → Nat
  | 0 => 0
  | more + 1 =>
    if more + 1 ≤ ret ∧ isspace (body (ret - (more + 1))) = true then skipChunkEnd body ret more else more + 1

/-- recvd, more and len of http_recv_chunked, with the chunk size kept in `cnt_len`. -/
structure ChunkState where
  recvd : Nat
  more : Nat
  len : Nat
  cntLen : Nat
  deriving DecidableEq, Repr

/-- The inner loop: every further chunk size inside one packet. -/
def chunkSizes (body : Buffer) (ret : Nat) : Nat → ChunkState → ChunkState
  | 0, st => st
  | fuel + 1, st =>
    if st.more = 0 then st
    else
      let more := skipChunkEnd body ret st.more
      if more = 0 then { st with recvd := 0, more := 0, cntLen := 0 }
      else if ret < more then { st with more }
      else
        let text := body.slice (ret - more) more
        let len := wrapU64 (httpStrtol (fun j => body (ret - more + j)) more 16)
        let recvd := wrapU64 (-lfOffset away text - 1)
        if len = 0 then ⟨recvd,more,0,0⟩
        else
          let recvd := (recvd + more) % 2^64
          chunkSizes body ret fuel ⟨recvd,moreThan recvd len,len,len⟩

/-- One turn of the outer loop of http_recv_chunked up to its recv; `true` leaves the loop. -/
def chunkTurn (cli : HttpCli) (ret : Nat) (st : ChunkState) : Bool × HttpCli × ChunkState :=
  let recvd := (st.recvd + ret) % 2^64
  let more := moreThan recvd st.cntLen
  if 0 < more ∧ ret = 0 then (true,cli,{ st with recvd, more })
  else
    let st := chunkSizes away (fun j => (cli.body.getD []).getD j 0) ret (ret + 2) { st with recvd, more }
    (st.len = 0,{ cli with cntLen := st.cntLen },st)

/-- The outer loop. Every packet is put behind `body_len`, which stays as it is. -/
def httpRecvChunkedLoop (cli : HttpCli) (ret : Nat) (st : ChunkState) :
    List Recv → Option (Int × HttpCli × List Recv)
  | [] =>
    let (stop,cli,_) := chunkTurn away cli ret st
    if stop then some (0,cli,[]) else none
  | r :: rs =>
    let (stop,cli,st) := chunkTurn away cli ret st
    if stop then some (0,cli,r :: rs)
    else
      let next := if st.more = 0 then { st with recvd := 0, cntLen := 0 } else st
      match r with
      | .closed => some (0,cli,rs)
      | .error => some (-1,{ cli with body := none },rs)
      | .timeout => httpRecvChunkedLoop { cli with cntLen := next.cntLen } (2^64 - 2) next rs
      | .data bs =>
        if bs = [] ∨ tcpBufSize < bs.length then none
        else
          let body := some (patch cli.body cli.bodyLen bs)
          httpRecvChunkedLoop { cli with body, cntLen := next.cntLen } bs.length next rs

def httpRecvChunked (cli : HttpCli) (rs : List Recv) : Option (Int × HttpCli × List Recv) :=
  let recvd := wrapU64 (cli.bodyLen - lfOffset away (cli.hdr.slice cli.hdrLen cli.bodyLen) - 1)
  if recvd = cli.cntLen then some (0,cli,rs)
  else httpRecvChunkedLoop away cli 0 ⟨recvd,0,1,cli.cntLen⟩ rs

end Chunked

end Memqueue
