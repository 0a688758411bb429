import Memqueue.Http.State

/-! http_parser.c: the request line, the header lines parsed in place, and what is taken from them.
The header block is scanned with the loops of the source; a line is cut by writing NULs into it. -/
namespace Memqueue

/-- The loops `while (i < len && p(hdr[i])) i++`, with the number of bytes left. -/
def scan (p : UInt8 → Bool) (hdr : Buffer) (i : Nat) : Nat → Nat
  | 0 => i
  | n + 1 => if p (hdr i) then scan p hdr (i + 1) n else i

section Scan
variable {p : UInt8 → Bool} {f : Buffer}

theorem le_scan (i n : Nat) : i ≤ scan p f i n := by
  induction n generalizing i with
  | zero => exact le_rfl
  | succ n ih =>
    rw [scan]
    split
    · exact (Nat.le_succ i).trans (ih (i + 1))
    · exact le_rfl

theorem scan_le_add (i n : Nat) : scan p f i n ≤ i + n := by
  induction n generalizing i with
  | zero => exact le_rfl
  | succ n ih =>
    rw [scan]
    split
    · have := ih (i + 1)
      omega
    · omega

/-- A scan stops at the end or at a byte that fails the test, and passes no other such byte. -/
theorem scan_to {i j len : Nat} (hi : i ≤ len) (h : scan p f i (len - i) = j) :
    i ≤ j ∧ j ≤ len ∧ (j ≠ len → p (f j) = false) ∧ ∀ k, i ≤ k → k < j → p (f k) = true := by
  obtain ⟨n,rfl⟩ := Nat.exists_eq_add_of_le hi
  rw [Nat.add_sub_cancel_left] at h
  clear hi
  induction n generalizing i with
  | zero =>
    have hij : i = j := h
    exact ⟨hij.le,hij.ge,fun hne => absurd hij.symm hne,fun k hk hlt => by omega⟩
  | succ n ih =>
    rw [scan] at h
    split at h
    · rename_i hp
      obtain ⟨hle,hlen,hstop,hpass⟩ := ih h
      have hend : i + 1 + n = i + (n + 1) := by omega
      rw [hend] at hlen hstop
      refine ⟨by omega,hlen,hstop,fun k hk hlt => ?_⟩
      obtain rfl | hne := Nat.eq_or_lt_of_le hk
      · exact hp
      · exact hpass k hne hlt
    · rename_i hp
      subst h
      exact ⟨le_rfl,by omega,fun _ => by simpa using hp,fun k hk hlt => by omega⟩

/-- A scan looks at the bytes it may pass, and at no others. -/
theorem scan_congr {g : Buffer} {i n : Nat} (h : ∀ k, i ≤ k → k < i + n → f k = g k) : scan p f i n = scan p g i n := by
  induction n generalizing i with
  | zero => rfl
  | succ n ih =>
    rw [scan,scan,h i le_rfl (by omega),ih fun k hk hlt => h k (by omega) (by omega)]

/-- A scan does not pass a byte that fails the test. -/
theorem scan_le {i n j : Nat} (hi : i ≤ j) (hj : j ≤ i + n) (h : p (f j) = false) : scan p f i n ≤ j := by
  induction n generalizing i with
  | zero =>
    rw [scan]
    exact hi
  | succ n ih =>
    rw [scan]
    split
    · rename_i hp
      have hne : i ≠ j := by
        rintro rfl
        rw [h] at hp
        cases hp
      exact ih (by omega) (by omega)
    · exact hi

/-- Where a scan stops. -/
theorem scan_eq {i n j : Nat} (hi : i ≤ j) (hj : j ≤ i + n) (hall : ∀ k, i ≤ k → k < j → p (f k) = true)
    (h : p (f j) = false) : scan p f i n = j := by
  apply le_antisymm (scan_le hi hj h)
  induction n generalizing i with
  | zero =>
    rw [scan]
    omega
  | succ n ih =>
    rw [scan]
    by_cases heq : i = j
    · subst heq
      rw [h,if_neg (by decide)]
    · rw [if_pos (hall i le_rfl (by omega))]
      exact ih (by omega) (by omega) fun k hk => hall k (by omega)

end Scan

/-- The chain of strncasecmp calls: GET, PUT, DELETE, POST, HEAD. -/
def httpMethodOf (hdr : Buffer) : Option (HttpMethod × Nat) :=
  if caseEq [71,69,84] (hdr.slice 0 3) then some (.get,3)
  else if caseEq [80,85,84] (hdr.slice 0 3) then some (.put,3)
  else if caseEq [68,69,76,69,84,69] (hdr.slice 0 6) then some (.delete,6)
  else if caseEq [80,79,83,84] (hdr.slice 0 4) then some (.post,4)
  else if caseEq [72,69,65,68] (hdr.slice 0 4) then some (.head,4)
  else none

/-- HTTP/1.1 or HTTP/1.0. -/
def httpVersionOf (s : List UInt8) : Option Bool :=
  if caseEq [72,84,84,80,47,49,46,49] s then some true
  else if caseEq [72,84,84,80,47,49,46,48] s then some false
  else none

/-- The states st_uri and st_proto of http_parse_req_line; nothing enters the other two. -/
def httpParseUri (cli : HttpCli) (p : Nat) : Option HttpReqErr × HttpCli :=
  let len := cli.hdrLen
  let uriStart := scan isspace cli.hdr p (len - p)
  if uriStart = len then (some .invReqLine,cli)
  else
    let uriEnd := scan (fun c => !isspace c) cli.hdr uriStart (len - uriStart)
    if uriEnd = len then (some .invReqLine,cli)
    else
      let cli := { cli with uri := some (cString (cli.hdr.slice uriStart (uriEnd - uriStart))) }
      let protoStart := scan isspace cli.hdr uriEnd (len - uriEnd)
      let protoEnd := scan (fun c => c ≠ 10 && c ≠ 13) cli.hdr protoStart (len - protoStart)
      if protoEnd = len then (some .invReqLine,cli)
      else if protoEnd - protoStart ≠ 8 then (some .invProto,cli)
      else
        match httpVersionOf (cli.hdr.slice protoStart 8) with
        | none => (some .invProto,cli)
        | some http11 =>
          (none,{ cli with http11, hdr := Function.update cli.hdr (protoEnd - 1) 0, hdrStart := protoEnd })

def httpParseReqLine (cli : HttpCli) : Option HttpReqErr × HttpCli :=
  let cli := { cli with port := httpDefaultServerPort }
  if cli.hdrLen < 7 then (some .invReqLine,cli)
  else
    match httpMethodOf cli.hdr with
    | none => (some .invMethod,cli)
    | some (method,p) => httpParseUri { cli with method := some method } p

/-- Where http_parse_hdr stands: the buffer it writes into, the start of the current line, the table. -/
structure HdrScan where
  hdr : Buffer
  start : Nat
  hdrs : Table (List UInt8) Nat

/-- The line that ends at `i`, cut off by NULs at its LF and a CR before it. -/
def cutLine (hdr : Buffer) (i : Nat) : Buffer :=
  let hdr := Function.update hdr i 0
  if i ≠ 0 ∧ hdr (i - 1) = 13 then Function.update hdr (i - 1) 0 else hdr

/-- The name is lowered in place; the value is taken to begin behind the next whitespace. -/
def insertLine (st : HdrScan) (i p : Nat) : HdrScan :=
  let hdr : Buffer := Function.update st.hdr p 0
  let hdr := hdr.write st.start ((hdr.slice st.start (p - st.start)).map tolower)
  let v := scan (fun c => c ≠ 0 && !isspace c) hdr (p + 1) (i - (p + 1))
  ⟨hdr,i + 1,st.hdrs.insert (hdr.slice st.start (p - st.start)) (v + 1)⟩

/-- One turn of the loop of http_parse_hdr. A line that is followed by whitespace goes on. -/
def parseHdrAt (st : HdrScan) (i : Nat) : HdrScan :=
  if st.hdr i ≠ 10 then st
  else if isspace (st.hdr (i + 1)) then st
  else
    let hdr := cutLine st.hdr i
    let p := scan (fun c => c ≠ 58 && c ≠ 0) hdr st.start (i - st.start)
    if hdr p ≠ 58 then ⟨hdr,i + 1,st.hdrs⟩ else insertLine ⟨hdr,st.start,st.hdrs⟩ i p

def httpParseHdr (cli : HttpCli) : HttpCli :=
  let st := (List.range' cli.hdrStart (cli.hdrLen - cli.hdrStart)).foldl parseHdrAt
    ⟨cli.hdr,cli.hdrStart,cli.hdrs⟩
  { cli with hdr := st.hdr, hdrs := st.hdrs }

/-- content-length -/
def contentLength : List UInt8 := [99,111,110,116,101,110,116,45,108,101,110,103,116,104]

/-- transfer-encoding -/
def transferEncoding : List UInt8 := [116,114,97,110,115,102,101,114,45,101,110,99,111,100,105,110,103]

/-- The host header: everything before a colon, which also sets the port. -/
def parseHost (cli : HttpCli) : Option HttpReqErr × HttpCli :=
  match cli.getHdr [104,111,115,116] with
  | none => (none,cli)
  | some v =>
    match strstr [58] v with
    | none => (none,{ cli with host := some v })
    | some p =>
      if httpMaxHostLen < p then (some .invHost,cli)
      else (none,{ cli with host := some (v.take p), port := strtol (v.drop p) % 2^16 })

/-- cnt_len from a content-length, and chunked from any transfer-encoding. -/
def parseFraming (cli : HttpCli) : HttpCli :=
  let cntLen := ((cli.getHdr contentLength).map fun v => wrapU64 (strtol v)).getD cli.cntLen
  { cli with cntLen, chunked := cli.chunked || (cli.hdrs.get transferEncoding).isSome }

def httpParseReqHdr (cli : HttpCli) : Option HttpReqErr × HttpCli :=
  if 0 ∈ cli.block then (some .invHdr,cli)
  else
    match httpParseReqLine cli with
    | (some e,cli) => (some e,cli)
    | (none,cli) => parseHost (parseFraming (httpParseHdr cli))

end Memqueue
