import Memqueue.Http.Headers
import Memqueue.Http.RequestLine

/-! What the bytes of a request say: where its line ends, which header lines it has, the transfer encoding and the
length of the body. The parser finds the same in the buffer it writes into. -/
namespace Memqueue

/-- The method a text names, among those of at least seven bytes. -/
def methodNamed (s : List UInt8) : Option HttpMethod :=
  if s.length < 7 then none
  else [.get,.put,.delete,.post,.head].find? fun w => caseEq (methodWord w) s

/-- A text behind its method, the blanks, the uri and the blanks behind that. -/
def versionPart (w : HttpMethod) (s : List UInt8) : List UInt8 :=
  (((s.drop (methodWord w).length).dropWhile isspace).dropWhile fun c => !isspace c).dropWhile isspace

/-- Where the request line of a text ends: behind HTTP/1.1 or HTTP/1.0, with a CR or LF next. -/
def requestLineEnd (s : List UInt8) : Option Nat :=
  (methodNamed s).bind fun w =>
    let t := versionPart w s
    if (httpVersionOf (t.take 8)).isSome = true ∧ (t[8]? = some 13 ∨ t[8]? = some 10) then
      some (s.length - t.length + 8)
    else none

/-- The header lines of a text with `next` behind it, and what no line end closes; `line` is the line so far.
A line ends at an LF that no whitespace follows. -/
def hdrLines (next : UInt8) (line : List UInt8) : List UInt8 → List (List UInt8) × List UInt8
  | [] => ([],line)
  | c :: t =>
    if c = 10 ∧ isspace (t.headD next) = false then (line :: (hdrLines next [] t).1,(hdrLines next [] t).2)
    else hdrLines next (line ++ [c]) t

/-- The name of a header line, if it has a colon. -/
def lineName (line : List UInt8) : Option (List UInt8) :=
  if 58 ∈ line then some ((line.takeWhile (· ≠ 58)).map tolower) else none

/-- What stands behind the colon. -/
def lineRest (line : List UInt8) : List UInt8 := line.drop ((line.takeWhile (· ≠ 58)).length + 1)

/-- A line without the CR before its LF, a NUL in its place. -/
def cutCr (line : List UInt8) : List UInt8 := if line.getLast? = some 13 then line.dropLast ++ [0] else line

/-- A line as the parser leaves it: the name in lower case, NULs for its colon and its CR. -/
def cutHeader (line : List UInt8) : List UInt8 :=
  match lineName line with
  | some name => name ++ 0 :: cutCr (lineRest line)
  | none => cutCr line

/-- Where the value is taken to begin: one byte behind the first whitespace or NUL behind the colon. -/
def valueOffset (line : List UInt8) : Nat :=
  (line.takeWhile (· ≠ 58)).length + 1 + ((cutCr (lineRest line)).takeWhile fun c => c ≠ 0 && !isspace c).length + 1

/-- Where the value of the first header `k` begins, in lines of which the first one begins at `off`. -/
def fieldAt (k : List UInt8) (off : Nat) : List (List UInt8) → Option Nat
  | [] => none
  | line :: lines =>
    if lineName line = some k then some (off + valueOffset line) else fieldAt k (off + line.length + 1) lines

/-- The text of the lines once they have been parsed. -/
def parsedText (r : List (List UInt8) × List UInt8) : List UInt8 :=
  (r.1.flatMap fun line => cutHeader line ++ [0]) ++ r.2

/-- The method a request names, if there is no NUL in its block. -/
def sentMethod (block : List UInt8) : Option HttpMethod := if 0 ∈ block then none else methodNamed block

/-- The request has a request line, and no NUL in its block. -/
def sendsLine (block : List UInt8) : Bool := decide (0 ∉ block) && (requestLineEnd block).isSome

/-- The request has a header line of that name, behind an accepted request line; `next` is the byte behind its block. -/
def sendsHeader (name block : List UInt8) (next : UInt8) : Bool :=
  decide (0 ∉ block) && match requestLineEnd block with
    | none => false
    | some k => (hdrLines next [] (block.drop k)).1.any fun line => lineName line = some name

/-- The number that is read from the first content-length line, 0 without one; `behind` is what follows the block. -/
def lengthRead (block : List UInt8) (next : UInt8) (behind : List UInt8) : Nat :=
  match requestLineEnd block with
  | none => 0
  | some k =>
    let r := hdrLines next [] (block.drop k)
    match fieldAt contentLength k r.1 with
    | none => 0
    | some p => wrapU64 (strtol (cString ((block.take k ++ (parsedText r ++ behind)).drop p)))

section Line
variable {p : UInt8 → Bool} {f : Buffer}

/-- A scan in a buffer passes what takeWhile takes of its bytes. -/
theorem scan_eq_takeWhile (i n : Nat) : scan p f i n = i + ((f.slice i n).takeWhile p).length := by
  induction n generalizing i with
  | zero => rfl
  | succ n ih =>
    have hone : f.slice i (n + 1) = f i :: f.slice (i + 1) n := by
      rw [Nat.add_comm,Buffer.slice_add]
      simp [Buffer.slice]
    rw [scan,hone,List.takeWhile_cons]
    split
    · rw [ih,List.length_cons]
      omega
    · rfl

/-- The rest of a block behind a scan. -/
private theorem drop_scan {len : Nat} {i : Nat} (hi : i ≤ len) : scan p f i (len - i) ≤ len ∧
    (f.slice 0 len).drop (scan p f i (len - i)) = ((f.slice 0 len).drop i).dropWhile p := by
  have hrest : (f.slice 0 len).drop i = f.slice i (len - i) := by
    rw [Buffer.drop_slice f 0 hi,Nat.zero_add]
  have hle := scan_le_add (p := p) (f := f) i (len - i)
  refine ⟨by omega,?_⟩
  rw [scan_eq_takeWhile,← List.drop_drop,hrest]
  exact (congrArg (List.drop _) List.takeWhile_append_dropWhile.symm).trans List.drop_left

theorem httpMethodOf_named (f : Buffer) {len : Nat} (hlen : 7 ≤ len) :
    httpMethodOf f = (methodNamed (f.slice 0 len)).map fun w => (w,(methodWord w).length) := by
  have hcase : ∀ w, caseEq (methodWord w) (f.slice 0 len) =
      caseEq (methodWord w) (f.slice 0 (methodWord w).length) := by
    intro w
    have hw : (methodWord w).length ≤ len := le_trans (by cases w <;> decide) hlen
    rw [caseEq,caseEq,Buffer.take_slice f 0 hw,Buffer.take_slice f 0 le_rfl]
  rw [methodNamed,Buffer.length_slice,if_neg (by omega)]
  simp only [List.find?_cons,hcase]
  rw [httpMethodOf]
  simp only [methodWord,List.length_cons,List.length_nil,Nat.zero_add,Nat.reduceAdd]
  -- a chain of five tests on both sides
  generalize caseEq [71,69,84] (f.slice 0 3) = get
  generalize caseEq [80,85,84] (f.slice 0 3) = put
  generalize caseEq [68,69,76,69,84,69] (f.slice 0 6) = delete
  generalize caseEq [80,79,83,84] (f.slice 0 4) = post
  generalize caseEq [72,69,65,68] (f.slice 0 4) = head
  cases get <;> cases put <;> cases delete <;> cases post <;> cases head <;> rfl

/-- No byte of a version is a line end. -/
private theorem version_byte {v : List UInt8} (h : (httpVersionOf v).isSome = true) {c : UInt8} (hc : c ∈ v.take 8) :
    c ≠ 10 ∧ c ≠ 13 := by
  obtain ⟨http11,h⟩ := Option.isSome_iff_exists.mp h
  have hword := httpVersionOf_cases h
  rw [caseEq,decide_eq_true_eq] at hword
  have hmem : tolower c ∈ (versionWord http11).map tolower := by
    rw [← hword]
    exact List.mem_map_of_mem (by cases http11 <;> exact hc)
  have hnone : ∀ d ∈ (versionWord http11).map tolower, d ≠ tolower 10 ∧ d ≠ tolower 13 := by
    cases http11 <;> decide +kernel
  constructor
  · rintro rfl
    exact (hnone _ hmem).1 rfl
  · rintro rfl
    exact (hnone _ hmem).2 rfl

/-- Eight bytes up to the first line end, and a version: both are one look at the ninth byte. -/
private theorem version_iff {t : List UInt8} :
    ((t.takeWhile fun c => c ≠ 10 && c ≠ 13).length ≠ t.length ∧
      (t.takeWhile fun c => c ≠ 10 && c ≠ 13).length = 8 ∧ (httpVersionOf (t.take 8)).isSome = true) ↔
    (httpVersionOf (t.take 8)).isSome = true ∧ (t[8]? = some 13 ∨ t[8]? = some 10) := by
  have hsplit := List.takeWhile_append_dropWhile (p := fun c : UInt8 => c ≠ 10 && c ≠ 13) (l := t)
  constructor
  · rintro ⟨hne,h8,hv⟩
    refine ⟨hv,?_⟩
    cases hd : t.dropWhile fun c => c ≠ 10 && c ≠ 13 with
    | nil =>
      rw [hd,List.append_nil] at hsplit
      exact absurd (congrArg List.length hsplit) hne
    | cons c r =>
      have hstop : ¬ (decide (c ≠ 10) && decide (c ≠ 13)) = true := by
        have := List.head?_dropWhile_not (fun c : UInt8 => c ≠ 10 && c ≠ 13) t
        rw [hd] at this
        simpa using this
      have hat : t[8]? = some c := by
        rw [← hsplit,hd,← h8,List.getElem?_append_right le_rfl,Nat.sub_self]
        rfl
      rw [hat,Option.some.injEq,Option.some.injEq]
      by_contra hc
      rw [not_or] at hc
      exact hstop (by simp [hc.1,hc.2])
  · rintro ⟨hv,h8⟩
    obtain ⟨c,hat,hc⟩ : ∃ c, t[8]? = some c ∧ (c = 13 ∨ c = 10) := by
      rcases h8 with h | h
      · exact ⟨13,h,.inl rfl⟩
      · exact ⟨10,h,.inr rfl⟩
    obtain ⟨hlt,hget⟩ := List.getElem?_eq_some_iff.mp hat
    have htake : (t.takeWhile fun c => c ≠ 10 && c ≠ 13) = t.take 8 := by
      nth_rewrite 1 [← List.take_append_drop 8 t]
      rw [List.takeWhile_append_of_pos,List.drop_eq_getElem_cons hlt,hget,List.takeWhile_cons_of_neg,List.append_nil]
      · rcases hc with rfl | rfl <;> decide
      · intro d hd
        obtain ⟨h10,h13⟩ := version_byte hv (by rwa [List.take_take] : d ∈ (t.take 8).take 8)
        simp [h10,h13]
    rw [htake,List.length_take,min_eq_left hlt.le]
    exact ⟨hlt.ne,rfl,hv⟩

private theorem httpParseUri_end {cli : HttpCli} {p : Nat} (hp : p ≤ cli.hdrLen) {t : List UInt8}
    (ht : t = (((cli.block.drop p).dropWhile isspace).dropWhile fun c => !isspace c).dropWhile isspace) :
    (match httpParseUri cli p with
      | (none,cli') => some cli'.hdrStart
      | (some _,_) => none) =
    if (httpVersionOf (t.take 8)).isSome = true ∧ (t[8]? = some 13 ∨ t[8]? = some 10) then
      some (cli.block.length - t.length + 8)
    else none := by
  obtain ⟨hus,hrest₁⟩ := drop_scan (p := isspace) (f := cli.hdr) hp
  have hpu := le_scan (p := isspace) (f := cli.hdr) p (cli.hdrLen - p)
  generalize hs : scan isspace cli.hdr p (cli.hdrLen - p) = us at hus hrest₁ hpu
  obtain ⟨hue,hrest₂⟩ := drop_scan (p := fun c => !isspace c) (f := cli.hdr) hus
  have huu := le_scan (p := fun c => !isspace c) (f := cli.hdr) us (cli.hdrLen - us)
  generalize he : scan (fun c => !isspace c) cli.hdr us (cli.hdrLen - us) = ue at hue hrest₂ huu
  obtain ⟨hps,hrest₃⟩ := drop_scan (p := isspace) (f := cli.hdr) hue
  have hup := le_scan (p := isspace) (f := cli.hdr) ue (cli.hdrLen - ue)
  generalize hq : scan isspace cli.hdr ue (cli.hdrLen - ue) = ps at hps hrest₃ hup
  have hpart : t = cli.hdr.slice ps (cli.hdrLen - ps) := by
    rw [ht,HttpCli.block,← hrest₁,← hrest₂,← hrest₃,Buffer.drop_slice cli.hdr 0 hps,Nat.zero_add]
  have hlen : t.length = cli.hdrLen - ps := by rw [hpart,Buffer.length_slice]
  have hpe := scan_eq_takeWhile (p := fun c => c ≠ 10 && c ≠ 13) (f := cli.hdr) ps (cli.hdrLen - ps)
  rw [← hpart] at hpe
  have hle := (List.takeWhile_prefix (l := t) fun c => c ≠ 10 && c ≠ 13).length_le
  rw [HttpCli.block,Buffer.length_slice]
  simp only [httpParseUri,hs,he,hq,hpe]
  by_cases hcond : (httpVersionOf (t.take 8)).isSome = true ∧ (t[8]? = some 13 ∨ t[8]? = some 10)
  · obtain ⟨hne,h8,hv⟩ := version_iff.mpr hcond
    obtain ⟨http11,hv⟩ := Option.isSome_iff_exists.mp hv
    have hlt : 8 < t.length := by omega
    have hslice : cli.hdr.slice ps 8 = t.take 8 := by rw [hpart,Buffer.take_slice cli.hdr ps (by omega)]
    rw [if_pos hcond,if_neg (by omega),if_neg (by omega),if_neg (by omega),if_neg (by omega),hslice,hv]
    refine congrArg some ?_
    dsimp only
    omega
  · rw [if_neg hcond]
    split_ifs with h₁ h₂ h₃ h₄
    · rfl
    · rfl
    · rfl
    · rfl
    · cases hv : httpVersionOf (cli.hdr.slice ps 8) with
      | none => rfl
      | some http11 =>
        rw [not_not,Nat.add_sub_cancel_left] at h₄
        refine absurd (version_iff.mp ⟨by omega,h₄,?_⟩) hcond
        rw [hpart,Buffer.take_slice cli.hdr ps (by omega),hv]
        rfl

/-- http_parse_req_line accepts what begins with a request line, and puts the start of the headers behind it. -/
theorem httpParseReqLine_end (cli : HttpCli) :
    (match httpParseReqLine cli with
      | (none,cli') => some cli'.hdrStart
      | (some _,_) => none) = requestLineEnd cli.block := by
  rw [httpParseReqLine,requestLineEnd]
  dsimp only
  by_cases hlen : cli.hdrLen < 7
  · rw [if_pos hlen,methodNamed,if_pos (by rwa [HttpCli.block,Buffer.length_slice])]
    rfl
  rw [if_neg hlen,httpMethodOf_named cli.hdr (Nat.not_lt.mp hlen),← HttpCli.block]
  cases methodNamed cli.block with
  | none => rfl
  | some w =>
    have hw : (methodWord w).length ≤ cli.hdrLen := le_trans (by cases w <;> decide) (Nat.not_lt.mp hlen)
    exact @httpParseUri_end { cli with port := httpDefaultServerPort, method := some w } _ hw _ rfl

end Line

section Lines

private theorem cutCr_concat (l : List UInt8) (c : UInt8) : cutCr (l ++ [c]) = l ++ [if c = 13 then 0 else c] := by
  simp only [cutCr,List.getLast?_concat,Option.some.injEq,List.dropLast_concat]
  split
  · rfl
  · rfl

private theorem cutCr_length (line : List UInt8) : (cutCr line).length = line.length := by
  rcases List.eq_nil_or_concat line with rfl | ⟨l,c,rfl⟩
  · rfl
  · rw [List.concat_eq_append,cutCr_concat]
    simp

private theorem cutCr_colon (name rest : List UInt8) : cutCr (name ++ 58 :: rest) = name ++ 58 :: cutCr rest := by
  rcases List.eq_nil_or_concat rest with rfl | ⟨l,c,rfl⟩
  · exact cutCr_concat name 58
  · rw [List.concat_eq_append,cutCr_concat,← List.cons_append,← List.append_assoc,cutCr_concat]
    simp

private theorem takeWhile_colon {name : List UInt8} (h : 58 ∉ name) (rest : List UInt8) :
    (name ++ 58 :: rest).takeWhile (· ≠ 58) = name := by
  rw [List.takeWhile_append_of_pos,List.takeWhile_cons_of_neg (by decide),List.append_nil]
  intro c hc
  exact decide_eq_true fun heq => h (heq ▸ hc)

/-- A line with a colon, by its parts. -/
private theorem line_parts {name : List UInt8} (h : 58 ∉ name) (rest : List UInt8) :
    lineName (name ++ 58 :: rest) = some (name.map tolower) ∧ lineRest (name ++ 58 :: rest) = rest ∧
      cutHeader (name ++ 58 :: rest) = name.map tolower ++ 0 :: cutCr rest := by
  have hname : lineName (name ++ 58 :: rest) = some (name.map tolower) := by
    rw [lineName,if_pos (by simp),takeWhile_colon h]
  have hrest : lineRest (name ++ 58 :: rest) = rest := by
    rw [lineRest,takeWhile_colon h,← List.drop_drop,List.drop_left]
    rfl
  refine ⟨hname,hrest,?_⟩
  rw [cutHeader,hname,hrest]

private theorem cutHeader_length (line : List UInt8) : (cutHeader line).length = line.length := by
  by_cases h : 58 ∈ line
  · obtain ⟨name,rest,rfl,hn⟩ := List.eq_append_cons_of_mem h
    rw [(line_parts hn rest).2.2]
    simp [cutCr_length]
  · rw [cutHeader,lineName,if_neg h]
    exact cutCr_length line

private theorem mem_cutCr {line : List UInt8} {c : UInt8} (h : c ∈ cutCr line) : c ∈ line ∨ c = 0 := by
  rcases List.eq_nil_or_concat line with rfl | ⟨l,d,rfl⟩
  · exact .inl h
  · rw [List.concat_eq_append] at h ⊢
    rw [cutCr_concat,List.mem_append,List.mem_singleton] at h
    rcases h with h | h
    · exact .inl (List.mem_append_left _ h)
    · split at h
      · exact .inr h
      · exact .inl (by simp [h])

variable {st : HdrScan} {line : List UInt8} {i : Nat}

/-- Cutting a line off writes into it and at its end. -/
private theorem cutLine_line (hi : i = st.start + line.length) (hraw : st.hdr.slice st.start line.length = line)
    (hprev : 0 < st.start → st.hdr (st.start - 1) ≠ 13) :
    (cutLine st.hdr i).slice st.start line.length = cutCr line ∧
      ∀ j, j < st.start ∨ i < j → cutLine st.hdr i j = st.hdr j := by
  have hbyte : i ≠ 0 → cutLine st.hdr i (i - 1) = if st.hdr (i - 1) = 13 then 0 else st.hdr (i - 1) := by
    intro hpos
    rw [cutLine,Function.update_of_ne (by omega)]
    by_cases hcr : st.hdr (i - 1) = 13
    · rw [if_pos ⟨hpos,hcr⟩,if_pos hcr,Function.update_self]
    · rw [if_neg fun h => hcr h.2,if_neg hcr,Function.update_of_ne (by omega)]
  constructor
  · rcases List.eq_nil_or_concat line with rfl | ⟨l,c,rfl⟩
    · rfl
    · rw [List.concat_eq_append] at hraw hi ⊢
      obtain ⟨hl,hc⟩ := Buffer.slice_eq_append.mp hraw
      rw [List.length_append,List.length_singleton] at hi ⊢
      have hlast : st.hdr (st.start + l.length) = c := Buffer.slice_getElem hc (j := 0) Nat.one_pos
      have hat : i - 1 = st.start + l.length := by omega
      have hcut := hbyte (by omega)
      rw [hat,hlast] at hcut
      have hbefore : (cutLine st.hdr i).slice st.start l.length = st.hdr.slice st.start l.length :=
        Buffer.slice_congr fun j hj => cutLine_other (by omega) (by omega)
      rw [Buffer.slice_add,hbefore,hl,cutCr_concat,← hcut]
      simp [Buffer.slice]
  · rintro j (hj | hj)
    · by_cases hlast : j + 1 = i
      · have hnil : i = st.start := by omega
        rw [show j = i - 1 by omega,hbyte (by omega),if_neg]
        rw [hnil]
        exact hprev (by omega)
      · exact cutLine_other (by omega) hlast
    · exact cutLine_other (by omega) (by omega)

/-- The name goes back in lower case, with a NUL for the colon. -/
private theorem insertLine_line {name rest : List UInt8}
    (htext : st.hdr.slice st.start (name ++ 58 :: rest).length = name ++ 58 :: rest)
    (hi : i = st.start + (name ++ 58 :: rest).length) (hend : st.hdr i = 0) :
    (insertLine st i (st.start + name.length)).hdr.slice st.start ((name ++ 58 :: rest).length + 1) =
        name.map tolower ++ 0 :: rest ++ [0] ∧
      ∀ j, j < st.start ∨ i < j → (insertLine st i (st.start + name.length)).hdr j = st.hdr j := by
  obtain ⟨hname,hrest⟩ := Buffer.slice_eq_append.mp htext
  have hlen : (name ++ 58 :: rest).length = name.length + 1 + rest.length := by
    simp only [List.length_append,List.length_cons]
    omega
  have hlow : Buffer.slice (Function.update st.hdr (st.start + name.length) 0) st.start name.length = name :=
    (Buffer.slice_congr fun j hj => Function.update_of_ne (by omega) _ _).trans hname
  have hhdr : (insertLine st i (st.start + name.length)).hdr =
      Buffer.write (Function.update st.hdr (st.start + name.length) 0) st.start (name.map tolower) := by
    rw [insertLine]
    dsimp only
    rw [Nat.add_sub_cancel_left,hlow]
  have hafter := fun j => @insertLine_after st i (st.start + name.length) j (Nat.le_add_right _ _)
  constructor
  · have hmap := Buffer.slice_write (Function.update st.hdr (st.start + name.length) 0) st.start (name.map tolower)
    rw [← hhdr,List.length_map] at hmap
    have hzero : (insertLine st i (st.start + name.length)).hdr (st.start + name.length) = 0 := by
      rw [hhdr,Buffer.write_after _ _ (by simp),Function.update_self]
    have hkeep : (insertLine st i (st.start + name.length)).hdr.slice (st.start + name.length + 1) rest.length =
        rest := by
      rw [show 58 :: rest = [58] ++ rest from rfl] at hrest
      exact (Buffer.slice_congr fun j _ => hafter _ (by omega)).trans (Buffer.slice_eq_append.mp hrest).2
    have hlast : (insertLine st i (st.start + name.length)).hdr (st.start + (name.length + 1) + rest.length) = 0 := by
      rw [hafter _ (by omega),← hend,hi,hlen]
      exact congrArg st.hdr (by omega)
    rw [hlen,Buffer.slice_add,Buffer.slice_add,Buffer.slice_add,hmap,← Nat.add_assoc,← Nat.add_assoc,hkeep]
    simp [Buffer.slice,hzero,hlast]
  · rintro j (hj | hj)
    · rw [hhdr,Buffer.write_before _ _ hj,Function.update_of_ne (by omega)]
    · exact hafter j (by omega)

/-- At the end of a line: it is cut, and goes into the table if it has a colon. -/
private theorem parse_ended (hi : i = st.start + line.length) (hraw : st.hdr.slice st.start line.length = line)
    (hfree : 0 ∉ line) (hprev : 0 < st.start → st.hdr (st.start - 1) ≠ 13) (hlf : st.hdr i = 10)
    (hnext : isspace (st.hdr (i + 1)) = false) :
    (parseHdrAt st i).start = i + 1 ∧
      (parseHdrAt st i).hdr.slice st.start (line.length + 1) = cutHeader line ++ [0] ∧
      (∀ j, j < st.start ∨ i < j → (parseHdrAt st i).hdr j = st.hdr j) ∧
      ∀ k, (parseHdrAt st i).hdrs.get k =
        (st.hdrs.get k).or (if lineName line = some k then some (st.start + valueOffset line) else none) := by
  obtain ⟨hcut,hsame⟩ := cutLine_line hi hraw hprev
  have hend := cutLine_end st.hdr i
  rw [parseHdrAt,if_neg (by simpa using hlf),if_neg (by simpa using hnext)]
  dsimp only
  by_cases hcolon : 58 ∈ line
  · obtain ⟨name,rest,rfl,hname⟩ := List.eq_append_cons_of_mem hcolon
    rw [cutCr_colon] at hcut
    have hlen : (name ++ 58 :: rest).length = (name ++ 58 :: cutCr rest).length := by simp [cutCr_length]
    rw [hlen] at hi hcut
    obtain ⟨hfront,hback⟩ := Buffer.slice_eq_append.mp hcut
    have hat : cutLine st.hdr i (st.start + name.length) = 58 := Buffer.slice_getElem hback (j := 0) (by simp)
    have hscan : scan (fun c => c ≠ 58 && c ≠ 0) (cutLine st.hdr i) st.start (i - st.start) =
        st.start + name.length := by
      rw [List.length_append] at hi
      refine scan_eq (by omega) (by omega) (fun k hk hlt => ?_) (by rw [hat]; rfl)
      have hmem := Buffer.mem_of_slice hfront hk hlt
      have h58 : cutLine st.hdr i k ≠ 58 := fun h => hname (h ▸ hmem)
      have h0 : cutLine st.hdr i k ≠ 0 := fun h => hfree (h ▸ List.mem_append_left _ hmem)
      simp [h58,h0]
    rw [hscan,if_neg (by rw [hat]; decide)]
    obtain ⟨hline,hother⟩ := @insertLine_line ⟨cutLine st.hdr i,st.start,st.hdrs⟩ i name (cutCr rest) hcut hi hend
    obtain ⟨v,hv,hvalue⟩ := insertLine_hdrs ⟨cutLine st.hdr i,st.start,st.hdrs⟩ (i := i) hfront
    obtain ⟨hparsed,hrest,hcut'⟩ := line_parts hname rest
    refine ⟨rfl,?_,fun j hj => (hother j hj).trans (hsame j hj),fun k => ?_⟩
    · rw [hcut',hlen]
      exact hline
    · have htail : (insertLine ⟨cutLine st.hdr i,st.start,st.hdrs⟩ i (st.start + name.length)).hdr.slice
          (st.start + name.length + 1) (i - (st.start + name.length + 1)) = cutCr rest := by
        rw [show 58 :: cutCr rest = [58] ++ cutCr rest from rfl] at hback
        have hcount : i - (st.start + name.length + 1) = (cutCr rest).length := by
          rw [hi,List.length_append,List.length_cons]
          omega
        rw [hcount]
        refine (Buffer.slice_congr fun j _ => ?_).trans (Buffer.slice_eq_append.mp hback).2
        exact insertLine_after ⟨cutLine st.hdr i,st.start,st.hdrs⟩ (Nat.le_add_right _ _) (by omega)
      rw [scan_eq_takeWhile,htail] at hvalue
      dsimp only at hvalue
      have hoff : v + 1 = st.start + valueOffset (name ++ 58 :: rest) := by
        rw [hvalue,valueOffset,takeWhile_colon hname,hrest]
        omega
      rw [hv,Table.get_insert,hparsed,hoff]
      simp only [Option.some.injEq,eq_comm]
  · have hnone : ∀ j, st.start ≤ j → j ≤ i → cutLine st.hdr i j ≠ 58 := by
      intro j hj hle h
      rcases Nat.lt_or_eq_of_le hle with hlt | rfl
      · have hmem := Buffer.mem_of_slice (s := cutCr line) (by rw [cutCr_length]; exact hcut) hj
            (by rw [cutCr_length]; omega)
        rw [h] at hmem
        exact hcolon ((mem_cutCr hmem).resolve_right (by decide))
      · rw [hend] at h
        exact absurd h (by decide)
    have hname : lineName line = none := if_neg hcolon
    have hp := scan_le_add (p := fun c => c ≠ 58 && c ≠ 0) (f := cutLine st.hdr i) st.start (i - st.start)
    rw [if_pos (hnone _ (le_scan _ _) (by omega)),hname,cutHeader,hname]
    refine ⟨rfl,?_,hsame,fun k => by simp⟩
    rw [Buffer.slice_add,hcut,← hi]
    simp [Buffer.slice,hend]

/-- The loop of http_parse_hdr over the rest of a text, `line` being the line it stands in. -/
private theorem parse_text {t : List UInt8} (hraw : st.hdr.slice st.start (line ++ t).length = line ++ t)
    (hfree : 0 ∉ line ++ t) (hprev : 0 < st.start → st.hdr (st.start - 1) ≠ 13) :
    let st' := (List.range' (st.start + line.length) t.length).foldl parseHdrAt st
    let r := hdrLines (st.hdr (st.start + (line ++ t).length)) line t
    st'.hdr.slice st.start (line ++ t).length = parsedText r ∧
      (∀ j, j < st.start ∨ st.start + (line ++ t).length ≤ j → st'.hdr j = st.hdr j) ∧
      ∀ k, st'.hdrs.get k = (st.hdrs.get k).or (fieldAt k st.start r.1) := by
  induction t generalizing st line with
  | nil =>
    rw [List.append_nil] at hraw
    simpa [hdrLines,parsedText,fieldAt] using hraw
  | cons c t ih =>
    obtain ⟨hline,hrest⟩ := Buffer.slice_eq_append.mp hraw
    have hc : st.hdr (st.start + line.length) = c := Buffer.slice_getElem hrest (j := 0) (by simp)
    have hlen : (line ++ c :: t).length = line.length + 1 + t.length := by
      rw [List.length_append,List.length_cons]
      omega
    have hnext : t.headD (st.hdr (st.start + (line ++ c :: t).length)) = st.hdr (st.start + line.length + 1) := by
      cases t with
      | nil =>
        rw [hlen]
        rfl
      | cons d t => exact (Buffer.slice_getElem hrest (j := 1) (by simp)).symm
    rw [List.length_cons,List.range'_succ,List.foldl_cons,hdrLines,hnext]
    dsimp only
    by_cases hends : c = 10 ∧ isspace (st.hdr (st.start + line.length + 1)) = false
    · rw [if_pos hends]
      obtain ⟨hstart,htext,hsame,hget⟩ := parse_ended rfl hline (fun h => hfree (List.mem_append_left _ h)) hprev
        (hc.trans hends.1) hends.2
      generalize parseHdrAt st (st.start + line.length) = st₁ at hstart htext hsame hget ⊢
      rw [show c :: t = [c] ++ t from rfl] at hrest
      have hraw₁ : st₁.hdr.slice st₁.start ([] ++ t).length = [] ++ t := by
        rw [hstart]
        exact (Buffer.slice_congr fun j _ => hsame _ (.inr (by omega))).trans (Buffer.slice_eq_append.mp hrest).2
      have hprev₁ : 0 < st₁.start → st₁.hdr (st₁.start - 1) ≠ 13 := by
        intro _
        have hlast : st₁.hdr (st.start + line.length) = 0 := by
          have hone := (Buffer.slice_eq_append (s := cutHeader line) (t := [0])).mp
            (by rw [List.length_append,cutHeader_length]; exact htext)
          rw [cutHeader_length] at hone
          exact Buffer.slice_getElem hone.2 (j := 0) (by decide)
        rw [hstart,Nat.add_sub_cancel,hlast]
        decide
      obtain ⟨htext₁,hsame₁,hget₁⟩ := ih hraw₁ (fun h => hfree (by simp at h; simp [h])) hprev₁
      have hat : st₁.hdr (st₁.start + ([] ++ t).length) = st.hdr (st.start + (line ++ c :: t).length) := by
        rw [hsame _ (.inr (by rw [hstart]; omega)),hstart,hlen,List.nil_append]
        exact congrArg st.hdr (by omega)
      rw [hat] at htext₁ hget₁
      simp only [List.nil_append,List.length_nil,Nat.add_zero,hstart] at htext₁ hsame₁ hget₁
      generalize hdrLines _ [] t = r at htext₁ hget₁ ⊢
      generalize (List.range' (st.start + line.length + 1) t.length).foldl parseHdrAt st₁ = st' at *
      rw [hlen]
      refine ⟨?_,fun j hj => (hsame₁ j (by omega)).trans (hsame j (by omega)),fun k => ?_⟩
      · rw [Buffer.slice_add,parsedText,List.flatMap_cons,List.append_assoc,← Nat.add_assoc,htext₁]
        refine congrArg (· ++ parsedText r) ?_
        exact (Buffer.slice_congr fun j hj => hsame₁ _ (.inl (by omega))).trans htext
      · rw [hget₁,hget,Option.or_assoc,fieldAt]
        refine congrArg _ ?_
        split
        · rfl
        · rfl
    · rw [if_neg hends]
      have hquiet : parseHdrAt st (st.start + line.length) = st := by
        rw [parseHdrAt,hc]
        by_cases h10 : c = 10
        · rw [if_neg (by simpa using h10),if_pos (by simpa [h10] using hends)]
        · rw [if_pos h10]
      have happ : line ++ c :: t = (line ++ [c]) ++ t := by simp
      rw [happ] at hraw hfree ⊢
      have hlater := ih hraw hfree hprev
      rw [List.length_append,List.length_singleton,← Nat.add_assoc] at hlater
      rw [hquiet]
      exact hlater

end Lines

section Fields

private theorem le_fieldAt {k : List UInt8} {off p : Nat} {lines : List (List UInt8)}
    (h : fieldAt k off lines = some p) : off ≤ p := by
  induction lines generalizing off with
  | nil => cases h
  | cons line lines ih =>
    rw [fieldAt] at h
    split at h
    · cases h
      exact Nat.le_add_right _ _
    · have := ih h
      omega

private theorem fieldAt_isSome (k : List UInt8) (off : Nat) (lines : List (List UInt8)) :
    (fieldAt k off lines).isSome = lines.any fun line => lineName line = some k := by
  induction lines generalizing off with
  | nil => rfl
  | cons line lines ih =>
    rw [fieldAt,List.any_cons,← ih (off + line.length + 1)]
    split
    · rename_i h
      simp [h]
    · rename_i h
      simp [h]

/-- What an accepted request line sets; the byte in front of the headers is NUL then. -/
private theorem httpParseReqLine_sets {cli cli₁ : HttpCli} (h : httpParseReqLine cli = (none,cli₁)) :
    cli₁.hdr (cli₁.hdrStart - 1) = 0 ∧ cli₁.chunked = cli.chunked ∧ cli₁.cntLen = cli.cntLen ∧
      cli₁.nolen = cli.nolen ∧ cli₁.method = methodNamed cli.block := by
  simp only [httpParseReqLine,httpParseUri] at h
  split at h
  · cases h
  rename_i hlen
  rw [httpMethodOf_named cli.hdr (Nat.not_lt.mp hlen),← HttpCli.block] at h
  split at h
  · cases h
  rename_i hmethod
  split at h
  · cases h
  split at h
  · cases h
  split at h
  · cases h
  split at h
  · cases h
  split at h
  · cases h
  · cases h
    obtain ⟨w,hw,hpair⟩ := Option.map_eq_some_iff.mp hmethod
    exact ⟨Function.update_self _ _ _,rfl,rfl,rfl,(congrArg some (congrArg Prod.fst hpair).symm).trans hw.symm⟩

private theorem parseHost_sets (cli : HttpCli) : (parseHost cli).2.chunked = cli.chunked ∧
    (parseHost cli).2.cntLen = cli.cntLen ∧ (parseHost cli).2.nolen = cli.nolen ∧
    (parseHost cli).2.method = cli.method := by
  unfold parseHost
  split
  · exact ⟨rfl,rfl,rfl,rfl⟩
  split
  · exact ⟨rfl,rfl,rfl,rfl⟩
  split
  · exact ⟨rfl,rfl,rfl,rfl⟩
  · exact ⟨rfl,rfl,rfl,rfl⟩

variable {cli cli₁ : HttpCli}

/-- The header table is that of the lines of the block, and the block is left as the lines are parsed. -/
private theorem httpParseHdr_lines (h : httpParseReqLine cli = (none,cli₁)) (hfree : 0 ∉ cli.block)
    (hnone : cli.hdrs = []) :
    let r := hdrLines (cli.hdr cli.hdrLen) [] (cli.block.drop cli₁.hdrStart)
    cli₁.hdrStart ≤ cli.hdrLen ∧
      (httpParseHdr cli₁).hdr.slice cli₁.hdrStart (cli.hdrLen - cli₁.hdrStart) = parsedText r ∧
      (∀ j, cli.hdrLen ≤ j → (httpParseHdr cli₁).hdr j = cli.hdr j) ∧
      ∀ k, (httpParseHdr cli₁).hdrs.get k = fieldAt k cli₁.hdrStart r.1 := by
  obtain ⟨hlen,hhdrs,hsame⟩ := httpParseReqLine_ok h
  obtain ⟨_,_,_,hline,-⟩ := httpParseReqLine_accepted h
  have hle := hline.inside.le
  have hrest : cli.block.drop cli₁.hdrStart = cli₁.hdr.slice cli₁.hdrStart (cli.hdrLen - cli₁.hdrStart) := by
    rw [HttpCli.block,Buffer.drop_slice cli.hdr 0 hle,Nat.zero_add]
    exact (Buffer.slice_congr fun j _ => hsame _ (Nat.le_add_right _ _)).symm
  have hcount : (cli.block.drop cli₁.hdrStart).length = cli.hdrLen - cli₁.hdrStart := by
    rw [hrest,Buffer.length_slice]
  have hsum : cli₁.hdrStart + (cli.hdrLen - cli₁.hdrStart) = cli.hdrLen := by omega
  have hparse := @parse_text ⟨cli₁.hdr,cli₁.hdrStart,cli₁.hdrs⟩ [] (cli.block.drop cli₁.hdrStart)
    (by rw [List.nil_append,hcount,hrest]) (fun hmem => hfree (List.mem_of_mem_drop hmem))
    (fun _ => by dsimp only; rw [(httpParseReqLine_sets h).1]; decide)
  simp only [List.nil_append,List.length_nil,Nat.add_zero,hcount,hsum,hhdrs,hnone,hsame _ hle] at hparse
  obtain ⟨htext,hafter,hget⟩ := hparse
  rw [httpParseHdr,hlen,hhdrs,hnone]
  refine ⟨hle,htext,fun j hj => (hafter j (.inr hj)).trans (hsame j (hle.trans hj)),fun k => ?_⟩
  exact (hget k).trans (Option.none_or)

theorem requestLineEnd_ok (h : httpParseReqLine cli = (none,cli₁)) :
    requestLineEnd cli.block = some cli₁.hdrStart := by
  have hend := httpParseReqLine_end cli
  rw [h] at hend
  exact hend.symm

/-- A header the parser finds is one that the request sends. -/
theorem httpParseHdr_sends (h : httpParseReqLine cli = (none,cli₁)) (hfree : 0 ∉ cli.block) (hnone : cli.hdrs = [])
    (name : List UInt8) :
    ((httpParseHdr cli₁).hdrs.get name).isSome = sendsHeader name cli.block (cli.hdr cli.hdrLen) := by
  obtain ⟨-,-,-,hget⟩ := httpParseHdr_lines h hfree hnone
  rw [hget,fieldAt_isSome,sendsHeader,requestLineEnd_ok h,decide_eq_true hfree,Bool.true_and]

/-- What follows the header block in the buffer. -/
def HttpCli.following (cli : HttpCli) : List UInt8 := cli.hdr.slice cli.hdrLen (httpMaxHdrLen - cli.hdrLen)

/-- The length the parser reads is the one that the bytes of the request give. -/
theorem httpParseHdr_length (h : httpParseReqLine cli = (none,cli₁)) (hfree : 0 ∉ cli.block) (hnone : cli.hdrs = [])
    (hfits : cli.hdrLen ≤ httpMaxHdrLen) :
    (((httpParseHdr cli₁).getHdr contentLength).map fun v => wrapU64 (strtol v)).getD 0 =
      lengthRead cli.block (cli.hdr cli.hdrLen) cli.following := by
  obtain ⟨hle,htext,hafter,hget⟩ := httpParseHdr_lines h hfree hnone
  rw [lengthRead,requestLineEnd_ok h,HttpCli.getHdr,hget]
  dsimp only
  cases hfield : fieldAt contentLength cli₁.hdrStart
      (hdrLines (cli.hdr cli.hdrLen) [] (cli.block.drop cli₁.hdrStart)).1 with
  | none => rfl
  | some p =>
    have hp := le_fieldAt hfield
    have hfollow : (httpParseHdr cli₁).hdr.slice cli.hdrLen (httpMaxHdrLen - cli.hdrLen) = cli.following :=
      Buffer.slice_congr fun j _ => hafter _ (Nat.le_add_right _ _)
    have hwhole : (httpParseHdr cli₁).hdr.slice cli₁.hdrStart (httpMaxHdrLen - cli₁.hdrStart) =
        parsedText (hdrLines (cli.hdr cli.hdrLen) [] (cli.block.drop cli₁.hdrStart)) ++ cli.following := by
      rw [show httpMaxHdrLen - cli₁.hdrStart = (cli.hdrLen - cli₁.hdrStart) + (httpMaxHdrLen - cli.hdrLen) by omega,
        Buffer.slice_add,htext,show cli₁.hdrStart + (cli.hdrLen - cli₁.hdrStart) = cli.hdrLen by omega,hfollow]
    have hfront : (cli.block.take cli₁.hdrStart).length = cli₁.hdrStart := by
      rw [List.length_take,HttpCli.block,Buffer.length_slice,min_eq_left hle]
    have hvalue : (httpParseHdr cli₁).hdr.slice p (httpMaxHdrLen - p) = (cli.block.take cli₁.hdrStart ++
        (parsedText (hdrLines (cli.hdr cli.hdrLen) [] (cli.block.drop cli₁.hdrStart)) ++ cli.following)).drop p := by
      rw [← hwhole,List.drop_append,hfront,List.drop_eq_nil_iff.mpr (by rw [hfront]; exact hp),List.nil_append]
      by_cases hin : p ≤ httpMaxHdrLen
      · rw [Buffer.drop_slice _ _ (by omega)]
        congr 1 <;> omega
      · rw [List.drop_eq_nil_iff.mpr (by rw [Buffer.length_slice]; omega),Nat.sub_eq_zero_of_le (by omega)]
        rfl
    show wrapU64 (strtol (cString ((httpParseHdr cli₁).hdr.slice p (httpMaxHdrLen - p)))) = _
    rw [hvalue]

/-- What an accepted header says about the body that follows it. -/
theorem httpParseReqHdr_framing (h : httpParseReqHdr cli = (none,cli₁)) (hnone : cli.hdrs = []) (hzero : cli.cntLen = 0)
    (hfits : cli.hdrLen ≤ httpMaxHdrLen) :
    cli₁.chunked = (cli.chunked || sendsHeader transferEncoding cli.block (cli.hdr cli.hdrLen)) ∧
      cli₁.cntLen = lengthRead cli.block (cli.hdr cli.hdrLen) cli.following ∧ cli₁.nolen = cli.nolen ∧
      cli₁.method = methodNamed cli.block := by
  rw [httpParseReqHdr] at h
  split at h
  · cases h
  rename_i hfree
  split at h
  · cases h
  rename_i cli₂ hline
  obtain ⟨-,hchunked,hcnt,hnolen,hmethod⟩ := httpParseReqLine_sets hline
  obtain ⟨h₁,h₂,h₃,h₄⟩ := parseHost_sets (parseFraming (httpParseHdr cli₂))
  rw [h] at h₁ h₂ h₃ h₄
  refine ⟨h₁.trans ?_,h₂.trans ?_,h₃.trans hnolen,h₄.trans hmethod⟩
  · rw [← httpParseHdr_sends hline hfree hnone,← hchunked]
    rfl
  · rw [← httpParseHdr_length hline hfree hnone hfits,← hzero,← hcnt]
    rfl

end Fields

section Sent
variable {next : UInt8} {h : Header} {hs hs' : List Header}

/-- No line ends where there is no LF. -/
private theorem hdrLines_quiet {s : List UInt8} (hs : 10 ∉ s) (line t : List UInt8) :
    hdrLines next line (s ++ t) = hdrLines next (line ++ s) t := by
  induction s generalizing line with
  | nil => rw [List.nil_append,List.append_nil]
  | cons c s ih =>
    rw [List.mem_cons,not_or] at hs
    rw [List.cons_append,hdrLines,if_neg (fun h => hs.1 h.1.symm),ih hs.2,List.append_assoc]
    rfl

/-- A line is closed by its LF where no whitespace follows, and goes on where some does. -/
private theorem hdrLines_lf {s : List UInt8} (hs : 10 ∉ s) (line t : List UInt8) :
    hdrLines next line (s ++ 10 :: t) =
      if isspace (t.headD next) then hdrLines next (line ++ s ++ [10]) t
      else ((line ++ s) :: (hdrLines next [] t).1,(hdrLines next [] t).2) := by
  rw [hdrLines_quiet hs,hdrLines]
  cases isspace (t.headD next)
  · rw [if_pos ⟨rfl,rfl⟩]
    rfl
  · rw [if_neg (by simp)]
    rfl

/-- The line of a header that another one follows. -/
private def closedLine (h : Header) : List UInt8 := h.text ++ [13]

private theorem closedLine_noLf (hw : h.Wf) : 10 ∉ closedLine h := by
  rw [closedLine,List.mem_append,not_or]
  exact ⟨fun hc => (hw.text 10 hc).2.1 rfl,by decide⟩

private theorem lines_head (hw : ∀ x ∈ hs, x.Wf) {t : List UInt8} (ht : isspace (t.headD next) = false) :
    isspace ((hs.flatMap Header.line ++ t).headD next) = false := by
  cases hs with
  | nil => exact ht
  | cons x hs =>
    rw [List.flatMap_cons,Header.line,List.append_assoc,List.append_assoc]
    exact (hw x List.mem_cons_self).first _ _

/-- Headers that another one follows have a line each. -/
private theorem hdrLines_headers (hw : ∀ x ∈ hs, x.Wf) {t : List UInt8} (ht : isspace (t.headD next) = false) :
    hdrLines next [] (hs.flatMap Header.line ++ t) =
      (hs.map closedLine ++ (hdrLines next [] t).1,(hdrLines next [] t).2) := by
  induction hs with
  | nil => rfl
  | cons x hs ih =>
    have hw' : ∀ y ∈ hs, y.Wf := fun y hy => hw y (List.mem_cons_of_mem x hy)
    have hshape : (x :: hs).flatMap Header.line ++ t = closedLine x ++ 10 :: (hs.flatMap Header.line ++ t) := by
      simp [Header.line,closedLine]
    rw [hshape,hdrLines_lf (closedLine_noLf (hw x List.mem_cons_self)),lines_head hw' ht,ih hw']
    rfl

/-- The last header goes on up to the empty line, and is not closed where whitespace follows that one. -/
private theorem hdrLines_last (hw : h.Wf) : hdrLines next [] (h.line ++ [13,10]) =
    if isspace next then ([],h.line ++ [13,10]) else ([h.line ++ [13]],[]) := by
  have hshape : h.line ++ [13,10] = closedLine h ++ 10 :: ([13] ++ 10 :: []) := by simp [Header.line,closedLine]
  have hline : closedLine h ++ [10] = h.line := by simp [Header.line,closedLine]
  rw [hshape,hdrLines_lf (closedLine_noLf hw),if_pos (by rfl),hdrLines_lf (by decide),List.nil_append,hline,← hshape]
  rw [List.headD_nil]
  split
  · simp [hdrLines]
  · rfl

/-- What follows a header's text in its line: the CR, and for the last header the LF and the CR of the empty line. -/
private def lineEnd : List Header → List UInt8
  | [] => [13,10]
  | _ :: _ => []

/-- The lines of a block in front of one of its headers, and that header's own line if it is closed. -/
private theorem hdrLines_block (hw : ∀ x ∈ hs ++ h :: hs', x.Wf) :
    if hs' = [] ∧ isspace next = true then
      (hdrLines next [] ([13,10] ++ (hs ++ h :: hs').flatMap Header.line ++ [13,10])).1 = [13] :: hs.map closedLine
    else ∃ lines t, hdrLines next [] ([13,10] ++ (hs ++ h :: hs').flatMap Header.line ++ [13,10]) =
      (([13] :: hs.map closedLine) ++ (h.text ++ (lineEnd hs' ++ [13])) :: lines,t) := by
  have hwh : h.Wf := hw h (by simp)
  have hws : ∀ x ∈ hs, x.Wf := fun x hx => hw x (by simp [hx])
  have hws' : ∀ x ∈ hs', x.Wf := fun x hx => hw x (by simp [hx])
  have hshape : [13,10] ++ (hs ++ h :: hs').flatMap Header.line ++ [13,10] =
      [13] ++ 10 :: (hs.flatMap Header.line ++ (h.line ++ (hs'.flatMap Header.line ++ [13,10]))) := by simp
  have hhead : isspace ((h.line ++ (hs'.flatMap Header.line ++ [13,10])).headD next) = false := by
    rw [Header.line,List.append_assoc]
    exact hwh.first _ _
  rw [hshape,hdrLines_lf (by decide),lines_head hws hhead,hdrLines_headers hws hhead]
  rcases List.eq_nil_or_concat hs' with rfl | ⟨init,x,rfl⟩
  · simp only [List.flatMap_nil,List.nil_append,hdrLines_last hwh]
    cases isspace next
    · rw [if_neg (by simp)]
      exact ⟨[],[],by simp [Header.line,lineEnd]⟩
    · rw [if_pos (by simp)]
      simp
  · rw [List.concat_eq_append] at hws' ⊢
    rw [if_neg (by simp)]
    have hx : x.Wf := hws' x (by simp)
    have hxhead : isspace ((x.line ++ [13,10]).headD next) = false := by
      rw [Header.line,List.append_assoc]
      exact hx.first _ _
    have hinit : ∀ y ∈ h :: init, y.Wf := by
      intro y hy
      rcases List.mem_cons.mp hy with rfl | hy
      · exact hwh
      · exact hws' y (by simp [hy])
    have hrest : h.line ++ ((init ++ [x]).flatMap Header.line ++ [13,10]) =
        (h :: init).flatMap Header.line ++ (x.line ++ [13,10]) := by simp
    have hend : lineEnd (init ++ [x]) = [] := by cases init <;> rfl
    rw [hrest,hdrLines_headers hinit hxhead,hend]
    exact ⟨init.map closedLine ++ (hdrLines next [] (x.line ++ [13,10])).1,(hdrLines next [] (x.line ++ [13,10])).2,
      by simp [closedLine]⟩

/-- A field is behind the text of the lines that do not name it. -/
private theorem fieldAt_append {k : List UInt8} (off : Nat) {lines : List (List UInt8)}
    (hlines : ∀ l ∈ lines, lineName l ≠ some k) (lines' : List (List UInt8)) :
    fieldAt k off (lines ++ lines') = fieldAt k (off + (lines.flatMap fun l => cutHeader l ++ [0]).length) lines' := by
  induction lines generalizing off with
  | nil => rfl
  | cons l lines ih =>
    rw [List.cons_append,fieldAt,if_neg (hlines l List.mem_cons_self),
      ih _ fun x hx => hlines x (List.mem_cons_of_mem l hx),
      List.flatMap_cons,List.length_append,List.length_append,cutHeader_length,List.length_singleton]
    congr 1
    omega

private theorem lineName_text (hw : h.Wf) (t : List UInt8) : lineName (h.text ++ t) = some (h.name.map tolower) := by
  rw [Header.text,List.append_assoc,List.cons_append]
  exact (line_parts (fun hc => (hw.name 58 hc).1 rfl) _).1

/-- Where the value of a line that ends with a CR is read from. -/
private theorem drop_value {name : List UInt8} (hname : 58 ∉ name) (v rest : List UInt8) :
    (cutHeader (name ++ 58 :: (v ++ [13])) ++ 0 :: rest).drop (valueOffset (name ++ 58 :: (v ++ [13]))) =
      (v ++ 0 :: 0 :: rest).drop (((v ++ [0]).takeWhile fun c => c ≠ 0 && !isspace c).length + 1) := by
  obtain ⟨-,hrest,hcut⟩ := line_parts hname (v ++ [13])
  have hlow : name.length = (name.map tolower).length := (List.length_map _).symm
  have htext : name.map tolower ++ 0 :: (v ++ [0]) ++ 0 :: rest = name.map tolower ++
      ([0] ++ (v ++ 0 :: 0 :: rest)) := by
    simp
  rw [valueOffset,hrest,hcut,takeWhile_colon hname,cutCr_concat,if_pos rfl,htext,Nat.add_assoc,Nat.add_assoc,hlow,
    ← List.drop_drop,List.drop_left,← List.drop_drop]
  rfl

/-- The number read from a header's line: nothing where no blank stands in front of it. -/
private theorem value_read (hw : h.Wf) {n : Nat} (hvalue : h.value = decimal n) (rest : List UInt8) :
    strtol (cString ((cutHeader (h.text ++ (lineEnd hs' ++ [13])) ++ 0 :: rest).drop
      (valueOffset (h.text ++ (lineEnd hs' ++ [13]))))) = if h.blanks = [] then 0 else min (n : Int) (2^63 - 1) := by
  have hshape : h.text ++ (lineEnd hs' ++ [13]) =
      h.name ++ 58 :: ((h.blanks ++ (decimal n ++ lineEnd hs')) ++ [13]) := by simp [Header.text,hvalue]
  rw [hshape,drop_value fun hc => (hw.name 58 hc).1 rfl]
  have hdigit : ∀ c ∈ decimal n, (decide (c ≠ 0) && !isspace c) = true := by
    intro c hc
    obtain ⟨hspace,hzero⟩ := decimal_plain hc
    simp [hspace,hzero]
  cases hb : h.blanks with
  | nil =>
    have htake : (decimal n ++ lineEnd hs' ++ [0]).takeWhile (fun c => decide (c ≠ 0) && !isspace c) = decimal n := by
      rw [List.append_assoc,List.takeWhile_append_of_pos hdigit]
      cases hs' <;> simp [lineEnd,isspace]
    rw [if_pos rfl,List.nil_append,htake,List.append_assoc,← List.drop_drop,List.drop_left]
    cases hs' <;> rfl
  | cons b bs =>
    have hblank : ∀ c ∈ b :: bs, isspace c = true ∧ c ≠ 0 := by
      intro c hc
      rcases hw.blanks c (hb ▸ hc) with rfl | rfl <;> decide
    have hplain : ∀ c ∈ bs ++ (decimal n ++ lineEnd hs'), decide (c ≠ 0) = true := by
      intro c hc
      rw [List.mem_append,List.mem_append] at hc
      rw [decide_eq_true_eq]
      rcases hc with hc | hc | hc
      · exact (hblank c (List.mem_cons_of_mem b hc)).2
      · exact (decimal_plain hc).2
      · rintro rfl
        cases hs' <;> simp [lineEnd] at hc
    have hstop : ∀ c ∈ (lineEnd hs').head?, isdigit c = false := by
      cases hs' <;> simp [lineEnd,isdigit]
    rw [if_neg (List.cons_ne_nil b bs),List.cons_append,List.cons_append,List.cons_append,
      List.takeWhile_cons_of_neg (by simp [(hblank b List.mem_cons_self).1]),List.length_nil,List.drop_succ_cons,
      List.drop_zero,cString,List.takeWhile_append_of_pos hplain,List.takeWhile_cons_of_neg (by decide),List.append_nil,
      strtol_blanks (fun c hc => (hblank c (List.mem_cons_of_mem b hc)).1),strtol_decimal n hstop]

/-- The number that is read of a Content-Length sent in well-formed header lines: it is lost where no blank stands in
front of it, and in the last header where whitespace follows the block. -/
theorem lengthRead_sent {line : List UInt8} {n : Nat} (behind : List UInt8)
    (hline : requestLineEnd (line ++ ([13,10] ++ (hs ++ h :: hs').flatMap Header.line ++ [13,10])) = some line.length)
    (hw : ∀ x ∈ hs ++ h :: hs', x.Wf) (hfirst : ∀ x ∈ hs, x.name.map tolower ≠ contentLength)
    (hname : h.name.map tolower = contentLength) (hvalue : h.value = decimal n) (hn : n < 2^63) :
    lengthRead (line ++ ([13,10] ++ (hs ++ h :: hs').flatMap Header.line ++ [13,10])) next behind =
      if h.blanks = [] ∨ hs' = [] ∧ isspace next = true then 0 else n := by
  have hwh : h.Wf := hw h (by simp)
  have hbefore : ∀ l ∈ [13] :: hs.map closedLine, lineName l ≠ some contentLength := by
    intro l hl
    rcases List.mem_cons.mp hl with rfl | hl
    · decide
    · obtain ⟨x,hx,rfl⟩ := List.mem_map.mp hl
      rw [closedLine,lineName_text (hw x (by simp [hx]))]
      exact fun heq => hfirst x hx (Option.some.inj heq)
  have hblock := @hdrLines_block next h hs hs' hw
  rw [lengthRead,hline]
  dsimp only
  rw [List.drop_left,List.take_left]
  split at hblock
  · rename_i hlost
    have hnone : fieldAt contentLength line.length ([13] :: hs.map closedLine) = none := by
      rw [← List.append_nil ([13] :: _),fieldAt_append _ hbefore]
      rfl
    rw [hblock,hnone,if_pos (.inr hlost)]
  · rename_i hkept
    obtain ⟨lines,t,hlines⟩ := hblock
    rw [hlines]
    dsimp only
    rw [fieldAt_append _ hbefore,fieldAt,if_pos (by rw [lineName_text hwh,hname])]
    dsimp only
    have htext : line ++ (parsedText (([13] :: hs.map closedLine) ++ (h.text ++ (lineEnd hs' ++ [13])) :: lines,t) ++
        behind) = (line ++ ([13] :: hs.map closedLine).flatMap fun l => cutHeader l ++ [0]) ++
          (cutHeader (h.text ++ (lineEnd hs' ++ [13])) ++ 0 ::
            ((lines.flatMap fun l => cutHeader l ++ [0]) ++ t ++ behind)) := by simp [parsedText]
    rw [htext,← List.length_append,← List.drop_drop,List.drop_left,value_read hwh hvalue]
    by_cases hblank : h.blanks = []
    · rw [if_pos hblank,if_pos (.inl hblank)]
      rfl
    · rw [if_neg hblank,if_neg (not_or.mpr ⟨hblank,hkept⟩),wrapU64]
      omega

end Sent

end Memqueue
