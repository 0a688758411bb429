import Memqueue.Http.Parser

/-! What http_parse_req_line accepts, and that its loops stay in the header block. -/
namespace Memqueue

/-- The method's name as http_parse_req_line compares it. -/
def methodWord : HttpMethod → List UInt8
  | .get => [71,69,84]
  | .put => [80,85,84]
  | .delete => [68,69,76,69,84,69]
  | .post => [80,79,83,84]
  | .head => [72,69,65,68]

/-- HTTP/1.1 and HTTP/1.0. -/
def versionWord (http11 : Bool) : List UInt8 := [72,84,84,80,47,49,46,if http11 then 49 else 48]

/-- The bytes a scanning loop looks at. -/
def scanReads (p : UInt8 → Bool) (hdr : Buffer) (i : Nat) : Nat → List Nat
  | 0 => []
  | n + 1 => i :: if p (hdr i) then scanReads p hdr (i + 1) n else []

/-- The bytes the five loops of http_parse_req_line look at. -/
def reqLineScans (cli : HttpCli) : List Nat :=
  let len := cli.hdrLen
  if len < 7 then []
  else
    match httpMethodOf cli.hdr with
    | none => []
    | some (_,p) =>
      let uriStart := scan isspace cli.hdr p (len - p)
      let reads := scanReads isspace cli.hdr p (len - p)
      if uriStart = len then reads
      else
        let uriEnd := scan (fun c => !isspace c) cli.hdr uriStart (len - uriStart)
        let reads := reads ++ scanReads (fun c => !isspace c) cli.hdr uriStart (len - uriStart)
        if uriEnd = len then reads
        else
          let protoStart := scan isspace cli.hdr uriEnd (len - uriEnd)
          let protoEnd := scan (fun c => c ≠ 10 && c ≠ 13) cli.hdr protoStart (len - protoStart)
          let reads := reads ++ scanReads isspace cli.hdr uriEnd (len - uriEnd) ++
            scanReads (fun c => c ≠ 10 && c ≠ 13) cli.hdr protoStart (len - protoStart)
          if protoEnd = len ∨ protoEnd - protoStart ≠ 8 ∨ httpVersionOf (cli.hdr.slice protoStart 8) = none then reads
          else reads ++ scanReads (· = 0) cli.hdr protoEnd (len - protoEnd)

section Methods
variable {hdr : Buffer}

theorem httpMethodOf_cases {method : HttpMethod} {p : Nat} (h : httpMethodOf hdr = some (method,p)) :
    p = (methodWord method).length ∧ caseEq (methodWord method) (hdr.slice 0 p) = true := by
  unfold httpMethodOf at h
  split at h
  · rename_i hw
    cases h
    exact ⟨rfl,hw⟩
  split at h
  · rename_i hw
    cases h
    exact ⟨rfl,hw⟩
  split at h
  · rename_i hw
    cases h
    exact ⟨rfl,hw⟩
  split at h
  · rename_i hw
    cases h
    exact ⟨rfl,hw⟩
  split at h
  · rename_i hw
    cases h
    exact ⟨rfl,hw⟩
  · cases h

/-- The first two letters tell the methods apart. -/
theorem httpMethodOf_word {method : HttpMethod} {m : List UInt8} (hm : m.map tolower = (methodWord method).map tolower)
    (h : hdr.slice 0 m.length = m) : httpMethodOf hdr = some (method,m.length) := by
  have hlen : m.length = (methodWord method).length := by simpa using congrArg List.length hm
  rw [← h,hlen] at hm
  rw [hlen]
  cases method
  all_goals
    simp [methodWord,Buffer.slice,List.range_succ,tolower] at hm
    simp [httpMethodOf,methodWord,caseEq,Buffer.slice,List.range_succ,tolower,hm]

end Methods

theorem httpVersionOf_word {v : List UInt8} {http11 : Bool} (hv : v.map tolower = (versionWord http11).map tolower) :
    httpVersionOf v = some http11 := by
  have hlen : v.length = 8 := by simpa [versionWord] using congrArg List.length hv
  have htake : v.take 8 = v := List.take_of_length_le hlen.le
  cases http11
  all_goals
    simp [httpVersionOf,caseEq,htake,hv,versionWord,tolower]

theorem httpVersionOf_cases {v : List UInt8} {http11 : Bool} (h : httpVersionOf v = some http11) :
    caseEq (versionWord http11) v = true := by
  unfold httpVersionOf at h
  split at h
  · rename_i hw
    cases h
    exact hw
  split at h
  · rename_i hw
    cases h
    exact hw
  · cases h

section Reads
variable {p : UInt8 → Bool} {f : Buffer}

theorem mem_scanReads {i n k : Nat} (h : k ∈ scanReads p f i n) : i ≤ k ∧ k < i + n := by
  induction n generalizing i with
  | zero => cases h
  | succ n ih =>
    rw [scanReads,List.mem_cons] at h
    rcases h with rfl | h
    · omega
    · split at h
      · have := ih h
        omega
      · cases h

/-- The loops of http_parse_req_line stop at hdr_len. -/
theorem reqLineScans_lt (cli : HttpCli) {k : Nat} (h : k ∈ reqLineScans cli) : k < cli.hdrLen := by
  have hread : ∀ {q : UInt8 → Bool} {i : Nat}, k ∈ scanReads q cli.hdr i (cli.hdrLen - i) → k < cli.hdrLen := by
    intro q i hk
    have := mem_scanReads hk
    omega
  simp only [reqLineScans] at h
  split at h
  · cases h
  split at h
  · cases h
  split at h
  · exact hread h
  split at h
  · rcases List.mem_append.mp h with h | h
    · exact hread h
    · exact hread h
  split at h
  · simp only [List.mem_append] at h
    rcases h with ((h | h) | h) | h
    all_goals exact hread h
  · simp only [List.mem_append] at h
    rcases h with (((h | h) | h) | h) | h
    all_goals exact hread h

end Reads

/-- The parts of a request line, with any letter case and any whitespace between them. -/
structure RequestLine where
  method : HttpMethod
  http11 : Bool
  m : List UInt8
  sp₁ : List UInt8
  u : List UInt8
  sp₂ : List UInt8
  v : List UInt8
  method_eq : m.map tolower = (methodWord method).map tolower
  version_eq : v.map tolower = (versionWord http11).map tolower
  sp₁_ne : sp₁ ≠ []
  sp₁_space : ∀ c ∈ sp₁, isspace c = true
  u_ne : u ≠ []
  u_word : ∀ c ∈ u, isspace c = false
  u_free : 0 ∉ u
  sp₂_ne : sp₂ ≠ []
  sp₂_space : ∀ c ∈ sp₂, isspace c = true

namespace RequestLine

def text (l : RequestLine) : List UInt8 := l.m ++ (l.sp₁ ++ (l.u ++ (l.sp₂ ++ l.v)))

private theorem v_length (l : RequestLine) : l.v.length = 8 := by
  simpa [versionWord] using congrArg List.length l.version_eq

private theorem m_length (l : RequestLine) : 3 ≤ l.m.length := by
  have hlen : l.m.length = (methodWord l.method).length := by simpa using congrArg List.length l.method_eq
  rw [hlen]
  cases l.method
  all_goals decide

private theorem v_word (l : RequestLine) {c : UInt8} (hc : c ∈ l.v) : isspace c = false := by
  have hlower : tolower c ∈ (versionWord l.http11).map tolower := by
    rw [← l.version_eq]
    exact List.mem_map_of_mem hc
  have hword : ∀ d ∈ (versionWord l.http11).map tolower, isspace d = false := by
    cases l.http11
    all_goals decide +kernel
  rw [← Bool.not_eq_true]
  intro hspace
  have hsame : tolower c = c := by
    simp only [isspace,Bool.or_eq_true,Bool.and_eq_true,decide_eq_true_eq] at hspace
    rcases hspace with rfl | ⟨_,h13⟩
    · decide
    · exact if_neg fun h => absurd (UInt8.le_trans h.1 h13) (by decide)
  have hnot := hword _ hlower
  rw [hsame,hspace] at hnot
  cases hnot

end RequestLine

/-- The loop over a part of the text that passes the test, up to a byte that does not. -/
private theorem scan_part {p : UInt8 → Bool} {f : Buffer} {i n : Nat} {s : List UInt8} (h : f.slice i s.length = s)
    (hall : ∀ c ∈ s, p c = true) (hstop : p (f (i + s.length)) = false) (hlen : i + s.length ≤ n) :
    scan p f i (n - i) = i + s.length := by
  refine scan_eq (Nat.le_add_right _ _) (by omega) (fun k hk hlt => ?_) hstop
  exact hall _ (Buffer.mem_of_slice h hk hlt)

/-- Every request line is accepted with its parts. -/
theorem httpParseReqLine_accepts (cli : HttpCli) (l : RequestLine) {c : UInt8} (hc : c = 13 ∨ c = 10)
    (hbuf : cli.hdr.slice 0 (l.text ++ [c]).length = l.text ++ [c]) (hlen : (l.text ++ [c]).length ≤ cli.hdrLen) :
    ∃ cli', httpParseReqLine cli = (none,cli') ∧ cli'.method = some l.method ∧ cli'.uri = some l.u ∧
      cli'.http11 = l.http11 ∧ cli'.hdrStart = l.text.length := by
  obtain ⟨htext,hlast⟩ := Buffer.slice_eq_append.mp hbuf
  have hstop : cli.hdr l.text.length = c := by
    have := Buffer.slice_getElem hlast Nat.one_pos
    simpa using this
  rw [RequestLine.text] at htext
  obtain ⟨hm,htext⟩ := Buffer.slice_eq_append.mp htext
  obtain ⟨hsp₁,htext⟩ := Buffer.slice_eq_append.mp htext
  obtain ⟨hu,htext⟩ := Buffer.slice_eq_append.mp htext
  obtain ⟨hsp₂,hv⟩ := Buffer.slice_eq_append.mp htext
  rw [Nat.zero_add] at hsp₁ hu hsp₂ hv
  have hv8 := l.v_length
  have hm3 := l.m_length
  have hu0 := List.length_pos_iff.mpr l.u_ne
  have hsp₂0 := List.length_pos_iff.mpr l.sp₂_ne
  have htotal : l.text.length = l.m.length + l.sp₁.length + l.u.length + l.sp₂.length + 8 := by
    simp only [RequestLine.text,List.length_append,hv8]
    omega
  rw [List.length_append,List.length_singleton] at hlen
  have hscan₁ := scan_part (n := cli.hdrLen) hsp₁ l.sp₁_space
    (l.u_word _ (Buffer.mem_of_slice hu le_rfl (by omega))) (by omega)
  have hscan₂ := scan_part (p := fun c => !isspace c) (n := cli.hdrLen) hu (fun c hc => by rw [l.u_word c hc]; rfl)
    (by rw [l.sp₂_space _ (Buffer.mem_of_slice hsp₂ le_rfl (by omega))]; rfl) (by omega)
  have hscan₃ := scan_part (n := cli.hdrLen) hsp₂ l.sp₂_space
    (l.v_word (Buffer.mem_of_slice hv le_rfl (by omega))) (by omega)
  have hscan₄ := scan_part (p := fun c => c ≠ 10 && c ≠ 13) (n := cli.hdrLen) hv
    (fun d hd => by
      have h10 : d ≠ 10 := by
        rintro rfl
        exact absurd (l.v_word hd) (by decide)
      have h13 : d ≠ 13 := by
        rintro rfl
        exact absurd (l.v_word hd) (by decide)
      simp [h10,h13])
    (by
      rw [hv8,← htotal,hstop]
      rcases hc with rfl | rfl
      all_goals decide) (by omega)
  have huri : cString l.u = l.u := by
    refine List.takeWhile_eq_self_iff.mpr fun d hd => decide_eq_true ?_
    rintro rfl
    exact l.u_free hd
  rw [hv8] at hv hscan₄
  simp only [httpParseReqLine,httpMethodOf_word l.method_eq hm,httpParseUri,hscan₁,hscan₂,hscan₃,hscan₄]
  rw [if_neg (by omega),if_neg (by omega),if_neg (by omega),if_neg (by omega),if_neg (by omega),hv,
    httpVersionOf_word l.version_eq,Nat.add_sub_cancel_left,hu,huri]
  exact ⟨_,rfl,rfl,rfl,rfl,htotal.symm⟩

/-- What is behind a request that is accepted: the parts of its line, where they stand. -/
structure AcceptedLine (cli cli' : HttpCli) (w : HttpMethod) (s : Nat) (u : List UInt8) : Prop where
  method : cli'.method = some w
  word : caseEq (methodWord w) (cli.hdr.slice 0 (methodWord w).length) = true
  uri : cli'.uri = some u
  place : cli.hdr.slice s u.length = u
  after : (methodWord w).length ≤ s
  before : s + u.length + 8 < cli'.hdrStart
  inside : cli'.hdrStart < cli.hdrLen
  version : caseEq (versionWord cli'.http11) (cli.hdr.slice (cli'.hdrStart - 8) 8) = true
  no_space : ∀ c ∈ u, isspace c = false

theorem httpParseReqLine_accepted {cli cli' : HttpCli} (h : httpParseReqLine cli = (none,cli')) :
    ∃ w s u, AcceptedLine cli cli' w s u ∧ (0 ∉ cli.block → u ≠ []) := by
  simp only [httpParseReqLine] at h
  split at h
  · cases h
  rename_i hlen
  split at h
  · cases h
  rename_i w p hmethod
  obtain ⟨rfl,hword⟩ := httpMethodOf_cases hmethod
  have hp : (methodWord w).length ≤ 6 := by
    cases w
    all_goals decide
  simp only [httpParseUri] at h
  generalize hs : scan isspace cli.hdr (methodWord w).length (cli.hdrLen - (methodWord w).length) = s at h
  generalize he : scan (fun c => !isspace c) cli.hdr s (cli.hdrLen - s) = e at h
  generalize hq : scan isspace cli.hdr e (cli.hdrLen - e) = q at h
  generalize hr : scan (fun c => c ≠ 10 && c ≠ 13) cli.hdr q (cli.hdrLen - q) = r at h
  split at h
  · cases h
  rename_i hslen
  split at h
  · cases h
  rename_i helen
  split at h
  · cases h
  rename_i hrlen
  split at h
  · cases h
  rename_i h8
  split at h
  · cases h
  rename_i http11 hversion
  cases h
  have hpos : 0 < cli.hdrLen := by omega
  obtain ⟨hws,hslt,hsstop,-⟩ := scan_to (by omega) hs
  obtain ⟨hse,helt,hestop,hepass⟩ := scan_to hslt he
  obtain ⟨heq,hqlt,hqstop,-⟩ := scan_to helt hq
  obtain ⟨hqr,hrlt,-,-⟩ := scan_to hqlt hr
  -- the loops have moved on: the uri is not empty, and whitespace follows it
  have hspace : isspace (cli.hdr e) = true := by simpa using hestop helen
  have hse' : s < e := by
    apply lt_of_le_of_ne hse
    rintro rfl
    rw [hsstop hslen] at hspace
    cases hspace
  have heq' : e < q := by
    apply lt_of_le_of_ne heq
    rintro rfl
    rw [hqstop helen] at hspace
    cases hspace
  have hfront : cString (cli.hdr.slice s (e - s)) <+: cli.hdr.slice s (e - s) := List.takeWhile_prefix _
  have hulen := hfront.length_le
  rw [Buffer.length_slice] at hulen
  have hr8 : r = q + 8 := by omega
  refine ⟨w,s,cString (cli.hdr.slice s (e - s)),⟨rfl,hword,rfl,?_,hws,?_,?_,?_,?_⟩,?_⟩
  · rw [← Buffer.take_slice _ _ hulen,← List.prefix_iff_eq_take.mp hfront]
  · simp only
    omega
  · simp only
    omega
  · simp only [hr8,Nat.add_sub_cancel]
    exact httpVersionOf_cases hversion
  · intro c hc
    obtain ⟨j,hj,rfl⟩ := List.mem_map.mp (hfront.subset hc)
    have hpass := hepass (s + j) (Nat.le_add_right s j) (by have := List.mem_range.mp hj; omega)
    simpa using hpass
  · intro hfree hnil
    have hzero : cli.hdr s = 0 := by
      by_contra hne
      have hhead : cli.hdr.slice s (e - s) = cli.hdr s :: cli.hdr.slice (s + 1) (e - s - 1) := by
        obtain ⟨k,hk⟩ := Nat.exists_eq_add_of_lt hse'
        have hk' : e - s = 1 + k := by omega
        rw [hk',Buffer.slice_add,Nat.add_sub_cancel_left]
        simp [Buffer.slice]
      rw [hhead,cString] at hnil
      simp [hne] at hnil
    refine hfree (List.mem_map.mpr ⟨s,List.mem_range.mpr (by omega),?_⟩)
    rw [Nat.zero_add,hzero]

/-- Parsing of the request line, both ways: a line is accepted with exactly its parts, and what is accepted is
such a line. A uri is empty only where its first byte is a NUL, which http_parse_req_hdr has ruled out. No loop
looks at a byte behind the header block. -/
theorem reqLine_parses (cli : HttpCli) :
    (∀ (l : RequestLine) (c : UInt8), c = 13 ∨ c = 10 → cli.hdr.slice 0 (l.text ++ [c]).length = l.text ++ [c] →
      (l.text ++ [c]).length ≤ cli.hdrLen → ∃ cli', httpParseReqLine cli = (none,cli') ∧
        cli'.method = some l.method ∧ cli'.uri = some l.u ∧ cli'.http11 = l.http11 ∧ cli'.hdrStart = l.text.length) ∧
    (∀ cli', httpParseReqLine cli = (none,cli') →
      ∃ w s u, AcceptedLine cli cli' w s u ∧ (0 ∉ cli.block → u ≠ [])) ∧
    ∀ k ∈ reqLineScans cli, k < cli.hdrLen :=
  ⟨fun l _ hc hbuf hlen => httpParseReqLine_accepts cli l hc hbuf hlen,fun _ h => httpParseReqLine_accepted h,
    fun _ h => reqLineScans_lt cli h⟩

/-- GET /q HTTP/1.0 -/
private def getQ : RequestLine :=
  ⟨.get,false,[71,69,84],[32],[47,113],[32],[72,84,84,80,47,49,46,48],rfl,rfl,by decide,
    by decide +kernel,by decide,by decide +kernel,by decide,by decide,by decide +kernel⟩

/-- That line alone in the buffer: it is accepted with its method, uri and version, and its uri is not empty. -/
theorem reqLine_parses_get :
    let cli : HttpCli := { HttpCli.new with
      hdr := HttpCli.new.hdr.write 0 [71,69,84,32,47,113,32,72,84,84,80,47,49,46,48,13], hdrLen := 16 }
    ∃ cli', httpParseReqLine cli = (none,cli') ∧ cli'.method = some .get ∧ cli'.uri = some [47,113] ∧
      cli'.http11 = false ∧ cli'.hdrStart = 15 ∧ ∃ w s u, AcceptedLine cli cli' w s u ∧ u ≠ [] := by
  intro cli
  obtain ⟨haccepts,haccepted,-⟩ := reqLine_parses cli
  obtain ⟨cli',hparse,hmethod,huri,hversion,hstart⟩ := haccepts getQ 13 (.inl rfl) (by decide +kernel) (by decide)
  obtain ⟨w,s,u,hline,hne⟩ := haccepted cli' hparse
  exact ⟨cli',hparse,hmethod,huri,hversion,hstart,w,s,u,hline,hne (by decide +kernel)⟩

/-- A NUL for a uri: GET, a blank, NUL, a blank and HTTP/1.1. -/
def nulUri : HttpCli :=
  { HttpCli.new with hdr := fun j => [71,69,84,32,0,32,72,84,84,80,47,49,46,49,10].getD j 0, hdrLen := 15 }

theorem uri_may_be_empty : ¬ ∀ cli cli' u, httpParseReqLine cli = (none,cli') → cli'.uri = some u → u ≠ [] := by
  intro h
  have hret : (httpParseReqLine nulUri).1 = none := by decide +kernel
  have huri : (httpParseReqLine nulUri).2.uri = some [] := by decide +kernel
  exact h nulUri (httpParseReqLine nulUri).2 [] (Prod.ext hret rfl) huri rfl

end Memqueue
