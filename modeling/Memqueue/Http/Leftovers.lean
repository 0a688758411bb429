import Memqueue.Http.Body
import Memqueue.Http.Headers
import Memqueue.Http.Bounds

/-! Two connections with different pasts that receive the same request: what the parser can meet of earlier requests. -/
namespace Memqueue

/-- Two connections that hold the same request, in buffers that agree on their first `n` bytes. -/
structure Twin (n : Nat) (a b : HttpCli) : Prop where
  hdr : ∀ j < n, a.hdr j = b.hdr j
  hdrLen : a.hdrLen = b.hdrLen
  cntLen : a.cntLen = b.cntLen
  nolen : a.nolen = b.nolen
  hdrs : a.hdrs = b.hdrs
  uri : a.uri = b.uri
  body : a.body = b.body
  bodyLen : a.bodyLen = b.bodyLen

section Line
variable {n : Nat} {a b : HttpCli}

private theorem Twin.scan (h : Twin n a b) (hn : a.hdrLen ≤ n) (p : UInt8 → Bool) (i : Nat) :
    scan p a.hdr i (a.hdrLen - i) = scan p b.hdr i (a.hdrLen - i) :=
  scan_congr fun k _ hlt => h.hdr k (by omega)

/-- The bytes a scan has passed are inside the header block. -/
private theorem Twin.passed (h : Twin n a b) (hn : a.hdrLen ≤ n) {i j : Nat} (hj : j ≤ i + (a.hdrLen - i)) :
    a.hdr.slice i (j - i) = b.hdr.slice i (j - i) :=
  Buffer.slice_congr fun k hk => h.hdr (i + k) (by omega)

private theorem Twin.update (h : Twin n a b) (i : Nat) (c : UInt8) :
    ∀ j < n, Function.update a.hdr i c j = Function.update b.hdr i c j := by
  intro j hj
  rw [Function.update_apply,Function.update_apply,h.hdr j hj]

private theorem httpParseUri_twin (h : Twin n a b) (hn : a.hdrLen ≤ n) (p : Nat) :
    (httpParseUri a p).1 = (httpParseUri b p).1 ∧ Twin n (httpParseUri a p).2 (httpParseUri b p).2 ∧
      ((httpParseUri a p).1 = none → (httpParseUri a p).2.http11 = (httpParseUri b p).2.http11 ∧
        (httpParseUri a p).2.hdrStart = (httpParseUri b p).2.hdrStart) := by
  have hs := h.scan hn
  simp only [httpParseUri,← h.hdrLen,← hs]
  generalize Memqueue.scan isspace a.hdr p (a.hdrLen - p) = us
  split
  · exact ⟨rfl,h,fun hnone => by cases hnone⟩
  generalize hue : Memqueue.scan (fun c => !isspace c) a.hdr us (a.hdrLen - us) = ue
  split
  · exact ⟨rfl,h,fun hnone => by cases hnone⟩
  rw [← h.passed hn (hue ▸ scan_le_add us _)]
  have huri : Twin n { a with uri := some (cString (a.hdr.slice us (ue - us))) }
      { b with hdrLen := a.hdrLen, uri := some (cString (a.hdr.slice us (ue - us))) } :=
    ⟨h.hdr,rfl,h.cntLen,h.nolen,h.hdrs,rfl,h.body,h.bodyLen⟩
  generalize Memqueue.scan isspace a.hdr ue (a.hdrLen - ue) = ps
  generalize hpe : Memqueue.scan (fun c => c ≠ 10 && c ≠ 13) a.hdr ps (a.hdrLen - ps) = pe
  split
  · exact ⟨rfl,huri,fun hnone => by cases hnone⟩
  split
  · exact ⟨rfl,huri,fun hnone => by cases hnone⟩
  rename_i hlen
  have hproto := h.passed hn (hpe ▸ scan_le_add ps _)
  rw [not_not.mp hlen] at hproto
  rw [← hproto]
  split
  · exact ⟨rfl,huri,fun hnone => by cases hnone⟩
  · exact ⟨rfl,⟨h.update _ _,rfl,h.cntLen,h.nolen,h.hdrs,rfl,h.body,h.bodyLen⟩,fun _ => ⟨rfl,rfl⟩⟩

private theorem httpMethodOf_twin (h : Twin n a b) (hn : 6 ≤ n) : httpMethodOf a.hdr = httpMethodOf b.hdr := by
  have hs : ∀ m ≤ 6, a.hdr.slice 0 m = b.hdr.slice 0 m :=
    fun m hm => Buffer.slice_congr fun j hj => h.hdr (0 + j) (by omega)
  simp only [httpMethodOf,hs 3 (by omega),hs 4 (by omega),hs 6 le_rfl]

theorem httpParseReqLine_twin (h : Twin n a b) (hn : a.hdrLen ≤ n) :
    (httpParseReqLine a).1 = (httpParseReqLine b).1 ∧ Twin n (httpParseReqLine a).2 (httpParseReqLine b).2 ∧
      ((httpParseReqLine a).1 = none → (httpParseReqLine a).2.http11 = (httpParseReqLine b).2.http11 ∧
        (httpParseReqLine a).2.hdrStart = (httpParseReqLine b).2.hdrStart) := by
  have hport : Twin n { a with port := httpDefaultServerPort }
      { b with hdrLen := a.hdrLen, port := httpDefaultServerPort } :=
    ⟨h.hdr,rfl,h.cntLen,h.nolen,h.hdrs,h.uri,h.body,h.bodyLen⟩
  rw [httpParseReqLine,httpParseReqLine]
  dsimp only
  rw [← h.hdrLen]
  split
  · exact ⟨rfl,hport,fun hnone => by cases hnone⟩
  · rw [← httpMethodOf_twin h (by omega)]
    cases httpMethodOf a.hdr with
    | none => exact ⟨rfl,hport,fun hnone => by cases hnone⟩
    | some mp =>
      have hmethod : Twin n { a with port := httpDefaultServerPort, method := some mp.1 }
          { b with hdrLen := a.hdrLen, port := httpDefaultServerPort, method := some mp.1 } :=
        ⟨h.hdr,rfl,h.cntLen,h.nolen,h.hdrs,h.uri,h.body,h.bodyLen⟩
      exact httpParseUri_twin hmethod hn mp.2

private theorem httpParseUri_left (cli : HttpCli) (p : Nat) : (httpParseUri cli p).2.chunked = cli.chunked ∧
    (httpParseUri cli p).2.method = cli.method ∧ (httpParseUri cli p).2.hdrs = cli.hdrs ∧
    ((httpParseUri cli p).1 ≠ none → (httpParseUri cli p).2.http11 = cli.http11) := by
  simp only [httpParseUri]
  split
  · exact ⟨rfl,rfl,rfl,fun _ => rfl⟩
  split
  · exact ⟨rfl,rfl,rfl,fun _ => rfl⟩
  split
  · exact ⟨rfl,rfl,rfl,fun _ => rfl⟩
  split
  · exact ⟨rfl,rfl,rfl,fun _ => rfl⟩
  split
  · exact ⟨rfl,rfl,rfl,fun _ => rfl⟩
  · exact ⟨rfl,rfl,rfl,fun hne => absurd rfl hne⟩

/-- The method the line begins with, if it is one of the five. -/
def lineMethod (cli : HttpCli) : Option HttpMethod :=
  if cli.hdrLen < 7 then none else (httpMethodOf cli.hdr).map Prod.fst

/-- What the request line leaves of earlier requests. -/
theorem httpParseReqLine_left (cli : HttpCli) : (httpParseReqLine cli).2.chunked = cli.chunked ∧
    (httpParseReqLine cli).2.method = (lineMethod cli).or cli.method ∧ (httpParseReqLine cli).2.hdrs = cli.hdrs ∧
    ((httpParseReqLine cli).1 ≠ none → (httpParseReqLine cli).2.http11 = cli.http11) := by
  rw [httpParseReqLine,lineMethod]
  dsimp only
  split
  · exact ⟨rfl,rfl,rfl,fun _ => rfl⟩
  · cases httpMethodOf cli.hdr with
    | none => exact ⟨rfl,rfl,rfl,fun _ => rfl⟩
    | some mp => exact httpParseUri_left _ mp.2

theorem lineMethod_isSome {cli : HttpCli} (h : (httpParseReqLine cli).1 = none) : (lineMethod cli).isSome = true := by
  rw [httpParseReqLine] at h
  rw [lineMethod]
  dsimp only at h
  split at h
  · cases h
  · rename_i hlen
    rw [if_neg hlen]
    cases hm : httpMethodOf cli.hdr with
    | none =>
      rw [hm] at h
      cases h
    | some mp => rfl

theorem lineMethod_twin (h : Twin n a b) (hn : a.hdrLen ≤ n) : lineMethod a = lineMethod b := by
  rw [lineMethod,lineMethod,← h.hdrLen]
  split
  · rfl
  · rw [httpMethodOf_twin h (by omega)]

end Line

/-- The same for the scan of the header lines. -/
structure ScanTwin (n : Nat) (s t : HdrScan) : Prop where
  hdr : ∀ j < n, s.hdr j = t.hdr j
  start : s.start = t.start
  hdrs : s.hdrs = t.hdrs

section Lines
variable {n : Nat} {f g : Buffer}

private theorem update_agree (h : ∀ j < n, f j = g j) (i : Nat) (c : UInt8) :
    ∀ j < n, Function.update f i c j = Function.update g i c j := by
  intro j hj
  rw [Function.update_apply,Function.update_apply,h j hj]

private theorem write_agree (h : ∀ j < n, f j = g j) (off : Nat) (bs : List UInt8) :
    ∀ j < n, f.write off bs j = g.write off bs j := by
  intro j hj
  rw [Buffer.write,Buffer.write,h j hj]

private theorem cutLine_agree (h : ∀ j < n, f j = g j) {i : Nat} (hi : i < n) :
    ∀ j < n, cutLine f i j = cutLine g i j := by
  have hcut := update_agree h i 0
  rw [cutLine,cutLine]
  rw [hcut (i - 1) (by omega)]
  split
  · exact update_agree hcut _ 0
  · exact hcut

variable {s t : HdrScan}

private theorem insertLine_twin (h : ScanTwin n s t) {i p : Nat} (hs : s.start ≤ p) (hp : p ≤ i) (hi : i < n) :
    ScanTwin n (insertLine s i p) (insertLine t i p) := by
  have hcut := update_agree h.hdr p 0
  have hname : Buffer.slice (Function.update s.hdr p 0) s.start (p - s.start) =
      Buffer.slice (Function.update t.hdr p 0) s.start (p - s.start) :=
    Buffer.slice_congr fun j hj => hcut (s.start + j) (by omega)
  have hlow := write_agree hcut s.start
    ((Buffer.slice (Function.update s.hdr p 0) s.start (p - s.start)).map tolower)
  have hkey := fun j (hj : j < p - s.start) => hlow (s.start + j) (by omega)
  have hv := scan_congr (p := fun c => c ≠ 0 && !isspace c) (i := p + 1) (n := i - (p + 1)) fun k _ hlt =>
      hlow k (by omega)
  rw [insertLine,insertLine,← h.start,← h.hdrs,← hname]
  exact ⟨hlow,rfl,by dsimp only; rw [Buffer.slice_congr hkey,hv]⟩

private theorem colon_bounds (s : HdrScan) {i : Nat} (hs : s.start ≤ i) :
    s.start ≤ scan (fun c => c ≠ 58 && c ≠ 0) (cutLine s.hdr i) s.start (i - s.start) ∧
      scan (fun c => c ≠ 58 && c ≠ 0) (cutLine s.hdr i) s.start (i - s.start) ≤ i := by
  have h₁ := le_scan (p := fun c => c ≠ 58 && c ≠ 0) (f := cutLine s.hdr i) s.start (i - s.start)
  have h₂ := scan_le_add (p := fun c => c ≠ 58 && c ≠ 0) (f := cutLine s.hdr i) s.start (i - s.start)
  omega

private theorem parseHdrAt_twin (h : ScanTwin n s t) {i : Nat} (hs : s.start ≤ i) (hi : i < n)
    (hnext : isspace (s.hdr (i + 1)) = isspace (t.hdr (i + 1))) : ScanTwin n (parseHdrAt s i) (parseHdrAt t i) := by
  rw [parseHdrAt,parseHdrAt,← h.hdr i hi,← hnext]
  split
  · exact h
  split
  · exact h
  have hcut := cutLine_agree h.hdr hi
  have hscan := scan_congr (p := fun c => c ≠ 58 && c ≠ 0) (i := s.start) (n := i - s.start) fun k _ hlt =>
      hcut k (by omega)
  dsimp only
  rw [← h.start,← h.hdrs,← hscan]
  have hle := colon_bounds s hs
  generalize scan (fun c => c ≠ 58 && c ≠ 0) (cutLine s.hdr i) s.start (i - s.start) = p at hle ⊢
  rw [← hcut p (by omega)]
  split
  · exact ⟨hcut,rfl,rfl⟩
  · have htwin : ScanTwin n ⟨cutLine s.hdr i,s.start,s.hdrs⟩ ⟨cutLine t.hdr i,s.start,s.hdrs⟩ := ⟨hcut,rfl,rfl⟩
    exact insertLine_twin htwin hle.1 hle.2 hi

/-- A line end changes nothing behind it. -/
private theorem parseHdrAt_after {i j : Nat} (hs : s.start ≤ i) (hj : i < j) : (parseHdrAt s i).hdr j = s.hdr j := by
  rw [parseHdrAt]
  split
  · rfl
  split
  · rfl
  dsimp only
  split
  · exact cutLine_other (by omega) (by omega)
  · have hle := colon_bounds s hs
    exact (insertLine_after ⟨cutLine s.hdr i,s.start,s.hdrs⟩ hle.1 (hle.2.trans_lt hj)).trans
      (cutLine_other (by omega) (by omega))

private theorem parse_twin {b m : Nat} (h : ScanTwin n s t) (hs : s.start ≤ b) (hn : b + m ≤ n)
    (hnext : isspace (s.hdr (b + m)) = isspace (t.hdr (b + m))) :
    ScanTwin n ((List.range' b m).foldl parseHdrAt s) ((List.range' b m).foldl parseHdrAt t) := by
  induction m generalizing b s t with
  | zero => exact h
  | succ m ih =>
    rw [List.range'_succ,List.foldl_cons,List.foldl_cons]
    have hstep : isspace (s.hdr (b + 1)) = isspace (t.hdr (b + 1)) := by
      by_cases hlast : b + 1 < n
      · rw [h.hdr _ hlast]
      · rwa [show b + 1 = b + (m + 1) by omega]
    have hlater := parseHdrAt_twin h hs (by omega) hstep
    apply ih hlater (parseHdrAt_start hs) (by omega)
    rw [parseHdrAt_after hs (by omega),parseHdrAt_after (h.start ▸ hs) (by omega),Nat.add_right_comm b 1 m]
    exact hnext

private theorem parseHdrAt_pointers {i : Nat} (hs : s.start ≤ i) {e : List UInt8 × Nat}
    (he : e ∈ (parseHdrAt s i).hdrs) : e ∈ s.hdrs ∨ e.2 ≤ i + 1 := by
  rw [parseHdrAt] at he
  split at he
  · exact .inl he
  split at he
  · exact .inl he
  dsimp only at he
  split at he
  · exact .inl he
  rename_i hcolon
  have hp := colon_bounds s hs
  generalize scan (fun c => c ≠ 58 && c ≠ 0) (cutLine s.hdr i) s.start (i - s.start) = p at *
  have hne : p ≠ i := by
    rintro rfl
    exact hcolon (by rw [cutLine_end]; decide)
  rw [insertLine] at he
  apply (Table.mem_of_insert he).imp_right
  rintro rfl
  refine Nat.succ_le_succ ((scan_le_add _ _).trans ?_)
  omega

private theorem parse_pointers {b m : Nat} (hs : s.start ≤ b) (he : ∀ e ∈ s.hdrs, e.2 ≤ b) :
    let s' := (List.range' b m).foldl parseHdrAt s
    s'.start ≤ b + m ∧ (∀ e ∈ s'.hdrs, e.2 ≤ b + m) ∧ ∀ j, b + m ≤ j → s'.hdr j = s.hdr j := by
  induction m generalizing b s with
  | zero => exact ⟨hs,he,fun _ _ => rfl⟩
  | succ m ih =>
    rw [List.range'_succ,List.foldl_cons]
    have hstep : ∀ e ∈ (parseHdrAt s b).hdrs, e.2 ≤ b + 1 := by
      intro e hin
      rcases parseHdrAt_pointers hs hin with hold | hnew
      · exact (he e hold).trans (Nat.le_succ b)
      · exact hnew
    obtain ⟨h₁,h₂,h₃⟩ := ih (parseHdrAt_start hs) hstep
    rw [Nat.add_right_comm b 1 m] at h₁ h₂ h₃
    exact ⟨h₁,h₂,fun j hj => (h₃ j hj).trans (parseHdrAt_after hs (by omega))⟩

/-- The last line end closes the block: its byte is NUL afterwards, and no value begins behind it. -/
private theorem parseHdrAt_last {i : Nat} (hs : s.start ≤ i) (hlf : s.hdr i = 10)
    (hnext : isspace (s.hdr (i + 1)) = false)
    (hprev : s.start = i ∨ 1 ≤ i ∧ (s.hdr (i - 1) = 10 ∨ s.hdr (i - 1) = 13)) (he : ∀ e ∈ s.hdrs, e.2 ≤ i) :
    (parseHdrAt s i).hdr i = 0 ∧ ∀ e ∈ (parseHdrAt s i).hdrs, e.2 ≤ i := by
  rw [parseHdrAt,if_neg (by simpa using hlf),if_neg (by simpa using hnext)]
  dsimp only
  split
  · exact ⟨cutLine_end _ _,he⟩
  rename_i hcolon
  have hp := colon_bounds s hs
  generalize scan (fun c => c ≠ 58 && c ≠ 0) (cutLine s.hdr i) s.start (i - s.start) = p at *
  have hcut : ∀ j, cutLine s.hdr i j ≠ 58 → p ≠ j := by
    rintro j hj rfl
    exact hcolon hj
  have hne : p ≠ i := hcut i (by rw [cutLine_end]; decide)
  have hi : 1 ≤ i ∧ (s.hdr (i - 1) = 10 ∨ s.hdr (i - 1) = 13) := hprev.resolve_left (by omega)
  have hbefore : cutLine s.hdr i (i - 1) = 0 ∨ cutLine s.hdr i (i - 1) = 10 := by
    rw [cutLine]
    split
    · exact .inl (Function.update_self _ _ _)
    · rename_i hcr
      rw [Function.update_of_ne (by omega)] at hcr ⊢
      exact .inr (hi.2.resolve_right fun h13 => hcr ⟨by omega,h13⟩)
  have hne' : p ≠ i - 1 := hcut (i - 1) (by rcases hbefore with h | h <;> (rw [h]; decide))
  have hlast : (insertLine ⟨cutLine s.hdr i,s.start,s.hdrs⟩ i p).hdr (i - 1) = cutLine s.hdr i (i - 1) :=
    insertLine_after _ hp.1 (by omega)
  refine ⟨(insertLine_after ⟨cutLine s.hdr i,s.start,s.hdrs⟩ hp.1 (by omega)).trans (cutLine_end _ _),?_⟩
  intro e hin
  rcases Table.mem_of_insert hin with hold | rfl
  · exact he e hold
  · have hv := scan_le (p := fun c => c ≠ 0 && !isspace c) (f := (insertLine ⟨cutLine s.hdr i,s.start,s.hdrs⟩ i p).hdr)
      (i := p + 1) (n := i - (p + 1)) (j := i - 1) (by omega) (by omega)
      (by rw [hlast]; rcases hbefore with h | h <;> (rw [h]; decide))
    show scan _ (insertLine ⟨cutLine s.hdr i,s.start,s.hdrs⟩ i p).hdr (p + 1) (i - (p + 1)) + 1 ≤ i
    omega

/-- A line end in front of another one is passed over. -/
private theorem parseHdrAt_blank {i : Nat} (hi : s.hdr i = 10 ∨ s.hdr i = 13) (hlf : s.hdr (i + 1) = 10) :
    parseHdrAt s i = s := by
  rw [parseHdrAt]
  rcases hi with h | h
  · rw [if_neg (by rw [h]; decide),if_pos (by rw [hlf]; decide)]
  · rw [if_pos (by rw [h]; decide)]

private theorem parse_closed {b m : Nat} (hs : s.start = b) (hnone : s.hdrs = []) (hlf : s.hdr (b + m) = 10)
    (hprev : m = 0 ∨ s.hdr (b + m - 1) = 10 ∨ s.hdr (b + m - 1) = 13) (hnext : isspace (s.hdr (b + m + 1)) = false) :
    let s' := (List.range' b (m + 1)).foldl parseHdrAt s
    s'.hdr (b + m) = 0 ∧ ∀ e ∈ s'.hdrs, e.2 ≤ b + m := by
  rw [List.range'_1_concat,List.foldl_append,List.foldl_cons,List.foldl_nil]
  have hempty : ∀ c, ∀ e ∈ s.hdrs, e.2 ≤ c := by
    intro c e he
    rw [hnone] at he
    cases he
  obtain ⟨hstart,hptrs,hsame⟩ := parse_pointers (m := m) hs.le (hempty b)
  refine parseHdrAt_last hstart (by rw [hsame _ le_rfl,hlf]) (by rw [hsame _ (Nat.le_succ _),hnext]) ?_ hptrs
  cases m with
  | zero => exact .inl hs
  | succ m =>
    obtain ⟨-,-,hsame'⟩ := parse_pointers (m := m) hs.le (hempty b)
    have hprev := hprev.resolve_left (Nat.succ_ne_zero m)
    rw [← Nat.add_assoc,Nat.add_sub_cancel] at hprev
    rw [← Nat.add_assoc] at hlf
    refine .inr ⟨by omega,?_⟩
    rw [List.range'_1_concat,List.foldl_append,List.foldl_cons,List.foldl_nil,← Nat.add_assoc,Nat.add_sub_cancel,
      parseHdrAt_blank (by rwa [hsame' _ le_rfl]) (by rw [hsame' _ (Nat.le_succ _),hlf]),hsame' _ le_rfl]
    exact hprev

end Lines

/-- The header lines are parsed as if nothing followed the block, when no whitespace does. -/
theorem httpParseHdr_closed {cli : HttpCli} (hnone : cli.hdrs = []) (hstart : cli.hdrStart < cli.hdrLen)
    (hlf : cli.hdr (cli.hdrLen - 1) = 10)
    (hprev : cli.hdrStart = cli.hdrLen - 1 ∨ cli.hdr (cli.hdrLen - 2) = 10 ∨ cli.hdr (cli.hdrLen - 2) = 13)
    (hbehind : isspace (cli.hdr cli.hdrLen) = false) :
    (httpParseHdr cli).hdr (cli.hdrLen - 1) = 0 ∧ ∀ e ∈ (httpParseHdr cli).hdrs, e.2 < cli.hdrLen := by
  obtain ⟨m,hm⟩ : ∃ m, cli.hdrLen = cli.hdrStart + m + 1 := ⟨cli.hdrLen - cli.hdrStart - 1,by omega⟩
  have hcount : cli.hdrLen - cli.hdrStart = m + 1 := by omega
  have hlast : cli.hdrLen - 1 = cli.hdrStart + m := by omega
  have hbefore : cli.hdrLen - 2 = cli.hdrStart + m - 1 := by omega
  rw [hlast] at hlf hprev ⊢
  rw [hbefore] at hprev
  rw [hm] at hbehind
  obtain ⟨hnul,hptrs⟩ := @parse_closed ⟨cli.hdr,cli.hdrStart,cli.hdrs⟩ cli.hdrStart m rfl hnone hlf
    (hprev.imp_left (by omega)) hbehind
  rw [httpParseHdr,hcount]
  exact ⟨hnul,fun e he => by have := hptrs e he; omega⟩

section Reception

private theorem strstr_slice {pat c : List UInt8} (hp : pat ≠ []) {f : Buffer} (hf : f.slice 0 c.length = c) {i : Nat}
    (h : strstr pat (cString c) = some i) : f.slice i pat.length = pat := by
  obtain ⟨t,ht⟩ := strstr_spec h
  have hle := strstr_le hp h
  have hc : c = (cString c).take i ++ (pat ++ (t ++ c.dropWhile (· ≠ 0))) := by
    rw [← List.append_assoc pat,ht,← List.append_assoc,List.take_append_drop]
    exact (List.takeWhile_append_dropWhile).symm
  rw [hc,Buffer.slice_eq_append,Buffer.slice_eq_append] at hf
  have hlen : ((cString c).take i).length = i := by
    rw [List.length_take]
    omega
  rw [hlen,Nat.zero_add] at hf
  exact hf.2.1

/-- The header block ends with a line end, and another one before it. -/
private theorem hdrEnd_bytes {c : List UInt8} {f : Buffer} (hf : f.slice 0 c.length = c) {e : Nat}
    (h : hdrEnd (cString c) = some e) : 2 ≤ e ∧ f (e - 1) = 10 ∧ (f (e - 2) = 10 ∨ f (e - 2) = 13) := by
  rcases Option.or_eq_some_iff.mp h with h | ⟨_,h⟩
  · obtain ⟨i,hi,rfl⟩ := Option.map_eq_some_iff.mp h
    have hs := strstr_slice (by decide) hf hi
    exact ⟨by omega,Buffer.slice_getElem (s := crlfcrlf) hs (j := 3) (by decide),
      .inr (Buffer.slice_getElem (s := crlfcrlf) hs (j := 2) (by decide))⟩
  · obtain ⟨i,hi,rfl⟩ := Option.map_eq_some_iff.mp h
    have hs := strstr_slice (by decide) hf hi
    exact ⟨by omega,Buffer.slice_getElem (s := lflf) hs (j := 1) (by decide),
      .inl (Buffer.slice_getElem (s := lflf) hs (j := 0) (by decide))⟩

end Reception

/-- What http_cli_init and the lack of any writer guarantee at the start of a request. -/
structure HttpCli.Fresh (cli : HttpCli) : Prop where
  nolen : cli.nolen = false
  hdrs : cli.hdrs = []
  uri : cli.uri = none
  body : cli.body = none

/-- A header has been received on a connection that was in the state `a`. -/
structure HdrReceived (a c : HttpCli) : Prop where
  chunked : c.chunked = a.chunked
  method : c.method = a.method
  http11 : c.http11 = a.http11
  hdrs : c.hdrs = []
  two : 2 ≤ c.hdrLen
  fits : c.hdrLen + c.bodyLen ≤ httpMaxHdrLen
  last : c.hdr (c.hdrLen - 1) = 10
  before : c.hdr (c.hdrLen - 2) = 10 ∨ c.hdr (c.hdrLen - 2) = 13

/-- The two connections after the same packets: still waiting, failed alike, or with the same header. -/
inductive Reception (a b : HttpCli) : Option (Option HttpReqErr × HttpCli × List Recv) →
    Option (Option HttpReqErr × HttpCli × List Recv) → Prop
  | waiting : Reception a b none none
  | failed (e : HttpReqErr) (f g : Buffer) (rest : List Recv) :
      Reception a b (some (some e,{ a with cntLen := 0, hdr := f },rest))
        (some (some e,{ b with cntLen := 0, hdr := g },rest))
  | received {c d : HttpCli} (rest : List Recv) : Twin (c.hdrLen + c.bodyLen) c d → HdrReceived a c → HdrReceived b d →
      Reception a b (some (none,c,rest)) (some (none,d,rest))

theorem httpRecvHdr_alike {a b : HttpCli} (ha : a.Fresh) (hb : b.Fresh) (rs : List Recv) :
    Reception a b (httpRecvHdr a rs) (httpRecvHdr b rs) := by
  have hfa := httpRecvHdrLoop_frame { a with cntLen := 0 } [] rs rfl
  have hfb := httpRecvHdrLoop_frame { b with cntLen := 0 } [] rs rfl
  rw [httpRecvHdr,httpRecvHdr]
  rw [List.length_nil] at hfa hfb
  generalize httpRecvHdrLoop { a with cntLen := 0 } 0 rs = ra at *
  generalize httpRecvHdrLoop { b with cntLen := 0 } 0 rs = rb at *
  rcases hframe : frame [] rs with _ | ⟨_ | e,c,rest⟩
  · rw [hframe] at hfa hfb
    rw [hfa,hfb]
    exact .waiting
  · rw [hframe] at hfa hfb
    obtain ⟨f,e,hf,he,rfl⟩ := hfa
    obtain ⟨g,e',hg,he',rfl⟩ := hfb
    rw [he] at he'
    cases he'
    obtain ⟨_,_,_,_,_,hmax,_⟩ := frame_found hframe he
    obtain ⟨htwo,hlast,hbefore⟩ := hdrEnd_bytes hf he
    obtain ⟨-,hlast',hbefore'⟩ := hdrEnd_bytes hg he
    have hsum : e + (c.length - e) = c.length := by
      have := (hdrEnd_le he).trans (cString_length_le c)
      omega
    have hagree : ∀ j < e + (c.length - e), f j = g j := by
      intro j hj
      rw [hsum] at hj
      have h₁ := Buffer.slice_getElem hf hj
      have h₂ := Buffer.slice_getElem hg hj
      rw [Nat.zero_add] at h₁ h₂
      rw [h₁,h₂]
    refine .received rest ⟨hagree,rfl,rfl,ha.nolen.trans hb.nolen.symm,ha.hdrs.trans hb.hdrs.symm,
      ha.uri.trans hb.uri.symm,
      rfl,rfl⟩ ?_ ?_
    · exact ⟨rfl,rfl,rfl,ha.hdrs,htwo,hsum.trans_le hmax,hlast,hbefore⟩
    · exact ⟨rfl,rfl,rfl,hb.hdrs,htwo,hsum.trans_le hmax,hlast',hbefore'⟩
  · rw [hframe] at hfa hfb
    obtain ⟨f,rfl⟩ := hfa
    obtain ⟨g,rfl⟩ := hfb
    exact .failed e f g rest

section Own

/-- The method the request names itself. -/
def ownMethod (cli : HttpCli) : Option HttpMethod := if 0 ∈ cli.block then none else lineMethod cli

/-- The version the request names itself, if its line is accepted. -/
def ownVersion (cli : HttpCli) : Option Bool :=
  if 0 ∈ cli.block then none
  else
    match httpParseReqLine cli with
    | (none,cli) => some cli.http11
    | (some _,_) => none

/-- The request has a transfer-encoding header of its own. -/
def ownChunked (cli : HttpCli) : Bool :=
  if 0 ∈ cli.block then false
  else
    match httpParseReqLine cli with
    | (none,cli) => ((httpParseHdr cli).hdrs.get transferEncoding).isSome
    | (some _,_) => false

private theorem parseHost_keeps (cli : HttpCli) : (parseHost cli).2.chunked = cli.chunked ∧
    (parseHost cli).2.method = cli.method ∧ (parseHost cli).2.http11 = cli.http11 := by
  unfold parseHost
  split
  · exact ⟨rfl,rfl,rfl⟩
  split
  · exact ⟨rfl,rfl,rfl⟩
  split
  · exact ⟨rfl,rfl,rfl⟩
  · exact ⟨rfl,rfl,rfl⟩

/-- Where the request is silent, the flag, the method and the version are those of an earlier request. -/
theorem httpParseReqHdr_own (cli : HttpCli) : (httpParseReqHdr cli).2.chunked = (cli.chunked || ownChunked cli) ∧
    (httpParseReqHdr cli).2.method = (ownMethod cli).or cli.method ∧
    (httpParseReqHdr cli).2.http11 = (ownVersion cli).getD cli.http11 := by
  rw [httpParseReqHdr,ownChunked,ownMethod,ownVersion]
  split
  · exact ⟨(Bool.or_false _).symm,rfl,rfl⟩
  obtain ⟨hchunked,hmethod,-,hversion⟩ := httpParseReqLine_left cli
  generalize httpParseReqLine cli = r at *
  obtain ⟨e,cli₁⟩ := r
  cases e with
  | some e => exact ⟨hchunked.trans (Bool.or_false _).symm,hmethod,hversion (Option.some_ne_none e)⟩
  | none =>
    obtain ⟨h₁,h₂,h₃⟩ := parseHost_keeps (parseFraming (httpParseHdr cli₁))
    refine ⟨h₁.trans ?_,h₂.trans hmethod,h₃⟩
    show (cli₁.chunked || _) = _
    rw [show cli₁.chunked = cli.chunked from hchunked]

end Own

section Header
variable {n : Nat} {a b : HttpCli}

private theorem cString_nul (x y : List UInt8) : cString (x ++ 0 :: y) = cString x := by
  rw [cString,cString,List.takeWhile_append]
  split
  · rename_i hall
    rw [List.takeWhile_cons_of_neg (by decide),List.append_nil]
    exact ((List.takeWhile_prefix _).eq_of_length hall).symm
  · rfl

private theorem cString_agree {f g : Buffer} {p q m : Nat} (hp : p ≤ q) (hq : q < p + m)
    (h : ∀ j, p ≤ j → j < q → f j = g j) (hf : f q = 0) (hg : g q = 0) :
    cString (f.slice p m) = cString (g.slice p m) := by
  obtain ⟨r,rfl⟩ : ∃ r, m = (q - p) + (1 + r) := ⟨m - (q - p) - 1,by omega⟩
  have hcut : ∀ f : Buffer, f q = 0 → cString (f.slice p ((q - p) + (1 + r))) = cString (f.slice p (q - p)) := by
    intro f hf
    have hone : f.slice q 1 = [0] := by
      rw [← hf]
      simp [Buffer.slice]
    rw [Buffer.slice_add,Buffer.slice_add,Nat.add_sub_cancel' hp,hone]
    exact cString_nul _ _
  rw [hcut f hf,hcut g hg]
  exact congrArg cString (Buffer.slice_congr fun j hj => h (p + j) (by omega) (by omega))

private theorem httpParseHdr_twin (h : Twin n a b) (hstart : a.hdrStart = b.hdrStart) (hle : a.hdrStart ≤ a.hdrLen)
    (hn : a.hdrLen ≤ n) (hnext : isspace (a.hdr a.hdrLen) = isspace (b.hdr a.hdrLen)) :
    Twin n (httpParseHdr a) (httpParseHdr b) := by
  have hsum : a.hdrStart + (a.hdrLen - a.hdrStart) = a.hdrLen := Nat.add_sub_cancel' hle
  have hscan : ScanTwin n ⟨a.hdr,a.hdrStart,a.hdrs⟩ ⟨b.hdr,a.hdrStart,b.hdrs⟩ := ⟨h.hdr,rfl,h.hdrs⟩
  have hparse := parse_twin (b := a.hdrStart) (m := a.hdrLen - a.hdrStart) hscan le_rfl (by omega) (by rwa [hsum])
  rw [httpParseHdr,httpParseHdr,← hstart,← h.hdrLen]
  exact ⟨hparse.hdr,rfl,h.cntLen,h.nolen,hparse.hdrs,h.uri,h.body,h.bodyLen⟩

/-- The strings of the two header tables are the same. -/
def SameValues (a b : HttpCli) : Prop := ∀ e ∈ a.hdrs, a.value e.2 = b.value e.2

private theorem getHdr_same (h : Twin n a b) (hv : SameValues a b) (k : List UInt8) : a.getHdr k = b.getHdr k := by
  rw [HttpCli.getHdr,HttpCli.getHdr,← h.hdrs]
  cases hk : a.hdrs.get k with
  | none => rfl
  | some p => exact congrArg some (hv (k,p) (Table.mem_of_get hk))

private theorem parseFraming_twin (h : Twin n a b) (hv : SameValues a b) :
    Twin n (parseFraming a) (parseFraming b) := by
  rw [parseFraming,parseFraming,getHdr_same h hv,← h.cntLen]
  exact ⟨h.hdr,h.hdrLen,rfl,h.nolen,h.hdrs,h.uri,h.body,h.bodyLen⟩

private theorem parseHost_twin (h : Twin n a b) (hv : SameValues a b) :
    (parseHost a).1 = (parseHost b).1 ∧ Twin n (parseHost a).2 (parseHost b).2 ∧
      SameValues (parseHost a).2 (parseHost b).2 := by
  rw [parseHost,parseHost,getHdr_same h hv]
  split
  · exact ⟨rfl,h,hv⟩
  split
  · exact ⟨rfl,⟨h.hdr,h.hdrLen,h.cntLen,h.nolen,h.hdrs,h.uri,h.body,h.bodyLen⟩,hv⟩
  split
  · exact ⟨rfl,h,hv⟩
  · exact ⟨rfl,⟨h.hdr,h.hdrLen,h.cntLen,h.nolen,h.hdrs,h.uri,h.body,h.bodyLen⟩,hv⟩

/-- The string that begins right behind the header block, with one byte more than the buffer has. -/
def HttpCli.behind (cli : HttpCli) : List UInt8 := cString (cli.hdr.slice cli.hdrLen (httpMaxHdrLen + 1 - cli.hdrLen))

/-- What http_parse_hdr can meet behind the two header blocks: the same string, or no whitespace at once. -/
def SameBehind (a b : HttpCli) : Prop :=
  a.behind = b.behind ∨ isspace (a.hdr a.hdrLen) = false ∧ isspace (b.hdr b.hdrLen) = false

instance : Decidable (SameBehind a b) := inferInstanceAs (Decidable (_ ∨ _ ∧ _))

private theorem behind_head (cli : HttpCli) (h : cli.hdrLen ≤ httpMaxHdrLen) :
    isspace (cli.hdr cli.hdrLen) = (cli.behind.head?.map isspace).getD false := by
  obtain ⟨r,hr⟩ : ∃ r, httpMaxHdrLen + 1 - cli.hdrLen = 1 + r := ⟨httpMaxHdrLen - cli.hdrLen,by omega⟩
  have hone : cli.hdr.slice cli.hdrLen 1 = [cli.hdr cli.hdrLen] := by simp [Buffer.slice]
  rw [HttpCli.behind,hr,Buffer.slice_add,hone,List.singleton_append,cString]
  by_cases hz : cli.hdr cli.hdrLen = 0
  · rw [hz,List.takeWhile_cons_of_neg (by decide)]
    rfl
  · rw [List.takeWhile_cons_of_pos (by simpa using hz)]
    rfl

private theorem SameBehind.isspace (h : SameBehind a b) (hle : a.hdrLen ≤ httpMaxHdrLen) (hlen : a.hdrLen = b.hdrLen) :
    isspace (a.hdr a.hdrLen) = isspace (b.hdr a.hdrLen) := by
  rw [SameBehind] at h
  rcases h with h | ⟨h₁,h₂⟩
  · rw [behind_head a hle,h,hlen,behind_head b (hlen ▸ hle)]
  · rw [h₁,hlen,h₂]

private theorem cString_append_congr {s t : List UInt8} (h : cString s = cString t) (x : List UInt8) :
    cString (x ++ s) = cString (x ++ t) := by
  rw [cString,cString] at h ⊢
  rw [List.takeWhile_append,List.takeWhile_append,h]

/-- What is behind the block begins the same strings, wherever in the block they are entered. -/
private theorem value_behind {f g : Buffer} {l p : Nat} (hf : ∀ j < l, f j = g j) (hp : p ≤ l) (hl : l ≤ httpMaxHdrLen)
    (h : cString (f.slice l (httpMaxHdrLen + 1 - l)) = cString (g.slice l (httpMaxHdrLen + 1 - l))) :
    cString (f.slice p (httpMaxHdrLen - p)) = cString (g.slice p (httpMaxHdrLen - p)) := by
  have hsum : httpMaxHdrLen - p = (l - p) + (httpMaxHdrLen - l) := by omega
  have htail : cString (f.slice l (httpMaxHdrLen - l)) = cString (g.slice l (httpMaxHdrLen - l)) := by
    rw [← f.take_slice l (show httpMaxHdrLen - l ≤ httpMaxHdrLen + 1 - l by omega),
      ← g.take_slice l (show httpMaxHdrLen - l ≤ httpMaxHdrLen + 1 - l by omega)]
    rw [cString] at h ⊢
    rw [takeWhile_take,h,cString,cString,takeWhile_take]
  rw [hsum,Buffer.slice_add,Buffer.slice_add,Nat.add_sub_cancel' hp,
    Buffer.slice_congr fun j hj => hf (p + j) (by omega)]
  exact cString_append_congr htail _

/-- A received header whose request line has been accepted. -/
structure Accepted (cli : HttpCli) : Prop where
  hdrs : cli.hdrs = []
  start : cli.hdrStart < cli.hdrLen
  fits : cli.hdrLen ≤ httpMaxHdrLen
  last : cli.hdr (cli.hdrLen - 1) = 10
  before : cli.hdrStart = cli.hdrLen - 1 ∨ cli.hdr (cli.hdrLen - 2) = 10 ∨ cli.hdr (cli.hdrLen - 2) = 13

private theorem HdrReceived.accepted {c c₁ : HttpCli} (h : HdrReceived a c) (hline : httpParseReqLine c = (none,c₁)) :
    Accepted c₁ := by
  obtain ⟨hlen,hhdrs,hsame⟩ := httpParseReqLine_ok hline
  obtain ⟨w,s,u,hparts,-⟩ := httpParseReqLine_accepted hline
  have hin := hparts.inside
  refine ⟨hhdrs.trans h.hdrs,hlen ▸ hin,?_,?_,?_⟩
  · rw [hlen]
    exact (Nat.le_add_right _ _).trans h.fits
  · rw [hlen,hsame _ (by omega)]
    exact h.last
  · by_cases hlast : c₁.hdrStart = c.hdrLen - 1
    · exact .inl (hlen ▸ hlast)
    · rw [hlen,hsame _ (by omega)]
      exact .inr h.before

private theorem httpParseHdr_values (h : Twin n a b) (ha : Accepted a) (hb : Accepted b)
    (hstart : a.hdrStart = b.hdrStart) (hn : a.hdrLen ≤ n) (hbehind : SameBehind a b) :
    SameValues (httpParseHdr a) (httpParseHdr b) := by
  have htwin := httpParseHdr_twin h hstart ha.start.le hn (hbehind.isspace ha.fits h.hdrLen)
  intro e he
  rw [SameBehind] at hbehind
  rcases hbehind with hsame | ⟨hspace,hspace'⟩
  · have hends : ∀ cli : HttpCli, cli.hdrs = [] → cli.hdrStart ≤ cli.hdrLen →
        (∀ e ∈ (httpParseHdr cli).hdrs, e.2 ≤ cli.hdrLen) ∧ ∀ j, cli.hdrLen ≤ j →
          (httpParseHdr cli).hdr j = cli.hdr j := by
      intro cli hnone hle
      have hempty : ∀ e ∈ cli.hdrs, e.2 ≤ cli.hdrStart := by
        intro e he
        rw [hnone] at he
        cases he
      have hparse := @parse_pointers ⟨cli.hdr,cli.hdrStart,cli.hdrs⟩ cli.hdrStart
          (cli.hdrLen - cli.hdrStart) le_rfl hempty
      rw [Nat.add_sub_cancel' hle] at hparse
      exact hparse.2
    obtain ⟨hptrs,hkept⟩ := hends a ha.hdrs ha.start.le
    obtain ⟨-,hkept'⟩ := hends b hb.hdrs hb.start.le
    refine value_behind (fun j hj => htwin.hdr j (hj.trans_le hn)) (hptrs e he) ha.fits ?_
    rw [Buffer.slice_congr fun j _ => hkept (a.hdrLen + j) (Nat.le_add_right _ _),
      Buffer.slice_congr fun j _ => hkept' (a.hdrLen + j) (h.hdrLen ▸ Nat.le_add_right _ _)]
    rw [HttpCli.behind,HttpCli.behind,← h.hdrLen] at hsame
    exact hsame
  · obtain ⟨hnul,hptrs⟩ := httpParseHdr_closed ha.hdrs ha.start ha.last ha.before hspace
    obtain ⟨hnul',-⟩ := httpParseHdr_closed hb.hdrs hb.start hb.last hb.before hspace'
    rw [← h.hdrLen] at hnul'
    have hp := hptrs e he
    have hfits := ha.fits
    exact cString_agree (q := a.hdrLen - 1) (by omega) (by omega) (fun j _ hlt => htwin.hdr j (by omega)) hnul hnul'

private theorem headers_twin {c d c₁ d₁ : HttpCli} (h : Twin n c d) (hn : c.hdrLen ≤ n) (hc : HdrReceived a c)
    (hd : HdrReceived b d) (hbehind : SameBehind c d) (hlc : httpParseReqLine c = (none,c₁))
    (hld : httpParseReqLine d = (none,d₁)) :
    c₁.http11 = d₁.http11 ∧ Twin n (httpParseHdr c₁) (httpParseHdr d₁) ∧
      SameValues (httpParseHdr c₁) (httpParseHdr d₁) := by
  obtain ⟨-,htwin,hok⟩ := httpParseReqLine_twin h hn
  rw [hlc,hld] at htwin hok
  obtain ⟨hversion,hstart⟩ := hok rfl
  obtain ⟨hlen,-,hsame⟩ := httpParseReqLine_ok hlc
  obtain ⟨hlen',-,hsame'⟩ := httpParseReqLine_ok hld
  have hacc := hc.accepted hlc
  have hacc' := hd.accepted hld
  have hbytes : ∀ j, c₁.hdrLen ≤ j → c₁.hdr j = c.hdr j := fun j hj => hsame j (hacc.start.le.trans hj)
  have hbytes' : ∀ j, d₁.hdrLen ≤ j → d₁.hdr j = d.hdr j := fun j hj => hsame' j (hacc'.start.le.trans hj)
  have hafter : SameBehind c₁ d₁ := by
    rw [SameBehind,HttpCli.behind,HttpCli.behind,
      Buffer.slice_congr fun j _ => hbytes (c₁.hdrLen + j) (Nat.le_add_right _ _),
      Buffer.slice_congr fun j _ => hbytes' (d₁.hdrLen + j) (Nat.le_add_right _ _),hbytes _ le_rfl,hbytes' _ le_rfl,
      hlen,hlen']
    exact hbehind
  have hle : c₁.hdrLen ≤ n := hlen ▸ hn
  exact ⟨hversion,httpParseHdr_twin htwin hstart hacc.start.le hle (hafter.isspace hacc.fits htwin.hdrLen),
    httpParseHdr_values htwin hacc hacc' hstart hle hafter⟩

private theorem block_twin (h : Twin n a b) (hn : a.hdrLen ≤ n) : a.block = b.block := by
  rw [HttpCli.block,HttpCli.block,← h.hdrLen]
  exact Buffer.slice_congr fun j hj => h.hdr (0 + j) (by omega)

private theorem sameValues_nil (ha : a.hdrs = []) : SameValues a b := by
  intro e he
  rw [ha] at he
  cases he

/-- Two connections that have received the same header parse it alike. -/
theorem httpParseReqHdr_twin {c d : HttpCli} (h : Twin n c d) (hn : c.hdrLen ≤ n) (hc : HdrReceived a c)
    (hd : HdrReceived b d) (hbehind : SameBehind c d) : (httpParseReqHdr c).1 = (httpParseReqHdr d).1 ∧
      Twin n (httpParseReqHdr c).2 (httpParseReqHdr d).2 ∧ SameValues (httpParseReqHdr c).2 (httpParseReqHdr d).2 := by
  rw [httpParseReqHdr,httpParseReqHdr,← block_twin h hn]
  split
  · exact ⟨rfl,h,sameValues_nil hc.hdrs⟩
  obtain ⟨hret,htwin,-⟩ := httpParseReqLine_twin h hn
  obtain ⟨-,-,hhdrs,-⟩ := httpParseReqLine_left c
  rcases hlc : httpParseReqLine c with ⟨_ | e,c₁⟩
  · rcases hld : httpParseReqLine d with ⟨_ | e',d₁⟩
    · obtain ⟨-,hparsed,hvalues⟩ := headers_twin h hn hc hd hbehind hlc hld
      exact parseHost_twin (parseFraming_twin hparsed hvalues) hvalues
    · rw [hlc,hld] at hret
      cases hret
  · rw [hlc] at hhdrs
    rcases hld : httpParseReqLine d with ⟨_ | e',d₁⟩
    · rw [hlc,hld] at hret
      cases hret
    · rw [hlc,hld] at hret htwin
      exact ⟨hret,htwin,sameValues_nil (hhdrs.trans hc.hdrs)⟩

/-- The method, the version and the transfer encoding of a request are what its bytes say. -/
theorem own_sent {a c : HttpCli} (h : HdrReceived a c) : ownMethod c = sentMethod c.block ∧
    (ownVersion c).isSome = sendsLine c.block ∧
    ownChunked c = sendsHeader transferEncoding c.block (c.hdr c.hdrLen) := by
  have hline := httpParseReqLine_end c
  have hmethod : lineMethod c = methodNamed c.block := by
    rw [lineMethod]
    split
    · rename_i hlen
      rw [methodNamed,if_pos (by rwa [HttpCli.block,Buffer.length_slice])]
    · rename_i hlen
      rw [httpMethodOf_named c.hdr (Nat.not_lt.mp hlen),← HttpCli.block,Option.map_map]
      exact Option.map_id'
  rw [ownMethod,sentMethod,ownVersion,sendsLine,ownChunked,hmethod]
  by_cases hnul : 0 ∈ c.block
  · simp [hnul,sendsHeader]
  rw [if_neg hnul,if_neg hnul,if_neg hnul,← hline,decide_eq_true hnul,Bool.true_and]
  refine ⟨rfl,?_⟩
  rcases hparse : httpParseReqLine c with ⟨_ | e,c₁⟩
  · exact ⟨rfl,httpParseHdr_sends hparse hnul h.hdrs transferEncoding⟩
  · rw [hparse] at hline
    simp [sendsHeader,← hline]

/-- What a request says itself does not depend on the connection. -/
theorem own_twin {c d : HttpCli} (h : Twin n c d) (hn : c.hdrLen ≤ n) (hc : HdrReceived a c) (hd : HdrReceived b d)
    (hbehind : SameBehind c d) : ownMethod c = ownMethod d ∧ ownVersion c = ownVersion d ∧
    ownChunked c = ownChunked d := by
  rw [ownMethod,ownMethod,ownVersion,ownVersion,ownChunked,ownChunked,← block_twin h hn,lineMethod_twin h hn]
  split
  · exact ⟨rfl,rfl,rfl⟩
  refine ⟨rfl,?_⟩
  obtain ⟨hret,-,-⟩ := httpParseReqLine_twin h hn
  rcases hlc : httpParseReqLine c with ⟨_ | e,c₁⟩
  · rcases hld : httpParseReqLine d with ⟨_ | e',d₁⟩
    · obtain ⟨hversion,hparsed,-⟩ := headers_twin h hn hc hd hbehind hlc hld
      exact ⟨congrArg some hversion,congrArg (fun t => (Table.get t transferEncoding).isSome) hparsed.hdrs⟩
    · rw [hlc,hld] at hret
      cases hret
  · rcases hld : httpParseReqLine d with ⟨_ | e',d₁⟩
    · rw [hlc,hld] at hret
      cases hret
    · exact ⟨rfl,rfl⟩

/-- An accepted request names its method and its version. -/
theorem own_accepted {cli : HttpCli} (h : (httpParseReqHdr cli).1 = none) :
    (ownMethod cli).isSome = true ∧ (ownVersion cli).isSome = true := by
  rw [httpParseReqHdr] at h
  rw [ownMethod,ownVersion]
  split at h
  · cases h
  rename_i hnul
  rw [if_neg hnul,if_neg hnul]
  rcases hline : httpParseReqLine cli with ⟨_ | e,cli₁⟩
  · exact ⟨lineMethod_isSome (congrArg Prod.fst hline),rfl⟩
  · rw [hline] at h
    cases h

end Header

end Memqueue
