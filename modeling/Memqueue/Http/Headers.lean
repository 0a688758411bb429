import Memqueue.Http.Parser

/-! The header table that http_parse_hdr builds from well-formed header lines.
Every line is cut when the byte after its LF is seen; the last line is followed by the empty one. -/
namespace Memqueue

section Lines

/-- Bytes that are no line end, or whose line goes on, change nothing. -/
private theorem parse_quiet (st : HdrScan) (b m : Nat)
    (h : ∀ i, b ≤ i → i < b + m → st.hdr i ≠ 10 ∨ isspace (st.hdr (i + 1)) = true) :
    (List.range' b m).foldl parseHdrAt st = st := by
  induction m generalizing b with
  | zero => rfl
  | succ m ih =>
    rw [List.range'_succ,List.foldl_cons]
    have hstep : parseHdrAt st b = st := by
      rw [parseHdrAt]
      rcases h b le_rfl (by omega) with hne | hsp
      · rw [if_pos hne]
      · rw [if_pos hsp,ite_self]
    rw [hstep]
    exact ih (b + 1) fun i hi hlt => h i (by omega) (by omega)

theorem cutLine_other {hdr : Buffer} {i j : Nat} (h : j ≠ i) (h' : j + 1 ≠ i) : cutLine hdr i j = hdr j := by
  unfold cutLine
  split
  · rw [Function.update_of_ne (by omega),Function.update_of_ne h]
  · rw [Function.update_of_ne h]

theorem cutLine_end (hdr : Buffer) (i : Nat) : cutLine hdr i i = 0 := by
  unfold cutLine
  split
  · rw [Function.update_of_ne (by omega),Function.update_self]
  · rw [Function.update_self]

/-- A line without a colon is cut and forgotten. -/
private theorem parse_plain {st : HdrScan} {e : Nat} (he : st.start ≤ e) (hlf : st.hdr e = 10)
    (hnext : isspace (st.hdr (e + 1)) = false) (hplain : ∀ i, st.start ≤ i → i < e → st.hdr i ≠ 58) :
    parseHdrAt st e = ⟨cutLine st.hdr e,e + 1,st.hdrs⟩ := by
  have hcut : ∀ i, st.start ≤ i → i ≤ e → cutLine st.hdr e i ≠ 58 := by
    intro i hi hle
    rcases Nat.lt_or_ge i e with hlt | hge
    · unfold cutLine
      split
      · rw [Function.update_apply]
        split
        · decide
        · rw [Function.update_of_ne (by omega)]
          exact hplain i hi hlt
      · rw [Function.update_of_ne (by omega)]
        exact hplain i hi hlt
    · rw [show i = e by omega,cutLine_end]
      decide
  have hp := hcut (scan (fun c => c ≠ 58 && c ≠ 0) (cutLine st.hdr e) st.start (e - st.start)) (le_scan _ _)
    (scan_le he (by omega) (by rw [cutLine_end]; rfl))
  rw [parseHdrAt,if_neg (by simpa using hlf),if_neg (by simpa using hnext)]
  exact if_pos hp

/-- Inserting a line writes only up to its colon. -/
theorem insertLine_after (st : HdrScan) {i p j : Nat} (hp : st.start ≤ p) (h : p < j) :
    (insertLine st i p).hdr j = st.hdr j := by
  unfold insertLine
  dsimp only
  rw [Buffer.write_after _ _ (by simp; omega),Function.update_of_ne (by omega)]

theorem insertLine_hdrs (st : HdrScan) {name : List UInt8} {i : Nat}
    (h : st.hdr.slice st.start name.length = name) :
    ∃ v, (insertLine st i (st.start + name.length)).hdrs = st.hdrs.insert (name.map tolower) (v + 1) ∧
      v = scan (fun c => c ≠ 0 && !isspace c) (insertLine st i (st.start + name.length)).hdr
        (st.start + name.length + 1) (i - (st.start + name.length + 1)) := by
  refine ⟨_,?_,rfl⟩
  have hsame : Buffer.slice (Function.update st.hdr (st.start + name.length) 0) st.start name.length = name := by
    refine Eq.trans (Buffer.slice_congr fun j hj => ?_) h
    exact Function.update_of_ne (by omega) _ _
  unfold insertLine
  simp only [Nat.add_sub_cancel_left,hsame]
  have hback := Buffer.slice_write (Function.update st.hdr (st.start + name.length) 0) st.start (name.map tolower)
  rw [List.length_map] at hback
  rw [hback]

/-- A line `name: rest` that ends in CR LF at `e` is inserted when the next byte is seen. -/
private theorem parse_line {st : HdrScan} {name rest : List UInt8} {e : Nat}
    (htext : st.hdr.slice st.start (name ++ 58 :: rest ++ [13,10]).length = name ++ 58 :: rest ++ [13,10])
    (he : e + 1 = st.start + (name ++ 58 :: rest ++ [13,10]).length) (hname : ∀ c ∈ name, c ≠ 58 ∧ c ≠ 0)
    (hquiet : ∀ i, st.start ≤ i → i < e → st.hdr i ≠ 10 ∨ isspace (st.hdr (i + 1)) = true)
    (hnext : isspace (st.hdr (e + 1)) = false) :
    ∃ st' v, (List.range' st.start (name ++ 58 :: rest ++ [13,10]).length).foldl parseHdrAt st = st' ∧
      st'.start = e + 1 ∧ (∀ j, st.start + name.length < j → j ≠ e → j + 1 ≠ e → st'.hdr j = st.hdr j) ∧
      st'.hdrs = st.hdrs.insert (name.map tolower) (v + 1) ∧
      v = scan (fun c => c ≠ 0 && !isspace c) st'.hdr (st.start + name.length + 1)
        (e - (st.start + name.length + 1)) := by
  obtain ⟨hbody,hend⟩ := Buffer.slice_eq_append.mp htext
  obtain ⟨hn,hrest⟩ := Buffer.slice_eq_append.mp hbody
  have hlen : (name ++ 58 :: rest ++ [13,10]).length = (name ++ 58 :: rest).length + 1 + 1 := by
    rw [List.length_append]
    rfl
  have hlen' : (name ++ 58 :: rest).length = name.length + 1 + rest.length := by
    simp only [List.length_append,List.length_cons]
    omega
  have hlf : st.hdr e = 10 := by
    have := Buffer.slice_getElem hend (j := 1) (by decide)
    rw [show e = st.start + (name ++ 58 :: rest).length + 1 by omega]
    exact this
  have hcolon : st.hdr (st.start + name.length) = 58 := Buffer.slice_getElem hrest (j := 0) (by simp)
  rw [hlen,List.range'_concat,List.foldl_append,Nat.one_mul,
    parse_quiet st st.start ((name ++ 58 :: rest).length + 1) (fun i hi hlt => hquiet i hi (by omega)),
    show st.start + ((name ++ 58 :: rest).length + 1) = e by omega,List.foldl_cons,List.foldl_nil]
  have hscan : scan (fun c => c ≠ 58 && c ≠ 0) (cutLine st.hdr e) st.start (e - st.start) = st.start + name.length := by
    apply scan_eq (by omega) (by omega)
    · intro k hk hlt
      rw [cutLine_other (by omega) (by omega)]
      have := hname _ (Buffer.mem_of_slice hn hk hlt)
      simpa using this
    · rw [cutLine_other (by omega) (by omega),hcolon]
      rfl
  have hcut : cutLine st.hdr e (st.start + name.length) = 58 := by
    rw [cutLine_other (by omega) (by omega),hcolon]
  have hstep : parseHdrAt st e = insertLine ⟨cutLine st.hdr e,st.start,st.hdrs⟩ e (st.start + name.length) := by
    rw [parseHdrAt,if_neg (by simpa using hlf),if_neg (by simpa using hnext)]
    simp only [hscan,hcut,ne_eq,not_true_eq_false,if_false]
  have hn' : (cutLine st.hdr e).slice st.start name.length = name := by
    refine Eq.trans (Buffer.slice_congr fun j hj => ?_) hn
    exact cutLine_other (by omega) (by omega)
  obtain ⟨v,hv,hscan⟩ := insertLine_hdrs ⟨cutLine st.hdr e,st.start,st.hdrs⟩ (i := e) hn'
  refine ⟨_,v,hstep,rfl,?_,hv,hscan⟩
  intro j hj hne hne'
  have hafter := insertLine_after ⟨cutLine st.hdr e,st.start,st.hdrs⟩ (i := e)
      (Nat.le_add_right st.start name.length) hj
  exact hafter.trans (cutLine_other hne hne')

end Lines

/-- One header of a request, as it is sent. -/
structure Header where
  name : List UInt8
  blanks : List UInt8
  value : List UInt8
  deriving DecidableEq, Repr

namespace Header

/-- The text of a header before its line end. -/
def text (h : Header) : List UInt8 := h.name ++ 58 :: (h.blanks ++ h.value)

def line (h : Header) : List UInt8 := h.text ++ [13,10]

/-- Names without colon, whitespace and control characters; values without line ends, NUL and outer blanks. -/
structure Wf (h : Header) : Prop where
  name : ∀ c ∈ h.name, c ≠ 58 ∧ 32 < c ∧ c ≠ 127
  blanks : ∀ c ∈ h.blanks, c = 32 ∨ c = 9
  value : ∀ c ∈ h.value, c ≠ 13 ∧ c ≠ 10 ∧ c ≠ 0
  head : ∀ c ∈ h.value.head?, c ≠ 32 ∧ c ≠ 9
  last : ∀ c ∈ h.value.getLast?, c ≠ 32 ∧ c ≠ 9

theorem Wf.text {h : Header} (hw : h.Wf) : ∀ c ∈ h.text, c ≠ 13 ∧ c ≠ 10 ∧ c ≠ 0 := by
  intro c hc
  rw [Header.text,List.mem_append,List.mem_cons,List.mem_append] at hc
  rcases hc with hc | rfl | hc | hc
  · have := (hw.name c hc).2.1
    refine ⟨?_,?_,?_⟩ <;> rintro rfl <;> exact absurd this (by decide)
  · decide
  · rcases hw.blanks c hc with rfl | rfl <;> decide
  · exact hw.value c hc

/-- A header does not begin with whitespace. -/
theorem Wf.first {h : Header} (hw : h.Wf) (t : List UInt8) (d : UInt8) : isspace ((h.text ++ t).headD d) = false := by
  cases hn : h.name with
  | nil => simp [Header.text,hn,isspace]
  | cons c cs =>
    have hc := (hw.name c (by simp [hn])).2.1
    simp only [Header.text,hn,List.cons_append,List.headD_cons]
    simp only [isspace,Bool.or_eq_false_iff,Bool.and_eq_false_iff,decide_eq_false_iff_not,UInt8.not_le]
    exact ⟨(UInt8.ne_of_lt hc).symm,.inr (UInt8.lt_trans (b := 32) (by decide) hc)⟩

private theorem Wf.start {h : Header} (hw : h.Wf) {f : Buffer} {off : Nat} (ht : f.slice off h.text.length = h.text) :
    isspace (f off) = false := by
  have hpos : 0 < h.text.length := by simp [Header.text]
  have hget := Buffer.slice_getElem ht hpos
  have hfirst := hw.first [] 0
  rw [List.append_nil,List.headD_eq_head?_getD,List.head?_eq_getElem?,List.getElem?_eq_getElem hpos] at hfirst
  rw [Nat.add_zero] at hget
  rwa [hget]

end Header

section Table
variable {st : HdrScan}

private theorem mem_cString {f : Buffer} {a b n : Nat} (hab : a ≤ b) (hb : b < a + n)
    (h : ∀ k, a ≤ k → k ≤ b → f k ≠ 0) : f b ∈ cString (f.slice a n) := by
  induction n generalizing a with
  | zero => omega
  | succ n ih =>
    rw [Nat.add_comm n,Buffer.slice_add,cString,Buffer.slice,List.range_one,List.map_singleton,List.singleton_append,
      List.takeWhile_cons,if_pos (by simpa using h a le_rfl hab)]
    by_cases heq : a = b
    · subst heq
      exact List.mem_cons_self
    · exact List.mem_cons_of_mem _ (ih (by omega) (by omega) fun k hk => h k (by omega))

private theorem get_insert_keys {t : Table (List UInt8) Nat} {k : List UInt8} {a : Nat} {ks : List (List UInt8)}
    (h : ∀ x ∈ t.keys, x ∈ ks) : ∀ x ∈ (t.insert k a).keys, x ∈ k :: ks := by
  intro x hx
  unfold Table.insert at hx
  split at hx
  · exact List.mem_cons_of_mem _ (h x hx)
  · simp only [Table.keys,List.map_append,List.mem_append,List.map_cons,List.map_nil,List.mem_singleton] at hx
    rcases hx with hx | rfl
    · exact List.mem_cons_of_mem _ (h x hx)
    · exact List.mem_cons_self

/-- The lines before the last one: the scan stands behind them and has met only their names. -/
private theorem parse_lines (hs : List Header) (hw : ∀ h ∈ hs, h.Wf)
    (htext : st.hdr.slice st.start (hs.flatMap Header.line).length = hs.flatMap Header.line)
    (hnext : isspace (st.hdr (st.start + (hs.flatMap Header.line).length)) = false) (ks : List (List UInt8))
    (hkeys : ∀ k ∈ st.hdrs.keys, k ∈ ks) :
    ∃ st', (List.range' st.start (hs.flatMap Header.line).length).foldl parseHdrAt st = st' ∧
      st'.start = st.start + (hs.flatMap Header.line).length ∧
      (∀ j, st'.start ≤ j → st'.hdr j = st.hdr j) ∧
      ∀ k ∈ st'.hdrs.keys, k ∈ ks ∨ k ∈ hs.map fun h => h.name.map tolower := by
  induction hs generalizing st ks with
  | nil => exact ⟨st,rfl,rfl,fun _ _ => rfl,fun k hk => .inl (hkeys k hk)⟩
  | cons h hs ih =>
    obtain ⟨hline,hrest⟩ := Buffer.slice_eq_append.mp htext
    have hwh := hw h List.mem_cons_self
    have hlen : h.line.length = h.text.length + 1 + 1 := by simp [Header.line]
    have hlt : h.name.length + 1 ≤ h.text.length := by simp [Header.text]
    obtain ⟨htx,hend⟩ := Buffer.slice_eq_append.mp hline
    obtain ⟨hname,_⟩ := Buffer.slice_eq_append.mp htx
    -- the byte behind this line begins the next one
    have hbehind : isspace (st.hdr (st.start + h.text.length + 1 + 1)) = false := by
      cases hs with
      | nil => simpa [List.flatMap_cons,hlen,Nat.add_assoc] using hnext
      | cons h' hs =>
        have hl' := (Buffer.slice_eq_append.mp hrest).1
        have := (hw h' (by simp)).start (Buffer.slice_eq_append.mp hl').1
        rwa [hlen] at this
    obtain ⟨st₁,v,hone,hstart,hsame,hins,_⟩ := @parse_line st h.name (h.blanks ++ h.value)
      (st.start + h.text.length + 1) hline (by
        change _ = st.start + h.line.length
        omega) (fun c hc => ⟨(hwh.name c hc).1,(hwh.text c (by simp [Header.text,hc])).2.2⟩) (by
        intro i hi hle
        refine .inl ?_
        by_cases hin : i < st.start + h.text.length
        · exact (hwh.text _ (Buffer.mem_of_slice htx hi hin)).2.1
        · have := Buffer.slice_getElem hend (j := 0) (by decide)
          rw [show i = st.start + h.text.length + 0 by omega,this]
          decide) hbehind
    have hlater : ∀ j, st₁.start ≤ j → st₁.hdr j = st.hdr j := by
      intro j hj
      exact hsame j (by omega) (by omega) (by omega)
    have hat : st₁.start = st.start + h.line.length := by omega
    have htotal : ((h :: hs).flatMap Header.line).length = h.line.length + (hs.flatMap Header.line).length := by
      rw [List.flatMap_cons,List.length_append]
    obtain ⟨st',hfold,hstart',hsame',hkeys'⟩ := @ih st₁ (fun x hx => hw x (List.mem_cons_of_mem _ hx)) (by
      rw [← hat] at hrest
      refine Eq.trans (Buffer.slice_congr fun j _ => ?_) hrest
      exact hlater _ (by omega)) (by
      rw [hlater _ (by omega),hat,Nat.add_assoc,← htotal]
      exact hnext) (h.name.map tolower :: ks) (by
      rw [hins]
      exact get_insert_keys hkeys)
    refine ⟨st',?_,by omega,?_,?_⟩
    · rw [htotal,← List.range'_append_1,List.foldl_append]
      rw [← hat,show (List.range' st.start h.line.length).foldl parseHdrAt st = st₁ from hone]
      exact hfold
    · intro j hj
      rw [hsame' j hj,hlater j (by omega)]
    · intro k hk
      rw [List.map_cons,List.mem_cons]
      rcases hkeys' k hk with hk | hk
      · rcases List.mem_cons.mp hk with hk | hk
        · exact .inr (.inl hk)
        · exact .inl hk
      · exact .inr (.inr hk)

/-- The LF of the last line is followed by the empty line, so the header is skipped or takes both line ends in. -/
private theorem parse_last {h : Header} (hw : h.Wf) (hnew : h.name.map tolower ∉ st.hdrs.keys)
    (htext : st.hdr.slice st.start (h.line ++ [13,10]).length = h.line ++ [13,10])
    (hfit : st.start + (h.line ++ [13,10]).length < httpMaxHdrLen) :
    ∃ st', (List.range' st.start (h.line ++ [13,10]).length).foldl parseHdrAt st = st' ∧
      ∀ p ∈ st'.hdrs.get (h.name.map tolower), 10 ∈ cString (st'.hdr.slice p (httpMaxHdrLen - p)) := by
  obtain ⟨hline,hempty⟩ := Buffer.slice_eq_append.mp htext
  obtain ⟨htx,hend⟩ := Buffer.slice_eq_append.mp hline
  have hlen : h.line.length = h.text.length + 2 := by simp [Header.line]
  have hlen' : (h.line ++ [13,10]).length = h.text.length + 4 := by simp [Header.line]
  have hlt : h.name.length + 1 ≤ h.text.length := by simp [Header.text]
  have hcr : st.hdr (st.start + h.text.length) = 13 := Buffer.slice_getElem hend (j := 0) (by decide)
  have hlf : st.hdr (st.start + h.text.length + 1) = 10 := Buffer.slice_getElem hend (j := 1) (by decide)
  have hcr' : st.hdr (st.start + h.text.length + 2) = 13 := by
    have := Buffer.slice_getElem hempty (j := 0) (by decide)
    rwa [hlen] at this
  have hquiet : ∀ i, st.start ≤ i → i < st.start + h.text.length + 3 → st.hdr i ≠ 10 ∨
      isspace (st.hdr (i + 1)) = true := by
    intro i hi hlt
    by_cases hin : i < st.start + h.text.length
    · exact .inl (hw.text _ (Buffer.mem_of_slice htx hi hin)).2.1
    · obtain rfl | rfl | rfl : i = st.start + h.text.length ∨ i = st.start + h.text.length + 1 ∨
        i = st.start + h.text.length + 2 := by omega
      · refine .inl ?_
        rw [hcr]
        decide
      · refine .inr ?_
        rw [hcr']
        rfl
      · refine .inl ?_
        rw [hcr']
        decide
  by_cases hnext : isspace (st.hdr (st.start + h.text.length + 3 + 1)) = true
  · refine ⟨st,parse_quiet st st.start _ ?_,?_⟩
    · intro i hi hlt
      by_cases hin : i < st.start + h.text.length + 3
      · exact hquiet i hi hin
      · refine .inr ?_
        rw [show i = st.start + h.text.length + 3 by omega]
        exact hnext
    · intro p hp
      rw [Table.get_eq_none.mpr hnew] at hp
      cases hp
  · have hshape : h.line ++ [13,10] = h.name ++ 58 :: (h.blanks ++ h.value ++ [13,10]) ++ [13,10] := by
      simp [Header.line,Header.text]
    rw [hshape] at htext hlen' hfit ⊢
    obtain ⟨st',v,hfold,-,hsame,hins,hv⟩ := parse_line htext (e := st.start + h.text.length + 3) (by omega)
      (fun c hc => ⟨(hw.name c hc).1,(hw.text c (by simp [Header.text,hc])).2.2⟩) hquiet (by simpa using hnext)
    refine ⟨st',hfold,?_⟩
    intro p hp
    rw [hins,Table.get_insert_self (Table.get_eq_none.mpr hnew)] at hp
    cases hp
    -- the search for whitespace stops at the CR of the line at the latest
    have hle : v ≤ st.start + h.text.length := by
      rw [hv]
      apply scan_le (by omega) (by omega)
      rw [hsame _ (by omega) (by omega) (by omega),hcr]
      rfl
    have hge : st.start + h.name.length + 1 ≤ v := by
      rw [hv]
      exact le_scan _ _
    have hin := mem_cString (f := st'.hdr) (a := v + 1) (b := st.start + h.text.length + 1)
        (n := httpMaxHdrLen - (v + 1))
      (by omega) (by omega) (by
        intro k hk hle
        rw [hsame k (by omega) (by omega) (by omega)]
        by_cases hin : k < st.start + h.text.length
        · exact (hw.text _ (Buffer.mem_of_slice htx (by omega) hin)).2.2
        · obtain rfl | rfl : k = st.start + h.text.length ∨ k = st.start + h.text.length + 1 := by omega
          · rw [hcr]
            decide
          · rw [hlf]
            decide)
    rwa [hsame _ (by omega) (by omega) (by omega),hlf] at hin

end Table

private theorem httpParseUri_ok {cli cli₁ : HttpCli} {p : Nat} (h : httpParseUri cli p = (none,cli₁)) :
    cli₁.hdrLen = cli.hdrLen ∧ cli₁.hdrs = cli.hdrs ∧ ∀ j, cli₁.hdrStart ≤ j → cli₁.hdr j = cli.hdr j := by
  simp only [httpParseUri] at h
  split at h
  · cases h
  · split at h
    · cases h
    · split at h
      · cases h
      · split at h
        · cases h
        · rename_i hproto
          split at h
          · cases h
          · cases h
            refine ⟨rfl,rfl,?_⟩
            intro j hj
            exact Function.update_of_ne (by dsimp only at hj; omega) _ _

/-- The request line is taken without a look at the rest. -/
theorem httpParseReqLine_ok {cli cli₁ : HttpCli} (h : httpParseReqLine cli = (none,cli₁)) :
    cli₁.hdrLen = cli.hdrLen ∧ cli₁.hdrs = cli.hdrs ∧ ∀ j, cli₁.hdrStart ≤ j → cli₁.hdr j = cli.hdr j := by
  simp only [httpParseReqLine] at h
  split at h
  · cases h
  · split at h
    · cases h
    · obtain ⟨h₁,h₂,h₃⟩ := httpParseUri_ok h
      exact ⟨h₁,h₂,h₃⟩

/-- The CR LF that ends the request line, before a header. -/
private theorem parse_reqEnd {st : HdrScan} (hcrlf : st.hdr.slice st.start 2 = [13,10])
    (hnext : isspace (st.hdr (st.start + 2)) = false) :
    ∃ st', (List.range' st.start 2).foldl parseHdrAt st = st' ∧ st'.start = st.start + 2 ∧ st'.hdrs = st.hdrs ∧
      ∀ j, st'.start ≤ j → st'.hdr j = st.hdr j := by
  have hcr : st.hdr st.start = 13 := Buffer.slice_getElem (s := [13,10]) hcrlf (j := 0) (by decide)
  have hlf : st.hdr (st.start + 1) = 10 := Buffer.slice_getElem (s := [13,10]) hcrlf (j := 1) (by decide)
  have hquiet := parse_quiet st st.start 1 (by
    intro i hi hlt
    refine .inl ?_
    rw [show i = st.start by omega,hcr]
    decide)
  have hplain := @parse_plain st (st.start + 1) (by omega) hlf hnext (by
    intro i hi hlt
    rw [show i = st.start by omega,hcr]
    decide)
  refine ⟨⟨cutLine st.hdr (st.start + 1),st.start + 1 + 1,st.hdrs⟩,?_,rfl,rfl,?_⟩
  · rw [List.range'_concat,List.foldl_append,hquiet,Nat.one_mul,List.foldl_cons,List.foldl_nil]
    exact hplain
  · intro j hj
    exact cutLine_other (by dsimp only at hj; omega) (by dsimp only at hj; omega)

/-- Without headers the two line ends add nothing. -/
private theorem parse_none (st : HdrScan) (htext : st.hdr.slice st.start 4 = [13,10,13,10]) :
    ((List.range' st.start 4).foldl parseHdrAt st).hdrs = st.hdrs := by
  have hat : ∀ j, (hj : j < 4) → st.hdr (st.start + j) = [13,10,13,10].get ⟨j,hj⟩ :=
    fun j hj => Buffer.slice_getElem (s := [13,10,13,10]) htext hj
  have hbyte : ∀ i, st.start ≤ i → i < st.start + 3 → (st.hdr i ≠ 10 ∨ isspace (st.hdr (i + 1)) = true) ∧
      st.hdr i ≠ 58 := by
    intro i hi hlt
    obtain rfl | rfl | rfl : i = st.start + 0 ∨ i = st.start + 1 ∨ i = st.start + 2 := by omega
    · rw [hat 0 (by decide)]
      exact ⟨.inl (by decide),by decide⟩
    · rw [hat 1 (by decide),show st.start + 1 + 1 = st.start + 2 from rfl,hat 2 (by decide)]
      decide
    · rw [hat 2 (by decide)]
      exact ⟨.inl (by decide),by decide⟩
  rw [List.range'_concat,List.foldl_append,Nat.one_mul,parse_quiet st st.start 3 (fun i hi hlt => (hbyte i hi hlt).1),
    List.foldl_cons,List.foldl_nil]
  by_cases hnext : isspace (st.hdr (st.start + 3 + 1)) = true
  · rw [parseHdrAt,if_pos hnext,ite_self]
  · rw [parse_plain (by omega) (hat 3 (by decide)) (by simpa using hnext) (fun i hi hlt => (hbyte i hi hlt).2)]

/-- With headers, the value of the last one is missing or holds a line end. -/
private theorem parse_block (st : HdrScan) {hs : List Header} {h : Header} (hw : ∀ x ∈ hs ++ [h], x.Wf)
    (hdistinct : ((hs ++ [h]).map fun x => x.name.map tolower).Nodup) (hnone : st.hdrs = [])
    (htext : st.hdr.slice st.start ([13,10] ++ (hs.flatMap Header.line ++ (h.line ++ [13,10]))).length =
      [13,10] ++ (hs.flatMap Header.line ++ (h.line ++ [13,10])))
    (hfit : st.start + ([13,10] ++ (hs.flatMap Header.line ++ (h.line ++ [13,10]))).length < httpMaxHdrLen) :
    ∃ st', (List.range' st.start ([13,10] ++ (hs.flatMap Header.line ++
      (h.line ++ [13,10]))).length).foldl parseHdrAt st =
        st' ∧
      ∀ p ∈ st'.hdrs.get (h.name.map tolower), 10 ∈ cString (st'.hdr.slice p (httpMaxHdrLen - p)) := by
  have hwh : h.Wf := hw h (by simp)
  have hwhs : ∀ x ∈ hs, x.Wf := fun x hx => hw x (by simp [hx])
  obtain ⟨hcrlf,hrest⟩ := Buffer.slice_eq_append.mp htext
  obtain ⟨hlines,hlast⟩ := Buffer.slice_eq_append.mp hrest
  have hfirst : isspace (st.hdr (st.start + 2 + (hs.flatMap Header.line).length)) = false := by
    exact hwh.start (Buffer.slice_eq_append.mp (Buffer.slice_eq_append.mp hlast).1).1
  have hnext : isspace (st.hdr (st.start + 2)) = false := by
    cases hs with
    | nil => exact hfirst
    | cons x hs =>
      exact (hwhs x List.mem_cons_self).start (Buffer.slice_eq_append.mp (Buffer.slice_eq_append.mp hlines).1).1
  obtain ⟨st₁,hfold₁,hstart₁,hhdrs₁,hsame₁⟩ := parse_reqEnd hcrlf hnext
  have hlines₁ : st₁.hdr.slice st₁.start (hs.flatMap Header.line).length = hs.flatMap Header.line := by
    refine Eq.trans (Buffer.slice_congr fun j _ => ?_) hlines
    rw [hsame₁ _ (by omega),hstart₁]
    rfl
  obtain ⟨st₂,hfold₂,hstart₂,hsame₂,hkeys₂⟩ := parse_lines hs hwhs hlines₁ (by
    rw [hsame₁ _ (by omega),hstart₁]
    exact hfirst) [] (by
    rw [hhdrs₁,hnone]
    intro k hk
    exact hk)
  have hnew : h.name.map tolower ∉ st₂.hdrs.keys := by
    intro hk
    rcases hkeys₂ _ hk with hk | hk
    · cases hk
    · rw [List.map_append,List.nodup_append] at hdistinct
      exact hdistinct.2.2 _ hk _ (by simp) rfl
  have hlast₂ : st₂.hdr.slice st₂.start (h.line ++ [13,10]).length = h.line ++ [13,10] := by
    refine Eq.trans (Buffer.slice_congr fun j _ => ?_) hlast
    rw [hsame₂ _ (by omega),hsame₁ _ (by omega),hstart₂,hstart₁]
    rfl
  have htotal : ([13,10] ++ (hs.flatMap Header.line ++ (h.line ++ [13,10]))).length =
      2 + ((hs.flatMap Header.line).length + (h.line ++ [13,10]).length) := by
    rw [List.length_append,List.length_append]
    rfl
  obtain ⟨st₃,hfold₃,hvalue⟩ := parse_last hwh hnew hlast₂ (by omega)
  refine ⟨st₃,?_,hvalue⟩
  rw [htotal,← List.range'_append_1,List.foldl_append,← List.range'_append_1,List.foldl_append,hfold₁,← hstart₁,hfold₂,
    ← hstart₂,hfold₃]

/-- The table holds what was sent exactly when nothing was sent: the last header never comes out right. -/
theorem header_table_iff {cli cli₁ : HttpCli} {line body : List UInt8} {hs : List Header}
    (htext : cli.hdr.slice 0 (line ++ ([13,10] ++ hs.flatMap Header.line ++ [13,10]) ++ body).length =
      line ++ ([13,10] ++ hs.flatMap Header.line ++ [13,10]) ++ body)
    (hfit : (line ++ ([13,10] ++ hs.flatMap Header.line ++ [13,10]) ++ body).length < httpMaxHdrLen)
    (hlen : cli.hdrLen = (line ++ ([13,10] ++ hs.flatMap Header.line ++ [13,10])).length) (hnone : cli.hdrs = [])
    (hline : httpParseReqLine cli = (none,cli₁)) (hstart : cli₁.hdrStart = line.length)
    (hw : ∀ h ∈ hs, h.Wf) (hdistinct : (hs.map fun h => h.name.map tolower).Nodup) :
    (∀ k v, (httpParseHdr cli₁).getHdr k = some v ↔ ∃ h ∈ hs, k = h.name.map tolower ∧ v = h.value) ↔ hs = [] := by
  obtain ⟨hlen₁,hnone₁,hsame⟩ := httpParseReqLine_ok hline
  have hblock := (Buffer.slice_eq_append.mp (Buffer.slice_eq_append.mp htext).1).2
  rw [Nat.zero_add] at hblock
  have hblock₁ : cli₁.hdr.slice cli₁.hdrStart ([13,10] ++ hs.flatMap Header.line ++ [13,10]).length =
      [13,10] ++ hs.flatMap Header.line ++ [13,10] := by
    rw [hstart]
    refine Eq.trans (Buffer.slice_congr fun j _ => ?_) hblock
    exact hsame _ (by omega)
  have hcount : cli₁.hdrLen - cli₁.hdrStart = ([13,10] ++ hs.flatMap Header.line ++ [13,10]).length := by
    rw [hlen₁,hlen,hstart,List.length_append,Nat.add_sub_cancel_left]
  constructor
  · intro htable
    rcases List.eq_nil_or_concat hs with rfl | ⟨init,h,rfl⟩
    · rfl
    · exfalso
      have hshape : [13,10] ++ (init.concat h).flatMap Header.line ++ [13,10] =
          [13,10] ++ (init.flatMap Header.line ++ (h.line ++ [13,10])) := by simp
      rw [hshape] at hblock₁ hcount hfit
      rw [List.length_append,List.length_append] at hfit
      rw [List.concat_eq_append] at hw hdistinct htable
      obtain ⟨st',hfold,hvalue⟩ := parse_block ⟨cli₁.hdr,cli₁.hdrStart,cli₁.hdrs⟩ hw hdistinct (hnone₁.trans hnone)
        hblock₁ (by dsimp only; omega)
      have hgot := (htable (h.name.map tolower) h.value).mpr ⟨h,by simp,rfl,rfl⟩
      simp only [httpParseHdr,hcount] at hgot
      dsimp only at hfold
      rw [hfold] at hgot
      obtain ⟨p,hp,hval⟩ := Option.map_eq_some_iff.mp hgot
      have hlf := hvalue p hp
      rw [show cString (st'.hdr.slice p (httpMaxHdrLen - p)) = h.value from hval] at hlf
      exact ((hw h (by simp)).value 10 hlf).2.1 rfl
  · rintro rfl k v
    have hempty : (httpParseHdr cli₁).hdrs = [] := by
      have := parse_none ⟨cli₁.hdr,cli₁.hdrStart,cli₁.hdrs⟩ hblock₁
      simp only [httpParseHdr,hcount]
      exact this.trans (hnone₁.trans hnone)
    simp [HttpCli.getHdr,hempty,Table.get]

/-- GET /q HTTP/1.0 -/
def getLine : List UInt8 := [71,69,84,32,47,113,32,72,84,84,80,47,49,46,48]

/-- A client that has received a request line, these headers and no body. -/
def sentHeaders (hs : List Header) : HttpCli :=
  { HttpCli.new with
    hdr := HttpCli.new.hdr.write 0 (getLine ++ ([13,10] ++ hs.flatMap Header.line ++ [13,10]) ++ [])
    hdrLen := (getLine ++ ([13,10] ++ hs.flatMap Header.line ++ [13,10])).length }

/-- Host: a -/
def hostA : Header := ⟨[72,111,115,116],[32],[97]⟩

private theorem hostA_wf : hostA.Wf := by constructor <;> simp [hostA]

/-- The only header of a request: its value comes out with CR LF at its end. -/
theorem host_with_line_end : ∃ cli₁, httpParseReqLine (sentHeaders [hostA]) = (none,cli₁) ∧
    cli₁.hdrStart = getLine.length ∧ hostA.Wf ∧
    (httpParseHdr cli₁).getHdr (hostA.name.map tolower) = some (hostA.value ++ [13,10]) := by
  refine ⟨(httpParseReqLine (sentHeaders [hostA])).2,?_,by decide +kernel,hostA_wf,by decide +kernel⟩
  exact Prod.ext (by decide +kernel) rfl

/-- A request without headers leaves the table empty; with one header the table is not what was sent. -/
theorem header_table_host :
    (∃ cli₁, httpParseReqLine (sentHeaders []) = (none,cli₁) ∧ ∀ k v, (httpParseHdr cli₁).getHdr k = some v ↔
      ∃ h ∈ ([] : List Header), k = h.name.map tolower ∧ v = h.value) ∧
    ∃ cli₁, httpParseReqLine (sentHeaders [hostA]) = (none,cli₁) ∧ ¬ ∀ k v, (httpParseHdr cli₁).getHdr k = some v ↔
      ∃ h ∈ [hostA], k = h.name.map tolower ∧ v = h.value := by
  refine ⟨⟨(httpParseReqLine (sentHeaders [])).2,Prod.ext (by decide +kernel) rfl,?_⟩,
    (httpParseReqLine (sentHeaders [hostA])).2,Prod.ext (by decide +kernel) rfl,fun htable => ?_⟩
  · exact (@header_table_iff _ _ getLine [] [] (Buffer.slice_write HttpCli.new.hdr 0 _) (by decide) rfl rfl
      (Prod.ext (by decide +kernel) rfl) (by decide +kernel) (by simp) (by simp)).mpr rfl
  · have hnone := (@header_table_iff _ _ getLine [] [hostA] (Buffer.slice_write HttpCli.new.hdr 0 _) (by decide) rfl rfl
      (Prod.ext (by decide +kernel) rfl) (by decide +kernel) (by simpa using hostA_wf) (by simp)).mp htable
    cases hnone

end Memqueue
