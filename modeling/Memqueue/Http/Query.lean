import Memqueue.Http.Connection

/-! http_set_path. The arguments are cut out of the query string in place, by NULs that strtok_r and
http_set_path write and the loop takes back. -/
namespace Memqueue

/-- strtok_r with one delimiter, from the saved pointer `s`: the token and where to go on. The scans take `n`
bytes at most. -/
def strtokR (delim : UInt8) (f : Buffer) (s n : Nat) : Option Nat × Buffer × Nat :=
  if f s = 0 then (none,f,s)
  else
    let s := scan (· = delim) f s n
    if f s = 0 then (none,f,s)
    else
      let e := scan (fun c => c ≠ delim && c ≠ 0) f s n
      if f e = 0 then (some s,f,e) else (some s,Function.update f e 0,e + 1)

/-- The string at `s`. -/
def stringFrom (f : Buffer) (s n : Nat) : List UInt8 := cString (f.slice s (n + 1))

/-- The body of the loop up to the restored byte: the name ends at the first =, for as long as h_insert takes. -/
def insertArg (n : Nat) (f : Buffer) (value : Nat) (args : Table (List UInt8) (List UInt8)) :
    Buffer × Table (List UInt8) (List UInt8) :=
  let sep2 := scan (fun c => c ≠ 61 && c ≠ 0) f value n
  if f sep2 = 61 then
    let tmp2 := f sep2
    let f : Buffer := Function.update f sep2 0
    (Function.update f sep2 tmp2,args.insert (stringFrom f value n) (stringFrom f (sep2 + 1) n))
  else (f,args)

/-- The loop over the tokens. Each turn also puts back the & in front of its token. -/
def insertArgs (n : Nat) : Nat → Buffer → Nat → Table (List UInt8) (List UInt8) →
    Buffer × Table (List UInt8) (List UInt8)
  | 0, f, _, args => (f,args)
  | fuel + 1, f, tmp1, args =>
    match strtokR 38 f tmp1 n with
    | (none,f,_) => (f,args)
    | (some value,f,tmp1) =>
      let (f,args) := insertArg n f value args
      let f : Buffer := if 0 < value then Function.update f (value - 1) 38 else f
      insertArgs n fuel f tmp1 args

/-- http_set_path, with the memory that strdup gives for the query string. -/
def httpSetPathIn (mem : Buffer) (cli : HttpCli) : HttpCli :=
  let uri := cli.uri.getD []
  match strstr [63] uri with
  | some i =>
    let query := uri.drop (i + 1)
    let n := query.length
    let (_,args) := insertArgs n (n + 1) (mem.write 0 (query ++ [0])) 0 cli.queryStringArgs
    { cli with path := some (uri.take i), queryStringArgs := args }
  | none => { cli with path := some uri }

def httpGetQuerystring (cli : HttpCli) (str : List UInt8) : Option (List UInt8) := cli.queryStringArgs.get str

section Strings
variable {f : Buffer} {i n : Nat} {s : List UInt8}

/-- A scan over a string stops inside it or at its NUL. -/
private theorem StringAt.scan_eq (h : StringAt f i s) {p : UInt8 → Bool} (hp : p 0 = false) (hn : s.length ≤ n) :
    scan p f i n = i + (s.takeWhile p).length := by
  induction s generalizing i n with
  | nil =>
    cases n with
    | zero => rfl
    | succ n =>
      have hnul : f i = 0 := h.nul
      rw [scan,hnul,hp]
      rfl
  | cons c s ih =>
    obtain ⟨m,rfl⟩ := Nat.exists_eq_add_of_le' (Nat.one_le_iff_ne_zero.mpr
      (Nat.ne_of_gt (Nat.lt_of_lt_of_le (Nat.succ_pos _) hn)))
    have hc : f i = c := h.byte (Nat.succ_pos s.length)
    rw [scan,hc,List.takeWhile_cons]
    split
    · have htail : StringAt f (i + 1) s := h.drop (Nat.succ_le_succ (Nat.zero_le _))
      rw [ih htail (Nat.le_of_succ_le_succ hn),List.length_cons]
      omega
    · rfl

private theorem StringAt.dropWhile (h : StringAt f i s) (p : UInt8 → Bool) :
    StringAt f (i + (s.takeWhile p).length) (s.dropWhile p) := by
  have hsplit : s.takeWhile p ++ s.drop (s.takeWhile p).length = s.takeWhile p ++ s.dropWhile p := by
    rw [List.takeWhile_append_dropWhile,← List.prefix_append_drop (List.takeWhile_prefix p)]
  rw [← List.append_cancel_left hsplit]
  exact h.drop (List.takeWhile_prefix p).length_le

private theorem StringAt.head (h : StringAt f i s) : f i = 0 ↔ s = [] := by
  constructor
  · intro hzero
    cases s with
    | nil => rfl
    | cons c s =>
      have hc : f i = c := h.byte (Nat.succ_pos s.length)
      exact absurd (List.mem_cons.mpr (Or.inl (hzero.symm.trans hc))) h.free
  · rintro rfl
    exact h.nul

end Strings

section Tokens
variable {d : UInt8}

/-- What strtok_r yields one by one. -/
def tokens (d : UInt8) (s : List UInt8) : List (List UInt8) := (s.splitOn d).filter (· ≠ [])

private theorem tokens_cons_self (s : List UInt8) : tokens d (d :: s) = tokens d s := by
  simp [tokens,List.splitOn_cons_eq_if_modifyHead]

private theorem tokens_dropWhile (s : List UInt8) : tokens d (s.dropWhile (· = d)) = tokens d s := by
  induction s with
  | nil => rfl
  | cons c s ih =>
    by_cases hc : c = d
    · rw [List.dropWhile_cons_of_pos (by simpa using hc),ih,hc,tokens_cons_self]
    · rw [List.dropWhile_cons_of_neg (by simpa using hc)]

private theorem tokens_word {tok : List UInt8} (hd : d ∉ tok) (hne : tok ≠ []) : tokens d tok = [tok] := by
  rw [tokens,List.splitOn_eq_singleton hd]
  simp [hne]

private theorem tokens_word_append {tok : List UInt8} (hd : d ∉ tok) (hne : tok ≠ []) (s : List UInt8) :
    tokens d (tok ++ d :: s) = tok :: tokens d s := by
  rw [tokens,List.splitOn_append_cons_self_of_not_mem hd,List.filter_cons_of_pos (by simpa using hne)]
  rfl

variable {f : Buffer} {i n : Nat} {s : List UInt8}

/-- The end of a token: the string stops there, and the rest begins behind a separator or at the NUL. -/
private theorem strtokR_word (hd : d ≠ 0) {c : UInt8} (h : StringAt f i (c :: s)) (hc : c ≠ d)
    (hn : (c :: s).length ≤ n) :
    let e := scan (fun c => c ≠ d && c ≠ 0) f i n
    ∃ g j tok rest, (if f e = 0 then (some i,f,e) else (some i,Function.update f e 0,e + 1)) = (some i,g,j) ∧
      tokens d (c :: s) = tok :: tokens d rest ∧ StringAt g i tok ∧ StringAt g j rest ∧ i < j ∧
      tok.length + rest.length ≤ (c :: s).length ∧ tok ≠ [] := by
  intro e
  have hq : (c :: s).takeWhile (fun c => c ≠ d && c ≠ 0) = c :: s.takeWhile (fun c => c ≠ d && c ≠ 0) := by
    rw [List.takeWhile_cons_of_pos]
    have hc0 : c ≠ 0 := fun hzero => h.free (hzero ▸ List.mem_cons_self)
    simp [hc,hc0]
  set tok := (c :: s).takeWhile (fun c => c ≠ d && c ≠ 0) with htok
  have hne : tok ≠ [] := by
    rw [hq]
    exact List.cons_ne_nil _ _
  have hd' : d ∉ tok := by
    intro hmem
    have := List.mem_takeWhile_imp hmem
    simp at this
  have he : e = i + tok.length := h.scan_eq (by simp) hn
  have hpos := List.length_pos_iff.mpr hne
  have hrest := h.dropWhile (fun c => c ≠ d && c ≠ 0)
  have hlast := List.head?_dropWhile_not (fun c => c ≠ d && c ≠ 0) (c :: s)
  have hall := List.takeWhile_append_dropWhile (p := fun c => c ≠ d && c ≠ 0) (l := c :: s)
  rw [← htok,← he] at hrest
  rw [← htok] at hall
  cases hs : (c :: s).dropWhile (fun c => c ≠ d && c ≠ 0) with
  | nil =>
    rw [hs] at hrest hall
    rw [List.append_nil] at hall
    refine ⟨f,e,tok,[],if_pos hrest.nul,?_,hall ▸ h,hrest,by omega,?_,hne⟩
    · rw [← hall,tokens_word hd' hne]
      rfl
    · rw [← hall]
      simp
  | cons x rest =>
    rw [hs] at hrest hall hlast
    have hx0 : x ≠ 0 := by
      rintro rfl
      exact hrest.free List.mem_cons_self
    have hx : x = d := by
      simpa [hx0] using hlast
    subst hx
    have hex : f e = x := hrest.byte (Nat.succ_pos rest.length)
    refine ⟨Function.update f e 0,e + 1,tok,rest,?_,?_,?_,?_,by omega,?_,hne⟩
    · rw [hex,if_neg hx0]
    · rw [← hall,tokens_word_append hd' hne]
    · have hfront : tok <+: c :: s := List.takeWhile_prefix _
      have hcut := h.cut hfront.length_le
      rwa [← he,← List.prefix_iff_eq_take.mp hfront] at hcut
    · refine (hrest.drop (k := 1) (Nat.succ_le_succ (Nat.zero_le _))).congr fun k _ => ?_
      rw [Function.update_of_ne (by omega)]
    · rw [← hall,List.length_append,List.length_cons]
      omega

/-- One call: no token is left, or it returns the next one as a string and saves a pointer to what follows. -/
private theorem strtokR_string (hd : d ≠ 0) (h : StringAt f i s) (hn : s.length ≤ n) :
    ((strtokR d f i n).1 = none ∧ tokens d s = []) ∨
    ∃ v g j tok rest, strtokR d f i n = (some v,g,j) ∧ tokens d s = tok :: tokens d rest ∧
      StringAt g v tok ∧ StringAt g j rest ∧ v < j ∧ tok.length ≤ n ∧ rest.length < s.length := by
  have hsep := h.dropWhile (· = d)
  have htokens := tokens_dropWhile (d := d) s
  have hle := (List.dropWhile_suffix (l := s) (· = d)).length_le
  have hscan := h.scan_eq (p := (· = d)) (decide_eq_false (Ne.symm hd)) hn
  have hfirst := List.head?_dropWhile_not (· = d) s
  cases hs : s.dropWhile (· = d) with
  | nil =>
    refine Or.inl ⟨?_,?_⟩
    · rw [hs] at hsep
      have hnul : f (i + (s.takeWhile (· = d)).length) = 0 := hsep.nul
      simp only [strtokR,hscan,hnul,if_true]
      split
      · rfl
      · rfl
    · rw [← htokens,hs]
      rfl
  | cons c word =>
    rw [hs] at hsep htokens hle hfirst
    have hcd : c ≠ d := by simpa using hfirst
    obtain ⟨g,j,tok,rest,hcut,hsplit,htok,hrest,hlt,hlen,hne⟩ := strtokR_word hd hsep hcd (hle.trans hn)
    have hi : f i ≠ 0 := by
      rw [Ne,h.head]
      rintro rfl
      cases hs
    have hv : f (i + (s.takeWhile (· = d)).length) ≠ 0 := by
      rw [Ne,hsep.head]
      exact List.cons_ne_nil c word
    have hpos := List.length_pos_iff.mpr hne
    refine Or.inr ⟨_,g,j,tok,rest,?_,htokens ▸ hsplit,htok,hrest,hlt,by omega,by omega⟩
    simp only [strtokR,hscan,if_neg hi,if_neg hv]
    exact hcut

end Tokens

/-- strchr finds the first of them. -/
private theorem strstr_first {x : UInt8} {s : List UInt8} (hx : x ∉ s) (t : List UInt8) :
    strstr [x] (s ++ x :: t) = some s.length := by
  induction s with
  | nil => simp [strstr]
  | cons c s ih =>
    rw [List.mem_cons,not_or] at hx
    simp [strstr,ih hx.2,hx.1]

private theorem strstr_absent {x : UInt8} {s : List UInt8} (hx : x ∉ s) : strstr [x] s = none := by
  induction s with
  | nil => simp [strstr]
  | cons c s ih =>
    rw [List.mem_cons,not_or] at hx
    simp [strstr,ih hx.2,hx.1]

/-- What one token adds. -/
def addArg (args : Table (List UInt8) (List UInt8)) (tok : List UInt8) : Table (List UInt8) (List UInt8) :=
  match strstr [61] tok with
  | some i => args.insert (tok.take i) (tok.drop (i + 1))
  | none => args

theorem queryArgs_eq (query : List UInt8) : queryArgs query = (query.splitOn 38).foldl addArg [] := rfl

section Loop
variable {f : Buffer} {i n : Nat} {s : List UInt8} {args : Table (List UInt8) (List UInt8)}

/-- The name and the value are read between the NULs, and the buffer is as before. -/
private theorem insertArg_string (h : StringAt f i s) (hn : s.length ≤ n) :
    insertArg n f i args = (f,addArg args s) := by
  have hscan := h.scan_eq (p := fun c => c ≠ 61 && c ≠ 0) (by simp) hn
  have hnot : ∀ t : List UInt8, 61 ∉ t → 0 ∉ t → ∀ c ∈ t, (decide (c ≠ 61) && decide (c ≠ 0)) = true := by
    intro t h61 h0 c hc
    rw [Bool.and_eq_true,decide_eq_true_eq,decide_eq_true_eq]
    exact ⟨ne_of_mem_of_not_mem hc h61,ne_of_mem_of_not_mem hc h0⟩
  by_cases hmem : 61 ∈ s
  · obtain ⟨name,value,rfl,hname⟩ := List.eq_append_cons_of_mem hmem
    have hfree := h.free
    rw [List.mem_append,not_or] at hfree
    rw [List.takeWhile_append_of_pos (hnot name hname hfree.1),List.takeWhile_cons_of_neg (by simp),
      List.append_nil] at hscan
    have hlen : name.length ≤ (name ++ 61 :: value).length := by simp
    have hlen' : name.length + 1 ≤ (name ++ 61 :: value).length := by simp
    have hsep : f (i + name.length) = 61 := by
      rw [h.byte (Nat.lt_of_succ_le hlen')]
      simp
    have hcut := h.cut hlen
    rw [List.take_left' rfl] at hcut
    have hvalue : StringAt (Function.update f (i + name.length) 0) (i + name.length + 1) value := by
      have hdrop := h.drop hlen'
      rw [List.drop_length_add_append,List.drop_succ_cons,List.drop_zero] at hdrop
      refine hdrop.congr fun j _ => ?_
      rw [Function.update_of_ne (by omega)]
    have hback : Function.update (Function.update f (i + name.length) 0) (i + name.length) 61 = f := by
      rw [Function.update_idem,← hsep,Function.update_eq_self]
    have hlong : (name ++ 61 :: value).length = name.length + (value.length + 1) := by simp
    rw [insertArg,hscan,if_pos hsep,addArg,strstr_first hname]
    simp only [hsep,hback,stringFrom,hcut.cString_slice (n := n + 1) (by omega),
      hvalue.cString_slice (n := n + 1) (by omega),
      List.take_left' rfl,List.drop_length_add_append,List.drop_succ_cons,List.drop_zero]
  · have hend : f (i + s.length) ≠ 61 := by
      rw [h.nul]
      decide
    rw [List.takeWhile_eq_self_iff.mpr (hnot s hmem h.free)] at hscan
    rw [insertArg,hscan,if_neg hend,addArg,strstr_absent hmem]

private theorem insertArgs_string (fuel : Nat) (h : StringAt f i s) (hn : s.length ≤ n) (hf : s.length < fuel) :
    (insertArgs n fuel f i args).2 = (tokens 38 s).foldl addArg args := by
  induction fuel generalizing f i s args with
  | zero => omega
  | succ fuel ih =>
    rw [insertArgs]
    obtain ⟨hnone,htok⟩ | ⟨v,g,j,tok,rest,hcall,htok,hword,hrest,hlt,hlen,hshort⟩ :=
      strtokR_string (d := 38) (by decide) h hn
    · split
      · rw [htok]
        rfl
      · rename_i heq
        rw [heq] at hnone
        cases hnone
    · rw [hcall,htok]
      simp only [insertArg_string hword hlen,List.foldl_cons]
      refine ih ?_ (by omega) (by omega)
      split
      · refine hrest.congr fun k _ => ?_
        rw [Function.update_of_ne (by omega)]
      · exact hrest

end Loop

private theorem foldl_tokens (s : List UInt8) (args : Table (List UInt8) (List UInt8)) :
    (tokens 38 s).foldl addArg args = (s.splitOn 38).foldl addArg args := by
  rw [tokens,List.foldl_filter]
  congr 1
  funext args tok
  split
  · rfl
  · rename_i h
    have hnil : tok = [] := by simpa using h
    rw [hnil]
    rfl

/-- The loop over the buffer adds what the tokens of the query string say, one after the other. -/
theorem httpSetPathIn_eq (mem : Buffer) {cli : HttpCli} (hfresh : cli.queryStringArgs = [])
    (hfree : ∀ i ∈ strstr [63] (cli.uri.getD []), 0 ∉ (cli.uri.getD []).drop (i + 1)) :
    httpSetPathIn mem cli = httpSetPath cli := by
  cases hsep1 : strstr [63] (cli.uri.getD []) with
  | none => simp only [httpSetPathIn,httpSetPath,hsep1]
  | some i =>
    have hquery := hfree i hsep1
    simp only [httpSetPathIn,httpSetPath,hsep1]
    generalize (cli.uri.getD []).drop (i + 1) = query at *
    have htext := Buffer.slice_eq_append.mp (Buffer.slice_write mem 0 (query ++ [0]))
    have hstring : StringAt (mem.write 0 (query ++ [0])) 0 query := by
      refine ⟨htext.1,?_,hquery⟩
      exact Buffer.slice_getElem (s := [0]) htext.2 (Nat.succ_pos 0)
    have hargs := @insertArgs_string _ _ query.length _ cli.queryStringArgs (query.length + 1) hstring le_rfl
      (Nat.lt_succ_self _)
    rw [foldl_tokens,hfresh] at hargs
    rw [hfresh,hargs,queryArgs_eq]

/-- What stands between two &: a key with its value, or a text without =. -/
def queryToken : List UInt8 × Option (List UInt8) → List UInt8
  | (key,some value) => key ++ 61 :: value
  | (text,none) => text

/-- The keys with their values, in order. -/
def queryPairs (items : List (List UInt8 × Option (List UInt8))) : Table (List UInt8) (List UInt8) :=
  items.filterMap fun e => e.2.map fun value => (e.1,value)

/-- What a client may write between two &. -/
def QueryItem (e : List UInt8 × Option (List UInt8)) : Prop :=
  61 ∉ e.1 ∧ 38 ∉ e.1 ∧ 0 ∉ e.1 ∧ ∀ value ∈ e.2, 38 ∉ value ∧ 0 ∉ value

instance (e : List UInt8 × Option (List UInt8)) : Decidable (QueryItem e) := inferInstanceAs (Decidable (_ ∧ _))

private theorem addArg_items (items : List (List UInt8 × Option (List UInt8))) (h : ∀ e ∈ items, QueryItem e)
    (args : Table (List UInt8) (List UInt8)) :
    (items.map queryToken).foldl addArg args = Table.insertAll (queryPairs items) args := by
  induction items generalizing args with
  | nil => rfl
  | cons e items ih =>
    obtain ⟨hkey,-,-,-⟩ := h e List.mem_cons_self
    have hrest := ih fun e' he => h e' (List.mem_cons_of_mem e he)
    obtain ⟨key,_ | value⟩ := e
    · have hstep : addArg args (queryToken (key,none)) = args := by
        rw [addArg,queryToken,strstr_absent hkey]
      rw [List.map_cons,List.foldl_cons,hstep,hrest]
      rfl
    · have hstep : addArg args (queryToken (key,some value)) = args.insert key value := by
        rw [addArg,queryToken,strstr_first hkey]
        simp only [List.take_left' rfl,List.drop_length_add_append,List.drop_succ_cons,List.drop_zero]
      rw [List.map_cons,List.foldl_cons,hstep,hrest]
      rfl

private theorem splitOn_items (items : List (List UInt8 × Option (List UInt8))) (h : ∀ e ∈ items, QueryItem e)
    (args : Table (List UInt8) (List UInt8)) :
    (([38].intercalate (items.map queryToken)).splitOn 38).foldl addArg args =
      (items.map queryToken).foldl addArg args := by
  by_cases hnil : items = []
  · rw [hnil]
    rfl
  · rw [List.splitOn_intercalate]
    · intro tok htok
      obtain ⟨e,he,rfl⟩ := List.mem_map.mp htok
      obtain ⟨-,hkey,-,hvalue⟩ := h e he
      obtain ⟨key,_ | value⟩ := e
      · exact hkey
      · simp [queryToken,hkey,(hvalue value rfl).1]
    · simpa using hnil

private theorem free_items (items : List (List UInt8 × Option (List UInt8))) (h : ∀ e ∈ items, QueryItem e) :
    0 ∉ [38].intercalate (items.map queryToken) := by
  induction items with
  | nil => simp
  | cons e items ih =>
    have hrest := ih fun e' he => h e' (List.mem_cons_of_mem e he)
    have htok : 0 ∉ queryToken e := by
      obtain ⟨-,-,hkey,hvalue⟩ := h e List.mem_cons_self
      obtain ⟨key,_ | value⟩ := e
      · exact hkey
      · simp [queryToken,hkey,(hvalue value rfl).2]
    rw [List.map_cons]
    by_cases hnil : items = []
    · simp [hnil,htok]
    · rw [List.intercalate_cons_of_ne_nil (by simpa using hnil),List.mem_append,List.mem_append]
      simp [htok,hrest]

/-- Decoding: every key has the value of its first occurrence, and nothing else has one. -/
theorem query_decoded (mem : Buffer) {cli : HttpCli} {path : List UInt8}
    {items : List (List UInt8 × Option (List UInt8))} (hpath : 63 ∉ path) (hitems : ∀ e ∈ items, QueryItem e)
    (huri : cli.uri = some (path ++ 63 :: [38].intercalate (items.map queryToken)))
    (hfresh : cli.queryStringArgs = []) :
    (httpSetPathIn mem cli).path = some path ∧
      (∀ key, httpGetQuerystring (httpSetPathIn mem cli) key = (queryPairs items).get key) ∧
      (Table.keys (httpSetPathIn mem cli).queryStringArgs).Nodup := by
  have hsep1 := strstr_first hpath ([38].intercalate (items.map queryToken))
  have hdrop : (path ++ 63 :: [38].intercalate (items.map queryToken)).drop (path.length + 1) =
      [38].intercalate (items.map queryToken) := by
    rw [List.drop_length_add_append,List.drop_succ_cons,List.drop_zero]
  rw [httpSetPathIn_eq mem hfresh]
  · simp only [httpGetQuerystring,httpSetPath,huri,Option.getD_some,hsep1,hdrop,List.take_left' rfl,
      queryArgs_eq,splitOn_items items hitems,addArg_items items hitems,true_and]
    refine ⟨fun key => ?_,?_⟩
    · rw [Table.get_insertAll]
      rfl
    · exact Table.keys_insertAll_nodup _ List.nodup_nil
  · rw [huri,Option.getD_some,hsep1]
    rintro _ ⟨⟩
    rw [hdrop]
    exact free_items items hitems

/-- A repeated key, a text without =, two && and a value with = and ?: /p?a=1&&b&a=2&c==? -/
theorem query_decoded_mixed :
    let items : List (List UInt8 × Option (List UInt8)) :=
      [([97],some [49]),([],none),([98],none),([97],some [50]),([99],some [61,63])]
    let cli : HttpCli := { HttpCli.new with uri := some ([47,112] ++ 63 :: [38].intercalate (items.map queryToken)) }
    httpGetQuerystring (httpSetPathIn (fun _ => 0) cli) [97] = some [49] ∧
      httpGetQuerystring (httpSetPathIn (fun _ => 0) cli) [98] = none := by
  intro items cli
  have hitems : ∀ e ∈ items, QueryItem e := by decide
  obtain ⟨-,hget,-⟩ := @query_decoded (fun _ => 0) cli _ _ (by decide) hitems rfl rfl
  rw [hget,hget]
  exact ⟨rfl,rfl⟩

end Memqueue
