import Memqueue.Queue.Operations
import Memqueue.Lib.CString

/-! args_parser.c: the query string as arguments of a request. The entries of a poll are numbered in the names
of their parameters, and written to an array of 32 as far as the client says. -/
namespace Memqueue

/-- atoi, the long of strtol as an int. -/
def atoi (s : Bytes) : Int := wrapInt (strtol s)

/-- A value as a uint32_t. -/
def wrapU32 (x : Int) : Nat := (x % 2^32).toNat

/-- expiry -/
def expiryField : Bytes := [101,120,112,105,114,121]

/-- consumer_expiry -/
def consumerExpiryField : Bytes := [99,111,110,115,117,109,101,114,95,101,120,112,105,114,121]

/-- max_size -/
def maxSizeField : Bytes := [109,97,120,95,115,105,122,101]

/-- drop_from_head -/
def dropFromHeadField : Bytes := [100,114,111,112,95,102,114,111,109,95,104,101,97,100]

/-- http_get_querystring and atoi; a field that is not given leaves the 0 of the memset. -/
def intField (query : Table Bytes Bytes) (field : Bytes) : Int := ((query.get field).map atoi).getD 0

def argsMemqueueCreatePopulate (qId : Bytes) (query : Table Bytes Bytes) : CreateArgs where
  qId := qId
  maxSize := intField query maxSizeField
  consumerExpiry := wrapU32 (intField query consumerExpiryField)
  expiry := wrapU32 (intField query expiryField)
  dropFromHead := intField query dropFromHeadField

/-- q_id -/
def qIdField : Bytes := [113,95,105,100]

/-- rev -/
def revField : Bytes := [114,101,118]

/-- latest -/
def latestField : Bytes := [108,97,116,101,115,116]

/-- consumer_id -/
def consumerIdField : Bytes := [99,111,110,115,117,109,101,114,95,105,100]

/-- include_consumers -/
def includeConsumersField : Bytes := [105,110,99,108,117,100,101,95,99,111,110,115,117,109,101,114,115]

/-- timeout -/
def timeoutField : Bytes := [116,105,109,101,111,117,116]

/-- The array `fields` of args_memqueue_poll_populate. -/
def pollFields : List Bytes :=
  [qIdField,revField,latestField,consumerIdField,includeConsumersField,timeoutField]

/-- total_queues -/
def totalQueuesField : Bytes := [116,111,116,97,108,95,113,117,101,117,101,115]

/-- The length of queue_args. -/
abbrev maxQueueArgs : Nat := 32

/-- The memory of a poll_args_t. An entry past the array is an address outside of it; `writes` are the indices of
the stores in their order. -/
structure UserArgs where
  queueArgs : Nat → QueueArg
  timeout : Int
  total : Int
  writes : List Nat

/-- The bytes of the memset. -/
def blankArg : QueueArg := ⟨none,0,0,none,0⟩

/-- asprintf of "%s-%d" -/
def suffixed (field : Bytes) (i : Nat) : Bytes := field ++ 45 :: formatInt i

/-- `fieldname` and what is found under it. The q_id of a path comes from `args`, whose index there is `i`. -/
def fieldvalue (query : Table Bytes Bytes) (args : Option (Table Bytes Bytes)) (i j : Nat) : Option Bytes :=
  match args with
  | none => query.get (suffixed (pollFields.getD j []) i)
  | some args => if j = 0 then args.get (pollFields.getD i []) else query.get (pollFields.getD j [])

/-- The switch over `j`. -/
def setField (a : QueueArg) (j : Nat) (value : Bytes) : QueueArg :=
  match j with
  | 0 => { a with qId := some value }
  | 1 => { a with rev := atoi value }
  | 2 => { a with latest := atoi value }
  | 3 => { a with consumerId := some value }
  | 4 => { a with includeConsumers := atoi value }
  | _ => a

/-- The inner loop for entry `i`. The timeout has a name in the loop, but no case in the switch. -/
def populateArg (query : Table Bytes Bytes) (args : Option (Table Bytes Bytes)) (u : UserArgs) (i : Nat) : UserArgs :=
  (List.range pollFields.length).foldl (fun u j =>
    match fieldvalue query args i j with
    | some value => if j < 5 then { u with
        queueArgs := Function.update u.queueArgs i (setField (u.queueArgs i) j value)
        writes := u.writes ++ [i] } else u
    | none => u) u

def totalQueues (query : Table Bytes Bytes) : Option (Table Bytes Bytes) → Int
  | none => ((query.get totalQueuesField).map atoi).getD 0
  | some _ => 1

def argsMemqueuePollPopulate (query : Table Bytes Bytes) (args : Option (Table Bytes Bytes)) : UserArgs :=
  let total := totalQueues query args
  let u := (List.range total.toNat).foldl (populateArg query args) ⟨fun _ => blankArg,0,0,[]⟩
  { u with total, timeout := ((query.get timeoutField).map atoi).getD (-1) }

namespace UserArgs

/-- The entries memqueue_poll_queue goes through. -/
def reads (u : UserArgs) : List Nat := List.range u.total.toNat

def pollArgs (u : UserArgs) : PollArgs := ⟨u.reads.map u.queueArgs,u.timeout⟩

/-- All stores and loads stay in the array, and every name looked up is there. -/
def InBounds (u : UserArgs) : Prop :=
  (∀ i ∈ u.writes, i < maxQueueArgs) ∧ ∀ i ∈ u.reads, i < maxQueueArgs ∧ (u.queueArgs i).qId ≠ none

end UserArgs

section Populate
variable (query : Table Bytes Bytes) (args : Option (Table Bytes Bytes))

/-- The entry that one turn of the outer loop leaves behind. -/
def readArg (i : Nat) (a : QueueArg) : QueueArg :=
  (List.range pollFields.length).foldl (fun a j => ((fieldvalue query args i j).map (setField a j)).getD a) a

/-- The values of the fields that are there, and zeros. -/
theorem readArg_blank (i : Nat) :
    readArg query args i blankArg = ⟨fieldvalue query args i 0,((fieldvalue query args i 1).map atoi).getD 0,
      ((fieldvalue query args i 2).map atoi).getD 0,fieldvalue query args i 3,
      ((fieldvalue query args i 4).map atoi).getD 0⟩ := by
  have hrange : List.range pollFields.length = [0,1,2,3,4,5] := rfl
  rw [readArg,hrange]
  simp only [List.foldl_cons,List.foldl_nil]
  cases fieldvalue query args i 0 <;> cases fieldvalue query args i 1 <;> cases fieldvalue query args i 2 <;>
    cases fieldvalue query args i 3 <;> cases fieldvalue query args i 4 <;> cases fieldvalue query args i 5 <;> rfl

/-- Of the memory only entry `i` changes, and every store is into it. -/
private theorem populateArg_cases (u : UserArgs) (i : Nat) :
    ∃ ws : List Nat, (∀ k ∈ ws, k = i) ∧ populateArg query args u i =
      { u with queueArgs := Function.update u.queueArgs i (readArg query args i (u.queueArgs i)), writes := u.writes ++
        ws } := by
  rw [populateArg,readArg]
  generalize List.range pollFields.length = js
  induction js generalizing u with
  | nil => exact ⟨[],by simp,by simp⟩
  | cons j js ih =>
    rw [List.foldl_cons,List.foldl_cons]
    cases hv : fieldvalue query args i j with
    | none =>
      exact ih u
    | some value =>
      by_cases hj : j < 5
      · obtain ⟨ws,hws,heq⟩ := ih { u with
          queueArgs := Function.update u.queueArgs i (setField (u.queueArgs i) j value), writes := u.writes ++ [i] }
        refine ⟨i :: ws,List.forall_mem_cons.mpr ⟨rfl,hws⟩,?_⟩
        simp only [if_pos hj]
        rw [heq]
        simp
      · have hkeep : setField (u.queueArgs i) j value = u.queueArgs i := by
          obtain ⟨k,rfl⟩ := Nat.exists_eq_add_of_le' (Nat.le_of_not_lt hj)
          rfl
        obtain ⟨ws,hws,heq⟩ := ih u
        refine ⟨ws,hws,?_⟩
        simp only [if_neg hj]
        rw [heq]
        simp [hkeep]

/-- The loop over `k` entries fills these and writes nowhere else. -/
private theorem populate_loop (k : Nat) :
    let u := (List.range k).foldl (populateArg query args) ⟨fun _ => blankArg,0,0,[]⟩
    (∀ i, u.queueArgs i = if i < k then readArg query args i blankArg else blankArg) ∧ ∀ i ∈ u.writes, i < k := by
  induction k with
  | zero => exact ⟨fun i => rfl,by simp⟩
  | succ k ih =>
    obtain ⟨hentry,hwrites⟩ := ih
    rw [List.range_succ,List.foldl_append]
    set u := (List.range k).foldl (populateArg query args) ⟨fun _ => blankArg,0,0,[]⟩ with hu
    obtain ⟨ws,hws,heq⟩ := populateArg_cases query args u k
    simp only [List.foldl_cons,List.foldl_nil,heq]
    constructor
    · intro i
      by_cases hi : i = k
      · rw [hi,Function.update_self,hentry k,if_neg (by omega),if_pos (by omega)]
      · have hiff : i < k + 1 ↔ i < k := by omega
        simp only [Function.update_of_ne hi,hentry i,hiff]
    · intro i hi
      rcases List.mem_append.mp hi with hmem | hmem
      · exact (hwrites i hmem).trans (Nat.lt_succ_self k)
      · rw [hws i hmem]
        exact Nat.lt_succ_self k

@[simp] theorem populate_total : (argsMemqueuePollPopulate query args).total = totalQueues query args := rfl

theorem populate_entry (i : Nat) : (argsMemqueuePollPopulate query args).queueArgs i =
    if i < (totalQueues query args).toNat then readArg query args i blankArg else blankArg :=
  (populate_loop query args _).1 i

theorem populate_writes {i : Nat} (h : i ∈ (argsMemqueuePollPopulate query args).writes) :
    i < (totalQueues query args).toNat := (populate_loop query args _).2 i h

theorem mem_reads {i : Nat} :
    i ∈ (argsMemqueuePollPopulate query args).reads ↔ i < (totalQueues query args).toNat := List.mem_range

/-- What a client has to send for its poll to stay in bounds. -/
def PollFits : Option (Table Bytes Bytes) → Prop
  | none => ∀ text, query.get totalQueuesField = some text → atoi text ≤ maxQueueArgs ∧
      ∀ i : Nat, (i : Int) < atoi text → query.get (suffixed qIdField i) ≠ none
  | some args => args.get qIdField ≠ none

/-- A poll stays in bounds exactly if it asks for 32 queues at most and names each of them. -/
theorem populate_inBounds_iff : (argsMemqueuePollPopulate query args).InBounds ↔ PollFits query args := by
  have hname : ∀ i < (totalQueues query args).toNat,
      ((argsMemqueuePollPopulate query args).queueArgs i).qId = fieldvalue query args i 0 := by
    intro i hi
    rw [populate_entry,if_pos hi,readArg_blank]
  have hbounds : (argsMemqueuePollPopulate query args).InBounds ↔
      ∀ i < (totalQueues query args).toNat, i < maxQueueArgs ∧ fieldvalue query args i 0 ≠ none := by
    constructor
    · rintro ⟨_,hreads⟩ i hi
      rw [← hname i hi]
      exact hreads i ((mem_reads query args).mpr hi)
    · intro h
      refine ⟨fun i hi => (h i (populate_writes query args hi)).1,fun i hi => ?_⟩
      have hlt := (mem_reads query args).mp hi
      rw [hname i hlt]
      exact h i hlt
  rw [hbounds]
  cases args with
  | some args =>
    constructor
    · intro h
      exact (h 0 Nat.one_pos).2
    · intro h i hi
      have hzero : i = 0 := Nat.lt_one_iff.mp hi
      subst hzero
      exact ⟨by decide,h⟩
  | none =>
    rw [PollFits,totalQueues]
    cases query.get totalQueuesField with
    | none => simp
    | some text =>
      simp only [Option.map_some,Option.getD_some,Option.some.injEq,forall_eq']
      constructor
      · intro h
        refine ⟨?_,fun i hi => (h i (by omega)).2⟩
        by_contra hlt
        have hbig := (h maxQueueArgs (by omega)).1
        omega
      · rintro ⟨hmax,hnames⟩ i hi
        exact ⟨by omega,hnames i (by omega)⟩

end Populate

/-- total_queues=33 with a q_id-32: the store and the load behind the array. -/
theorem poll_out_of_bounds :
    let u := argsMemqueuePollPopulate [(totalQueuesField,[51,51]),(suffixed qIdField 32,[120])] none
    32 ∈ u.writes ∧ 32 ∈ u.reads ∧ ¬ u.InBounds := by
  intro u
  have hwrite : 32 ∈ u.writes := by decide +kernel
  have hread : 32 ∈ u.reads := by decide +kernel
  exact ⟨hwrite,hread,fun h => absurd (h.1 32 hwrite) (by decide)⟩

/-- What a client asks of one queue. -/
structure PollRecord where
  qId : Bytes
  rev : Int
  latest : Int
  consumerId : Option Bytes
  includeConsumers : Int

namespace PollRecord

def arg (r : PollRecord) : QueueArg := ⟨some r.qId,r.rev,r.latest,r.consumerId,r.includeConsumers⟩

/-- The numbers are ints. -/
def InRange (r : PollRecord) : Prop := ∀ x ∈ [r.rev,r.latest,r.includeConsumers], -2^31 ≤ x ∧ x < 2^31

instance (r : PollRecord) : Decidable r.InRange :=
  inferInstanceAs (Decidable (∀ x ∈ [r.rev,r.latest,r.includeConsumers], _))

/-- The fields of a record besides its q_id, under names made from theirs. -/
structure Given (r : PollRecord) (query : Table Bytes Bytes) (name : Bytes → Bytes) : Prop where
  rev : query.get (name revField) = some (formatInt r.rev)
  latest : query.get (name latestField) = some (formatInt r.latest)
  consumerId : query.get (name consumerIdField) = r.consumerId
  includeConsumers : query.get (name includeConsumersField) = some (formatInt r.includeConsumers)

end PollRecord

/-- A query string that asks for these records; what else it holds does not matter. -/
structure Encodes (query : Table Bytes Bytes) (records : List PollRecord) : Prop where
  total : query.get totalQueuesField = some (formatInt records.length)
  qId : ∀ i (h : i < records.length), query.get (suffixed qIdField i) = some (records[i]).qId
  given : ∀ i (h : i < records.length), (records[i]).Given query fun field => suffixed field i

theorem atoi_formatInt {x : Int} (hmin : -2^31 ≤ x) (hmax : x < 2^31) : atoi (formatInt x) = x := by
  rw [atoi,strtol_formatInt (by omega) (by omega)]
  exact wrapInt_of_bounds hmin hmax

section RoundTrip
variable {query : Table Bytes Bytes}

/-- An entry is the record whose fields are found for it, by whichever names. -/
private theorem readArg_given {args : Option (Table Bytes Bytes)} {r : PollRecord} {i : Nat} (hr : r.InRange)
    (hq : fieldvalue query args i 0 = some r.qId) (hrev : fieldvalue query args i 1 = some (formatInt r.rev))
    (hlatest : fieldvalue query args i 2 = some (formatInt r.latest)) (hcons : fieldvalue query args i 3 = r.consumerId)
    (hincl : fieldvalue query args i 4 = some (formatInt r.includeConsumers)) :
    readArg query args i blankArg = r.arg := by
  have hint : ∀ x ∈ [r.rev,r.latest,r.includeConsumers], atoi (formatInt x) = x :=
    fun x hx => atoi_formatInt (hr x hx).1 (hr x hx).2
  rw [readArg_blank,hq,hrev,hlatest,hcons,hincl]
  simp only [Option.map_some,Option.getD_some,hint _ (List.mem_cons_self),PollRecord.arg]
  rw [hint r.latest (by simp),hint r.includeConsumers (by simp)]

private theorem populateArg_congr {query' : Table Bytes Bytes} {args args' : Option (Table Bytes Bytes)} {i : Nat}
    (h : ∀ j < 5, fieldvalue query args i j = fieldvalue query' args' i j) (u : UserArgs) :
    populateArg query args u i = populateArg query' args' u i := by
  rw [populateArg,populateArg]
  refine List.foldl_ext _ _ _ fun u j hj => ?_
  by_cases hlt : j < 5
  · rw [h j hlt]
  · simp only [if_neg hlt]
    split
    · split
      · rfl
      · rfl
    · split
      · rfl
      · rfl

variable {records : List PollRecord}

theorem Encodes.totalQueues_eq (h : Encodes query records) (hlen : records.length ≤ maxQueueArgs) :
    totalQueues query none = records.length := by
  rw [totalQueues,h.total,Option.map_some,Option.getD_some]
  have hmax : records.length ≤ 32 := hlen
  exact atoi_formatInt (by omega) (by omega)

/-- The round trip: exactly the records of the client, in their order, and zeros after them. A single record is
read the same from the path and the unsuffixed names of a single poll. -/
theorem mpoll_agrees (hlen : records.length ≤ maxQueueArgs) (hrange : ∀ r ∈ records, r.InRange)
    (h : Encodes query records) :
    (argsMemqueuePollPopulate query none).total = records.length ∧
    (argsMemqueuePollPopulate query none).pollArgs.queueArgs = records.map PollRecord.arg ∧
    (∀ i, records.length ≤ i → (argsMemqueuePollPopulate query none).queueArgs i = blankArg) ∧
    ∀ (r : PollRecord) (query' args' : Table Bytes Bytes), records = [r] → args'.get qIdField = some r.qId →
      r.Given query' (fun field => field) → query'.get timeoutField = query.get timeoutField →
      argsMemqueuePollPopulate query none = argsMemqueuePollPopulate query' (some args') := by
  have htotal := h.totalQueues_eq hlen
  refine ⟨htotal,?_,?_,?_⟩
  · apply List.ext_getElem
    · simp [UserArgs.pollArgs,UserArgs.reads,htotal]
    · intro i hi hi'
      have hlt : i < records.length := by simpa using hi'
      have hcount : i < (totalQueues query none).toNat := by
        rw [htotal]
        omega
      obtain ⟨hrev,hlatest,hcons,hincl⟩ := h.given i hlt
      simp only [UserArgs.pollArgs,UserArgs.reads,List.getElem_map,List.getElem_range]
      rw [populate_entry,if_pos hcount]
      exact readArg_given (hrange _ (List.getElem_mem hlt)) (h.qId i hlt) hrev hlatest hcons hincl
  · intro i hi
    rw [populate_entry,if_neg]
    rw [htotal]
    omega
  · rintro r query' args' rfl hq hgiven htimeout
    have hrecord := h.given 0 Nat.one_pos
    have hentry : ∀ u, populateArg query none u 0 = populateArg query' (some args') u 0 := by
      refine populateArg_congr fun j hj => ?_
      interval_cases j
      · exact (h.qId 0 Nat.one_pos).trans hq.symm
      · exact hrecord.rev.trans hgiven.rev.symm
      · exact hrecord.latest.trans hgiven.latest.symm
      · exact hrecord.consumerId.trans hgiven.consumerId.symm
      · exact hrecord.includeConsumers.trans hgiven.includeConsumers.symm
    have hone : totalQueues query none = totalQueues query' (some args') := htotal
    have hrange : List.range (totalQueues query' (some args')).toNat = [0] := rfl
    rw [argsMemqueuePollPopulate,argsMemqueuePollPopulate,hone,hrange,htimeout]
    simp only [List.foldl_cons,List.foldl_nil,hentry]

end RoundTrip

section Names

private theorem takeWhile_suffixed {f : Bytes} (hf : 45 ∉ f) (i : Nat) : (suffixed f i).takeWhile (· ≠ 45) = f := by
  rw [suffixed,List.takeWhile_append_of_pos,List.takeWhile_cons_of_neg (by simp),List.append_nil]
  intro c hc
  exact decide_eq_true (ne_of_mem_of_not_mem hc hf)

/-- A name tells its field and its number. -/
theorem suffixed_inj {f g : Bytes} (hf : 45 ∉ f) (hg : 45 ∉ g) {i j : Nat} (h : suffixed f i = suffixed g j) :
    f = g ∧ i = j := by
  have hfield : f = g := by rw [← takeWhile_suffixed hf i,h,takeWhile_suffixed hg]
  refine ⟨hfield,?_⟩
  rw [hfield] at h
  have hnumber : formatInt i = formatInt j := (List.cons.inj (List.append_cancel_left h)).2
  have hdecimal : decimal i = decimal j := by simpa using hnumber
  rw [← digits_decimal i,hdecimal,digits_decimal]

/-- The fields of a record with their texts. -/
def PollRecord.fields (r : PollRecord) : Table Bytes Bytes :=
  [(qIdField,r.qId),(revField,formatInt r.rev),(latestField,formatInt r.latest),
    (includeConsumersField,formatInt r.includeConsumers)] ++ (r.consumerId.map fun id => (consumerIdField,id)).toList

/-- The query string of the README for these records. -/
def encodePoll (records : List PollRecord) : Table Bytes Bytes :=
  (totalQueuesField,formatInt records.length) ::
    records.zipIdx.flatMap fun e => e.1.fields.map fun field => (suffixed field.1 e.2,field.2)

private theorem fields_minus_free {r : PollRecord} {f v : Bytes} (h : (f,v) ∈ r.fields) : 45 ∉ f := by
  have hname : f ∈ pollFields := by
    simp only [PollRecord.fields,List.mem_append,List.mem_cons,Prod.mk.injEq,List.not_mem_nil,or_false,
      Option.mem_toList,Option.map_eq_some_iff] at h
    simp only [pollFields,List.mem_cons]
    tauto
  exact (by decide : ∀ f ∈ pollFields, 45 ∉ f) f hname

private theorem mem_encodePoll {records : List PollRecord} {f v : Bytes} (hf : 45 ∉ f) {i : Nat} :
    (suffixed f i,v) ∈ encodePoll records ↔ ∃ h : i < records.length, (f,v) ∈ (records[i]).fields := by
  have htotal : suffixed f i ≠ totalQueuesField := by
    intro h
    have hmem : 45 ∈ suffixed f i := by simp [suffixed]
    rw [h] at hmem
    revert hmem
    decide
  simp only [encodePoll,List.mem_cons,Prod.mk.injEq,htotal,false_and,false_or,List.mem_flatMap,List.mem_map,Prod.exists,
    List.mk_mem_zipIdx_iff_getElem?]
  constructor
  · rintro ⟨r,j,hj,g,w,hg,hname,rfl⟩
    obtain ⟨rfl,rfl⟩ := suffixed_inj (fields_minus_free hg) hf hname
    obtain ⟨hlt,rfl⟩ := List.getElem?_eq_some_iff.mp hj
    exact ⟨hlt,hg⟩
  · rintro ⟨hlt,hmem⟩
    exact ⟨records[i],i,List.getElem?_eq_getElem hlt,f,v,hmem,rfl,rfl⟩

private theorem fields_nodup (r : PollRecord) : (Table.keys r.fields).Nodup := by
  cases h : r.consumerId with
  | none =>
    rw [PollRecord.fields,h]
    exact (by decide : [qIdField,revField,latestField,includeConsumersField].Nodup)
  | some id =>
    rw [PollRecord.fields,h]
    exact (by decide : [qIdField,revField,latestField,includeConsumersField,consumerIdField].Nodup)

/-- An entry of the encoding is found under its name, before anything else the query string holds. -/
private theorem encodePoll_get {records : List PollRecord} (others : Table Bytes Bytes) {i : Nat}
    (hi : i < records.length) {f v : Bytes} (h : (f,v) ∈ (records[i]).fields) :
    Table.get (encodePoll records ++ others) (suffixed f i) = some v := by
  have hf := fields_minus_free h
  rw [Table.get_append]
  cases hget : (encodePoll records).get (suffixed f i) with
  | none => exact absurd (List.mem_map.mpr ⟨_,(mem_encodePoll hf).mpr ⟨hi,h⟩,rfl⟩) (Table.get_eq_none.mp hget)
  | some w =>
    obtain ⟨_,hw⟩ := (mem_encodePoll hf).mp (Table.mem_of_get hget)
    have hn := fields_nodup records[i]
    rw [← Table.get_of_mem hn hw,Table.get_of_mem hn h,Option.some_or]

/-- Its names do not collide, and it may stand among any other parameters. -/
theorem encodes_encodePoll (records : List PollRecord) (others : Table Bytes Bytes)
    (hothers : ∀ i, others.get (suffixed consumerIdField i) = none) :
    Encodes (encodePoll records ++ others) records := by
  refine ⟨?_,fun i hi => ?_,fun i hi => ⟨?_,?_,?_,?_⟩⟩
  · rw [Table.get_append]
    simp [encodePoll,Table.get]
  · exact encodePoll_get others hi (by simp [PollRecord.fields])
  · exact encodePoll_get others hi (by simp [PollRecord.fields])
  · exact encodePoll_get others hi (by simp [PollRecord.fields])
  · cases hc : (records[i]).consumerId with
    | some id => exact encodePoll_get others hi (by simp [PollRecord.fields,hc])
    | none =>
      rw [Table.get_append,hothers i,Option.or_none,Table.get_eq_none]
      intro hkey
      obtain ⟨⟨_,v⟩,hmem,rfl⟩ := List.mem_map.mp hkey
      obtain ⟨_,hfield⟩ := (mem_encodePoll (by decide)).mp hmem
      have hne : consumerIdField ≠ qIdField ∧ consumerIdField ≠ revField ∧ consumerIdField ≠ latestField ∧
          consumerIdField ≠ includeConsumersField := by decide
      simp [PollRecord.fields,hc,hne] at hfield
  · exact encodePoll_get others hi (by simp [PollRecord.fields])

end Names

/-- Two queues, one of them with a consumer, in a query string that also holds a timeout. -/
theorem mpoll_agrees_two :
    let records : List PollRecord := [⟨[97],-1,1,none,0⟩,⟨[98],12,0,some [99],1⟩]
    let others : Table Bytes Bytes := [(timeoutField,[53])]
    let query := encodePoll records ++ others
    (argsMemqueuePollPopulate query none).pollArgs.queueArgs =
      [⟨some [97],-1,1,none,0⟩,⟨some [98],12,0,some [99],1⟩] := by
  intro records others query
  have hothers : ∀ i, others.get (suffixed consumerIdField i) = none := by
    intro i
    rw [Table.get_eq_none]
    simp [others,Table.keys,suffixed,consumerIdField,timeoutField]
  exact (mpoll_agrees (by decide) (by decide) (encodes_encodePoll records _ hothers)).2.1

end Memqueue
