import Memqueue.Json.RoundTrip
import Memqueue.Queue.Creation

/-! The objects that memqueue_respond and memqueue_create_result build, and the texts sent for them. -/
namespace Memqueue
open Ins Fallible

namespace JsonObject
variable {δ : Type}

/-- A change of the value of `key` through a pointer to it. -/
def objectModify (jso : JsonObject δ) (key : List UInt8) (f : JsonObject δ → JsonObject δ) : JsonObject δ :=
  match jso with
  | .object fields => .object (Table.modify fields (cString key) f)
  | jso => jso

end JsonObject

section Functions
variable {δ : Type}

/-- json_str of a literal. -/
def jsonStr (s : String) : JsonObject δ := .newString (bytes s)

/-- The keys of the consumers of `q`, by h_next. -/
def consumersArray (s : Ins) (q : Ptr) : JsonObject δ :=
  (Table.keys (s.queues q).consumers).foldl (fun a key => a.arrayAdd (.newString key)) (.array [])

/-- What is put into `resp_object` for the first pending message of a queue. -/
def newQueueObject (s : Ins) (b : Ptr) (resp : JsonObject δ) (q : Ptr) : JsonObject δ :=
  let queueObject := ((JsonObject.object []).objectAdd (bytes "messages") (.array [])).objectAdd (bytes "rev")
    (.int (s.queues q).rev)
  let resp := resp.objectAdd (s.queues q).qId queueObject
  let includeConsumers := (s.clis b).memqueues.any fun β => β.memqueue = q ∧ β.includeConsumers ≠ 0
  if includeConsumers then
    resp.objectModify (s.queues q).qId fun o => o.objectAdd (bytes "consumers") (consumersArray s q)
  else resp

/-- One turn of the TAILQ_FOREACH of memqueue_create_result. `queue_object` and `messages_array` point into
`resp`. -/
def addPendingMsg (s : Ins) (b : Ptr) (resp : JsonObject δ) (m : Ptr) : JsonObject δ :=
  let q := (s.msgs m).memqueue
  let resp := if (resp.objectGet (s.queues q).qId).isSome then resp else newQueueObject s b resp q
  resp.objectModify (s.queues q).qId fun o =>
    o.objectModify (bytes "messages") fun a => a.arrayAdd (.newString (s.msgs m).data)

/-- memqueue_create_result -/
def memqueueCreateResultObject (s : Ins) (b : Ptr) : JsonObject δ :=
  (s.clis b).pendingMsgs.foldl (addPendingMsg s b) (.object [])

/-- ret_desc and rev, which two cases of memqueue_respond add. -/
def addRev (s : Ins) (ret : Ret) (q : Ptr) (resp : JsonObject δ) : JsonObject δ :=
  (resp.objectAdd (bytes "ret_desc") (jsonStr (memqueueRet ret).2.2)).objectAdd (bytes "rev") (.int (s.queues q).rev)

/-- The object memqueue_respond sends. -/
def memqueueRespondObject (s : Ins) (ret : Ret) (ptr : Ptr) : JsonObject δ :=
  let resp := (JsonObject.object []).objectAdd (bytes "version") (jsonStr "memqueue 1.0")
  let resp := resp.objectAdd (bytes "ret") (jsonStr (memqueueRet ret).2.1)
  -- `case MEMQUEUE_QUEUE_INFO`, which the case before it falls into
  let queueInfo resp := (addRev s ret ptr resp).objectAdd (bytes "msgs_in_queue") (.int (s.queues ptr).msgsInQueue)
  match ret with
  | .notFound | .exists | .timeout | .full => resp.objectAdd (bytes "error") (jsonStr (memqueueRet ret).2.2)
  | .msgs => resp.objectAdd (bytes "results") (memqueueCreateResultObject s ptr)
  | .msgAdded => queueInfo (addRev s ret ptr resp)
  | .queueInfo => queueInfo resp
  | .deleted | .created | .ok => resp

/-- The buffer of the text that memqueue_respond copies and sends. -/
def memqueueRespondText (δ : Type) [DoubleFormat δ] (junk : Buffer) (s : Ins) (ret : Ret) (ptr : Ptr) :
    Option Printbuf :=
  JsonObject.jsonObjectToJsonString none junk (memqueueRespondObject s ret ptr : JsonObject δ)

end Functions

section Contents
variable {δ : Type}

/-- A member that is there or not. -/
def optMember {α : Type} (key : String) (f : α → JsonObject δ) (x : Option α) : List (List UInt8 × JsonObject δ) :=
  x.toList.map fun a => (bytes key,f a)

def QueueResult.members (x : QueueResult) : List (List UInt8 × JsonObject δ) :=
  [(bytes "messages",.array (x.messages.map .newString)),(bytes "rev",.int x.rev)] ++
    optMember "consumers" (fun ids => .array (ids.map .newString)) x.consumers

def QueueResult.object (x : QueueResult) : JsonObject δ := .object x.members

def resultsObject (t : Table Bytes QueueResult) : JsonObject δ := .object (Table.mapValues QueueResult.object t)

/-- The members of a response in the order they are sent in. -/
def Response.members (r : Response) : List (List UInt8 × JsonObject δ) :=
  [(bytes "version",jsonStr r.version),(bytes "ret",jsonStr r.retStr)] ++ (optMember "error" jsonStr r.error ++
    (optMember "results" resultsObject r.results ++ (optMember "ret_desc" jsonStr r.retDesc ++
      (optMember "rev" .int r.rev ++ optMember "msgs_in_queue" .int r.msgsInQueue))))

def Response.object (r : Response) : JsonObject δ := .object r.members

theorem consumersArray_eq (s : Ins) (q : Ptr) :
    (consumersArray s q : JsonObject δ) = .array ((Table.keys (s.queues q).consumers).map .newString) := by
  have hfold : ∀ (keys : List Bytes) (items : List (JsonObject δ)),
      keys.foldl (fun (a : JsonObject δ) key => a.arrayAdd (.newString key)) (.array items) =
        .array (items ++ keys.map .newString) := by
    intro keys
    induction keys with
    | nil => intro items; simp
    | cons key keys ih =>
      intro items
      rw [List.foldl_cons,JsonObject.arrayAdd,ih]
      simp
  exact hfold _ []

/-- The message of one turn is added to the messages of its queue. -/
theorem objectModify_messages (x : QueueResult) (data : Bytes) :
    (x.object : JsonObject δ).objectModify (bytes "messages") (fun a => a.arrayAdd (.newString data)) =
      { x with messages := x.messages ++ [data] }.object := by
  obtain ⟨messages,rev,consumers⟩ := x
  have hmap : (messages ++ [data]).map (JsonObject.newString (δ := δ)) = messages.map .newString ++ [.newString data] :=
    List.map_append
  cases consumers with
  | none =>
    rw [QueueResult.object,QueueResult.object,QueueResult.members,QueueResult.members,hmap]
    rfl
  | some ids =>
    rw [QueueResult.object,QueueResult.object,QueueResult.members,QueueResult.members,hmap]
    rfl

theorem newQueueObject_eq (s : Ins) (b : Ptr) {t : Table Bytes QueueResult} {q : Ptr} (hid : 0 ∉ (s.queues q).qId)
    (hnone : t.get (s.queues q).qId = none) :
    newQueueObject s b (resultsObject t : JsonObject δ) q =
      resultsObject (t.insert (s.queues q).qId ⟨[],(s.queues q).rev,
        if (s.clis b).memqueues.any fun β => β.memqueue = q ∧ β.includeConsumers ≠ 0 then
          some (Table.keys (s.queues q).consumers) else none⟩) := by
  have hnone' : (Table.mapValues (QueueResult.object (δ := δ)) t).get (s.queues q).qId = none := by
    rw [Table.get_mapValues,hnone]
    rfl
  have hadd : ∀ x : QueueResult, (resultsObject t : JsonObject δ).objectAdd (s.queues q).qId x.object =
      resultsObject (t.insert (s.queues q).qId x) := by
    intro x
    rw [resultsObject,resultsObject,JsonObject.objectAdd,cString_eq hid,Table.mapValues_insert,Table.put_of_none hnone',
      Table.insert_of_none hnone']
  have hmodify : ∀ (x : QueueResult) (f : JsonObject δ → JsonObject δ) (g : QueueResult → QueueResult),
      f x.object = (g x).object → (resultsObject (t.insert (s.queues q).qId x) : JsonObject δ).objectModify
        (s.queues q).qId f = resultsObject (t.insert (s.queues q).qId (g x)) := by
    intro x f g hfg
    rw [resultsObject,resultsObject,JsonObject.objectModify,cString_eq hid,Table.mapValues_insert,
      Table.modify_insert hnone',hfg,Table.mapValues_insert]
  have hnew : ((JsonObject.object []).objectAdd (bytes "messages") (.array [])).objectAdd (bytes "rev")
      (.int (s.queues q).rev) = (QueueResult.object ⟨[],(s.queues q).rev,none⟩ : JsonObject δ) := rfl
  unfold newQueueObject
  dsimp only
  rw [hnew,hadd]
  split
  · refine hmodify _ _ (fun x => { x with consumers := some (Table.keys (s.queues q).consumers) }) ?_
    rw [consumersArray_eq]
    rfl
  · rfl

/-- A turn adds to the object what it adds to the table of results. -/
theorem addPendingMsg_eq (s : Ins) (b m : Ptr) (t : Table Bytes QueueResult)
    (hid : 0 ∉ (s.queues (s.msgs m).memqueue).qId) :
    (addPendingMsg s b (resultsObject t) m : JsonObject δ) = resultsObject (addResult s b t m) := by
  let add (x : QueueResult) : QueueResult := { x with messages := x.messages ++ [(s.msgs m).data] }
  let addObject (o : JsonObject δ) : JsonObject δ := o.objectModify (bytes "messages") fun a =>
    a.arrayAdd (.newString (s.msgs m).data)
  have hmodify : ∀ u : Table Bytes QueueResult,
      (resultsObject u : JsonObject δ).objectModify (s.queues (s.msgs m).memqueue).qId addObject =
        resultsObject (u.modify (s.queues (s.msgs m).memqueue).qId add) := by
    intro u
    rw [resultsObject,resultsObject,JsonObject.objectModify,cString_eq hid,
      Table.mapValues_modify add addObject fun x => (objectModify_messages x _).symm]
  have hget : (resultsObject t : JsonObject δ).objectGet (s.queues (s.msgs m).memqueue).qId =
      (t.get (s.queues (s.msgs m).memqueue).qId).map QueueResult.object := by
    rw [resultsObject,JsonObject.objectGet,cString_eq hid,Table.get_mapValues]
  unfold addPendingMsg addResult
  dsimp only
  rw [hget]
  cases hx : t.get (s.queues (s.msgs m).memqueue).qId with
  | some x => exact hmodify t
  | none =>
    rw [Option.map_none,Option.isSome_none,if_neg Bool.false_ne_true,newQueueObject_eq s b hid hx,hmodify,
      Table.modify_insert hx]
    rfl

theorem memqueueCreateResultObject_eq (s : Ins) (b : Ptr)
    (hids : ∀ m ∈ (s.clis b).pendingMsgs, 0 ∉ (s.queues (s.msgs m).memqueue).qId) :
    (memqueueCreateResultObject s b : JsonObject δ) = resultsObject (memqueueCreateResult s b) := by
  have hfold : ∀ (ms : List Ptr) (t : Table Bytes QueueResult),
      (∀ m ∈ ms, 0 ∉ (s.queues (s.msgs m).memqueue).qId) →
      ms.foldl (addPendingMsg s b) (resultsObject t : JsonObject δ) = resultsObject (ms.foldl (addResult s b) t) := by
    intro ms
    induction ms with
    | nil => intro t _; rfl
    | cons m ms ih =>
      intro t h
      rw [List.foldl_cons,List.foldl_cons,addPendingMsg_eq s b m t (h m List.mem_cons_self),
        ih _ fun m' hm => h m' (List.mem_cons_of_mem _ hm)]
  exact hfold _ [] hids

/-- The object that memqueue_respond builds call by call, member by member. -/
theorem memqueueRespondObject_eq (s : Ins) (ret : Ret) (ptr : Ptr)
    (hids : ret = .msgs → ∀ m ∈ (s.clis ptr).pendingMsgs, 0 ∉ (s.queues (s.msgs m).memqueue).qId) :
    (memqueueRespondObject s ret ptr : JsonObject δ) = (memqueueRespond s ret ptr).object := by
  cases ret with
  | msgs =>
    have hresults := memqueueCreateResultObject_eq (δ := δ) s ptr (hids rfl)
    unfold memqueueRespondObject
    dsimp only
    rw [hresults]
    rfl
  | notFound | created | «exists» | msgAdded | queueInfo | timeout | deleted | full | ok => rfl

/-- What the members of a response keep to. -/
structure Response.Fits (r : Response) : Prop where
  rev : ∀ n ∈ r.rev, -2^31 ≤ n ∧ n < 2^31
  msgsInQueue : ∀ n ∈ r.msgsInQueue, -2^31 ≤ n ∧ n < 2^31
  distinct : ∀ t ∈ r.results, (Table.keys t).Nodup
  results : ∀ t ∈ r.results, ∀ e ∈ t, 0 ∉ e.1 ∧ -2^31 ≤ e.2.rev ∧ e.2.rev < 2^31

section Members
variable {α : Type} {key : String} {f : α → JsonObject δ} {x : Option α}

theorem mem_optMember {e : List UInt8 × JsonObject δ} : e ∈ optMember key f x ↔ ∃ a ∈ x, (bytes key,f a) = e := by
  simp [optMember]

theorem names_optMember : ((optMember key f x).map Prod.fst).Sublist [bytes key] := by
  cases x with
  | none => exact List.nil_sublist _
  | some a => exact List.Sublist.refl _

end Members

section Values
variable {P : δ → Prop}

/-- An array of strings. -/
theorem strings_ok (ss : List Bytes) : (JsonObject.array (ss.map .newString)).Ok P ∧
    (JsonObject.array (ss.map (JsonObject.newString (δ := δ)))).nesting ≤ 1 := by
  constructor
  · refine JsonObject.itemsOk_iff.mpr fun v hv => ?_
    obtain ⟨s,_,rfl⟩ := List.mem_map.mp hv
    exact zero_not_mem_cString s
  · refine JsonObject.itemsNesting_le.mpr fun v hv => ?_
    obtain ⟨s,_,rfl⟩ := List.mem_map.mp hv
    exact le_rfl

theorem members_ok {fields : List (List UInt8 × JsonObject δ)} {names : List (List UInt8)} {n : Nat}
    (hnames : names.Nodup ∧ ∀ k ∈ names, 0 ∉ k) (hsub : (fields.map Prod.fst).Sublist names)
    (hall : ∀ e ∈ fields, e.2.Ok P ∧ e.2.nesting ≤ n) :
    (JsonObject.object fields).Ok P ∧ (JsonObject.object fields).nesting ≤ n + 1 := by
  refine ⟨⟨hsub.nodup hnames.1,JsonObject.fieldsOk_iff.mpr fun e he => ?_⟩,?_⟩
  · exact ⟨hnames.2 _ (hsub.subset (List.mem_map_of_mem he)),(hall e he).1⟩
  · exact JsonObject.fieldsNesting_le.mpr fun e he => Nat.succ_le_succ (hall e he).2

theorem QueueResult.object_ok {x : QueueResult} (h : -2^31 ≤ x.rev ∧ x.rev < 2^31) :
    (x.object : JsonObject δ).Ok P ∧ (x.object : JsonObject δ).nesting ≤ 2 := by
  have hnames : [bytes "messages",bytes "rev",bytes "consumers"].Nodup ∧
      ∀ k ∈ [bytes "messages",bytes "rev",bytes "consumers"], 0 ∉ k := by decide +kernel
  refine members_ok hnames ?_ fun e he => ?_
  · rw [QueueResult.members,List.map_append]
    exact (List.Sublist.refl [bytes "messages",bytes "rev"]).append names_optMember
  · rcases List.mem_append.mp he with he | he
    · rcases List.mem_cons.mp he with rfl | he
      · exact strings_ok _
      · rw [List.mem_singleton.mp he]
        exact ⟨h,Nat.zero_le 1⟩
    · obtain ⟨ids,_,rfl⟩ := mem_optMember.mp he
      exact strings_ok _

theorem resultsObject_ok {t : Table Bytes QueueResult} (hn : (Table.keys t).Nodup)
    (h : ∀ e ∈ t, 0 ∉ e.1 ∧ -2^31 ≤ e.2.rev ∧ e.2.rev < 2^31) :
    (resultsObject t : JsonObject δ).Ok P ∧ (resultsObject t : JsonObject δ).nesting ≤ 3 := by
  have hnames : (Table.keys t).Nodup ∧ ∀ k ∈ Table.keys t, 0 ∉ k := by
    refine ⟨hn,fun k hk => ?_⟩
    obtain ⟨e,he,rfl⟩ := List.mem_map.mp hk
    exact (h e he).1
  refine members_ok hnames ?_ fun e he => ?_
  · exact (Table.keys_mapValues (QueueResult.object (δ := δ)) t) ▸ List.Sublist.refl _
  · obtain ⟨x,hx,rfl⟩ := List.mem_map.mp he
    exact QueueResult.object_ok (h x hx).2

theorem Response.Fits.ok {r : Response} (h : r.Fits) :
    (r.object : JsonObject δ).Ok P ∧ (r.object : JsonObject δ).nesting ≤ 4 := by
  have hnames : (["version","ret","error","results","ret_desc","rev","msgs_in_queue"].map bytes).Nodup ∧
      ∀ k ∈ ["version","ret","error","results","ret_desc","rev","msgs_in_queue"].map bytes, 0 ∉ k := by decide +kernel
  have hstr : ∀ s : String, (jsonStr s : JsonObject δ).Ok P ∧ (jsonStr s : JsonObject δ).nesting ≤ 3 :=
    fun s => ⟨zero_not_mem_cString _,Nat.zero_le 3⟩
  refine members_ok hnames ?_ fun e he => ?_
  · simp only [Response.members,List.map_append]
    exact (List.Sublist.refl [bytes "version",bytes "ret"]).append (names_optMember.append (names_optMember.append
      (names_optMember.append (names_optMember.append names_optMember))))
  · simp only [Response.members,List.mem_append,List.mem_cons,List.not_mem_nil,or_false,mem_optMember] at he
    rcases he with (rfl | rfl) | ⟨x,_,rfl⟩ | ⟨t,ht,rfl⟩ | ⟨x,_,rfl⟩ | ⟨n,hn,rfl⟩ | ⟨n,hn,rfl⟩
    · exact hstr _
    · exact hstr _
    · exact hstr x
    · exact resultsObject_ok (h.distinct t ht) (h.results t ht)
    · exact hstr x
    · exact ⟨h.rev n hn,Nat.zero_le 3⟩
    · exact ⟨h.msgsInQueue n hn,Nat.zero_le 3⟩

end Values

section Inverse

/-- The strings of a result up to their first NUL. -/
def QueueResult.cut (x : QueueResult) : QueueResult :=
  { x with messages := x.messages.map cString, consumers := x.consumers.map fun ids => ids.map cString }

def Response.cut (r : Response) : Response := { r with results := r.results.map (Table.mapValues QueueResult.cut) }

theorem newString_cut {ss ss' : List Bytes}
    (h : ss.map (JsonObject.newString (δ := δ)) = ss'.map JsonObject.newString) : ss.map cString = ss'.map cString := by
  have hcut : ∀ l : List Bytes, l.map (JsonObject.newString (δ := δ)) = (l.map cString).map .string := by
    intro l
    rw [List.map_map]
    rfl
  rw [hcut,hcut] at h
  exact List.map_injective_iff.mpr (fun _ _ => JsonObject.string.inj) h

theorem optMember_inj {α : Type} {key : String} {f : α → JsonObject δ} {x y : Option α}
    (h : optMember key f x = optMember key f y) : x.map f = y.map f := by
  cases x <;> cases y <;> simp_all [optMember]

/-- Where `f` tells apart what `g` does, it does so for optional values. -/
theorem map_of_map {α β γ : Type} {f : α → β} {g : α → γ} (hfg : ∀ a b, f a = f b → g a = g b) {x y : Option α}
    (h : x.map f = y.map f) : x.map g = y.map g := by
  cases x <;> cases y <;> simp_all only [Option.map_some,Option.map_none,Option.some.injEq,reduceCtorEq]
  exact hfg _ _ h

theorem cut_of_queueObject {x y : QueueResult} (h : (x.object : JsonObject δ) = y.object) : x.cut = y.cut := by
  have hmembers := JsonObject.object.inj h
  simp only [QueueResult.members,List.cons_append,List.nil_append,List.cons.injEq,Prod.mk.injEq,true_and,
    JsonObject.array.injEq,JsonObject.int.injEq] at hmembers
  obtain ⟨hmessages,hrev,hconsumers⟩ := hmembers
  have hids : x.consumers.map (fun ids => ids.map cString) = y.consumers.map fun ids => ids.map cString :=
    map_of_map (fun _ _ he => newString_cut (JsonObject.array.inj he)) (optMember_inj hconsumers)
  rw [QueueResult.cut,QueueResult.cut,newString_cut hmessages,hrev,hids]

theorem cut_of_resultsObject {t u : Table Bytes QueueResult} (h : (resultsObject t : JsonObject δ) = resultsObject u) :
    Table.mapValues QueueResult.cut t = Table.mapValues QueueResult.cut u := by
  have hmap : Table.mapValues (QueueResult.object (δ := δ)) t = Table.mapValues QueueResult.object u :=
    JsonObject.object.inj h
  clear h
  induction t generalizing u with
  | nil =>
    cases u with
    | nil => rfl
    | cons e u => cases hmap
  | cons e t ih =>
    cases u with
    | nil => cases hmap
    | cons e' u =>
      obtain ⟨hhead,htail⟩ := List.cons.inj hmap
      obtain ⟨hkey,hvalue⟩ := Prod.mk.inj hhead
      exact congrArg₂ List.cons (congrArg₂ Prod.mk hkey (cut_of_queueObject hvalue)) (ih htail)

/-- ret_str tells what was answered. -/
theorem ret_of_str {ret ret' : Ret}
    (h : cString (bytes (memqueueRet ret).2.1) = cString (bytes (memqueueRet ret').2.1)) :
    ret = ret' := by
  have hnodup : ([.notFound,.created,.exists,.msgAdded,.msgs,.queueInfo,.timeout,.deleted,.full,.ok].map
      fun ret : Ret => cString (bytes (memqueueRet ret).2.1)).Nodup := by decide +kernel
  exact List.inj_on_of_nodup_map hnodup (by cases ret <;> decide) (by cases ret' <;> decide) h

theorem memqueueRespond_retStr (s : Ins) (ret : Ret) (ptr : Ptr) :
    (memqueueRespond s ret ptr).retStr = (memqueueRet ret).2.1 := by
  cases ret <;> rfl

/-- The object that is sent tells all of the answer but what follows a NUL. -/
theorem cut_of_object {s s' : Ins} {ret ret' : Ret} {ptr ptr' : Ptr}
    (h : ((memqueueRespond s ret ptr).object : JsonObject δ) = (memqueueRespond s' ret' ptr').object) :
    (memqueueRespond s ret ptr).cut = (memqueueRespond s' ret' ptr').cut := by
  have hmembers := JsonObject.object.inj h
  have hret : ret = ret' := by
    have hstr := (List.cons.inj (List.cons.inj hmembers).2).1
    rw [memqueueRespond_retStr,memqueueRespond_retStr] at hstr
    exact ret_of_str (JsonObject.string.inj (Prod.mk.inj hstr).2)
  subst hret
  have hrest := (List.cons.inj (List.cons.inj hmembers).2).2
  cases ret with
  | msgs =>
    have hresults : (resultsObject (memqueueCreateResult s ptr) : JsonObject δ) =
        resultsObject (memqueueCreateResult s' ptr') := (Prod.mk.inj (List.cons.inj hrest).1).2
    have hcut := cut_of_resultsObject hresults
    simp only [memqueueRespond,Response.cut,Option.map_some,hcut]
  | msgAdded | queueInfo =>
    obtain ⟨_,hrest⟩ := List.cons.inj hrest
    obtain ⟨hrev,hrest⟩ := List.cons.inj hrest
    obtain ⟨hmsgs,_⟩ := List.cons.inj hrest
    have hrev' := JsonObject.int.inj (Prod.mk.inj hrev).2
    have hmsgs' := JsonObject.int.inj (Prod.mk.inj hmsgs).2
    simp only [memqueueRespond,addQueueInfo,Response.cut,Option.map_none,hrev',hmsgs']
  | notFound | created | «exists» | timeout | deleted | full | ok => rfl

end Inverse

end Contents

section Runs
variable [Rebalance ExpiryNode]

/-- The ids of queues are C strings. -/
def Ins.Named (s : Ins) : Prop := ∀ q < s.nextQueue, 0 ∉ (s.queues q).qId

/-- The id a PUT gives. -/
def Label.putIds (l : Label) : List Bytes :=
  match l.event with
  | .put args => [args.qId]
  | _ => []

def Label.named (l : Label) : Prop := ∀ k ∈ l.putIds, 0 ∉ k

instance (l : Label) : Decidable l.named := inferInstanceAs (Decidable (∀ k ∈ l.putIds, 0 ∉ k))

/-- Only a PUT gives a queue its id. -/
theorem step_named {s s' : Ins} {l : Label} {out : Option Response} (hc : Coherent s) (hn : s.Named) (hl : l.named)
    (h : step s l = .ok (s',out)) : s'.Named := by
  have hold := (coherent_keeps (fun t => s.nextQueue ≤ t.nextQueue ∧
      ∀ q < s.nextQueue, (t.queues q).qId = (s.queues q).qId)
    hc (fun a t u _ _ ht hm => ⟨ht.1.trans hm.next_le.2.1,fun q hq =>
      (hm.sameQueue (lt_of_lt_of_le hq ht.1)).qId.trans (ht.2 q hq)⟩) ⟨le_rfl,fun _ _ => rfl⟩ h).2
  intro q hq
  rcases Nat.lt_or_ge q s.nextQueue with hlt | hge
  · rw [hold.2 q hlt]
    exact hn q hlt
  · obtain ⟨args,he,hm⟩ := step_put hc.base h hge hq
    cases hm
    have hnew : q = s.nextQueue := Nat.le_antisymm (Nat.le_of_lt_succ hq) hge
    have hid : ((addQueue s args).queues q).qId = args.qId := by
      rw [hnew]
      simp [addQueue,newQueue]
    show 0 ∉ ((addQueue s args).queues q).qId
    rw [hid]
    refine hl args.qId ?_
    rw [Label.putIds,he]
    exact List.mem_singleton_self _

omit [Rebalance ExpiryNode] in
theorem pollRespond_answer {s s' : Ins} {b : Ptr} {r : Response} (h : pollRespond s b = (s',some r)) :
    r = memqueueRespond s' .timeout 0 ∨ r = memqueueRespond s' .msgs b := by
  unfold pollRespond at h
  split at h
  · cases h
    exact .inl rfl
  · cases h
    exact .inr rfl

/-- What is answered is built from the state the step ends in. -/
theorem step_answer {s s' : Ins} {l : Label} {r : Response} (hc : Coherent s) (h : step s l = .ok (s',some r)) :
    ∃ ret ptr, r = memqueueRespond s' ret ptr ∧ (ret = .msgAdded ∨ ret = .queueInfo → ptr < s'.nextQueue) := by
  have hplain : ∀ ret, r = memqueueRespond s' ret 0 → ret ≠ .msgAdded → ret ≠ .queueInfo →
      ∃ ret ptr, r = memqueueRespond s' ret ptr ∧ (ret = .msgAdded ∨ ret = .queueInfo → ptr < s'.nextQueue) := by
    intro ret he h₁ h₂
    exact ⟨ret,0,he,fun h => (h.elim h₁ h₂).elim⟩
  have hpoll : ∀ {t : Ins} {b : Ptr}, pollRespond t b = (s',some r) →
      ∃ ret ptr, r = memqueueRespond s' ret ptr ∧ (ret = .msgAdded ∨ ret = .queueInfo → ptr < s'.nextQueue) := by
    intro t b hp
    rcases pollRespond_answer hp with he | he
    · exact hplain .timeout he (by decide) (by decide)
    · exact ⟨.msgs,b,he,fun h => by rcases h with h | h <;> cases h⟩
  obtain ⟨now,event⟩ := l
  cases event with
  | put args =>
    simp only [step,onQueueCreate] at h
    split at h
    · cases h
      exact hplain .exists rfl (by decide) (by decide)
    · obtain ⟨t,_,h⟩ := bind_ok h
      cases h
      exact hplain .created rfl (by decide) (by decide)
  | post k expiry body =>
    rcases onMsgPost_cases h with ⟨rfl,hnone⟩ | ⟨q,hget,t,full,hfull,hend⟩
    · simp only [step,onMsgPost,hnone] at h
      cases h
      exact hplain .notFound rfl (by decide) (by decide)
    · have hle := (coherent_keeps (fun t => s.nextQueue ≤ t.nextQueue) hc
          (fun _ _ _ _ _ ht hm => ht.trans hm.next_le.2.1)
        le_rfl h).2
      have hlt := lt_of_lt_of_le (hc.base.store.get_iff.mp hget).1 hle
      rcases hend with ⟨_,rfl,he⟩ | ⟨_,u,_,rfl,he⟩
      · exact hplain .full (Option.some.inj he) (by decide) (by decide)
      · exact ⟨.msgAdded,q,Option.some.inj he,fun _ => hlt⟩
  | poll args =>
    simp only [step,memqueuePollQueue] at h
    obtain ⟨⟨t,i,j⟩,_,h⟩ := bind_ok h
    dsimp only at h
    split at h
    · cases h
      exact hplain .notFound rfl (by decide) (by decide)
    · split at h
      · cases h
      · exact hpoll (Except.ok.inj h)
  | delete k =>
    simp only [step,onQueueDelete] at h
    split at h
    · cases h
      exact hplain .notFound rfl (by decide) (by decide)
    · cases h
      exact hplain .deleted rfl (by decide) (by decide)
  | head k =>
    simp only [step,onQueueInfo] at h
    split at h
    · cases h
      exact hplain .notFound rfl (by decide) (by decide)
    · rename_i q hget
      cases h
      exact ⟨.queueInfo,q,rfl,fun _ => (hc.base.store.get_iff.mp hget).1⟩
  | wake b =>
    simp only [step] at h
    split at h
    · exact hpoll (Except.ok.inj h)
    · cases h
  | resumePost p =>
    simp only [step] at h
    split at h
    · obtain ⟨t,_,h⟩ := bind_ok h
      cases h
    · cases h
  | resumeDelete p =>
    simp only [step] at h
    split at h
    · obtain ⟨t,_,h⟩ := bind_ok h
      cases h
    · cases h
  | resumePoll b =>
    simp only [step] at h
    split at h
    · obtain ⟨t,_,h⟩ := bind_ok h
      cases h
    · cases h
  | expire type =>
    obtain ⟨t,_,h⟩ := bind_ok h
    cases h

/-- Results of queues there are, each queue once. -/
structure ResultsOf (s : Ins) (t : Table Bytes QueueResult) : Prop where
  distinct : (Table.keys t).Nodup
  entries : ∀ e ∈ t, ∃ q < s.nextQueue, e.1 = (s.queues q).qId ∧ e.2.rev = (s.queues q).rev

omit [Rebalance ExpiryNode] in
theorem addResult_resultsOf {s : Ins} {b m : Ptr} {t : Table Bytes QueueResult} (h : ResultsOf s t)
    (hm : (s.msgs m).memqueue < s.nextQueue) : ResultsOf s (addResult s b t m) := by
  unfold addResult
  dsimp only
  split
  · refine ⟨Table.keys_insert_nodup h.distinct _ _,fun e he => ?_⟩
    rcases Table.mem_of_insert he with he | rfl
    · exact h.entries e he
    · exact ⟨_,hm,rfl,rfl⟩
  · refine ⟨?_,fun e he => ?_⟩
    · have hkeys := Table.keys_modify t (s.queues (s.msgs m).memqueue).qId fun x : QueueResult =>
        { x with messages := x.messages ++ [(s.msgs m).data] }
      exact hkeys ▸ h.distinct
    · obtain ⟨e₀,he₀,rfl⟩ := List.mem_map.mp he
      split
      · exact h.entries e₀ he₀
      · exact h.entries e₀ he₀

omit [Rebalance ExpiryNode] in
theorem createResult_resultsOf {s : Ins} (b : Ptr) (hb : Base s) (hl : Ledger s) :
    ResultsOf s (memqueueCreateResult s b) := by
  refine List.foldlRecOn (motive := ResultsOf s) _ _ ⟨List.nodup_nil,nofun⟩ fun t ht m hm => ?_
  exact addResult_resultsOf ht (hb.msgOwner m (hl.pending b m hm))

omit [Rebalance ExpiryNode] in
/-- Responses keep to the types of C while no queue holds 2^31 messages. -/
theorem fits_of_stable {s : Ins} {ret : Ret} {ptr : Ptr} (hs : Stable s) (hn : s.Named)
    (hptr : ret = .msgAdded ∨ ret = .queueInfo → ptr < s.nextQueue)
    (hsmall : ∀ q, (s.queues q).msgQueue.length < 2^31) :
    (memqueueRespond s ret ptr).Fits := by
  have hrev : ∀ q < s.nextQueue, -2^31 ≤ (s.queues q).rev ∧ (s.queues q).rev < 2^31 := by
    intro q hq
    rw [hs.revs.rev q hq]
    exact wrapInt_bounds _
  have hcount : ∀ q < s.nextQueue, -2^31 ≤ (s.queues q).msgsInQueue ∧ (s.queues q).msgsInQueue < 2^31 := by
    intro q hq
    have hq' := hsmall q
    rw [hs.revs.count q hq]
    omega
  have hinfo : ∀ x : Response, x.results = none → ptr < s.nextQueue → (addQueueInfo s ret ptr x).Fits := by
    intro x hx hlt
    refine ⟨fun n hn => ?_,fun n hn => ?_,fun t ht => ?_,fun t ht => ?_⟩
    · cases hn
      exact hrev ptr hlt
    · cases hn
      exact hcount ptr hlt
    · exact absurd (hx.symm.trans ht) nofun
    · exact absurd (hx.symm.trans ht) nofun
  cases ret with
  | msgAdded => exact hinfo _ rfl (hptr (.inl rfl))
  | queueInfo => exact hinfo _ rfl (hptr (.inr rfl))
  | msgs =>
    have hresults := createResult_resultsOf ptr hs.base hs.ledger
    refine ⟨nofun,nofun,fun t ht => ?_,fun t ht e he => ?_⟩
    · cases ht
      exact hresults.distinct
    · cases ht
      obtain ⟨q,hq,hid,hr⟩ := hresults.entries e he
      rw [hid,hr]
      exact ⟨hn q hq,hrev q hq⟩
  | notFound | created | «exists» | timeout | deleted | full | ok => exact ⟨nofun,nofun,nofun,nofun⟩

theorem reaches_named {tr : List Label} {s : Ins} (h : Reaches (fun _ l => l.named) tr s) : Coherent s ∧ s.Named :=
  h.invariant (I := fun s => Coherent s ∧ s.Named) (fun _ _ _ _ hi hl hs =>
    ⟨step_coherent hi.1 hs,step_named hi.1 hi.2 hl hs⟩)
    ⟨coherent_init,fun _ hq => absurd hq (Nat.not_lt_zero _)⟩

section Reading
variable {δ : Type} [DoubleFormat δ]

omit [Rebalance ExpiryNode] in
theorem parse_of_fits {r : Response} (h : r.Fits) :
    jsonTokenerParse (r.object : JsonObject δ).text = some (.ok (r.object : JsonObject δ)) :=
  have hok := h.ok (P := Tokener.ReadableDouble) (δ := δ)
  jsonTokenerParse_text hok.1 (Nat.lt_of_le_of_lt hok.2 (by decide))

/-- The string `text` is what memqueue_respond leaves for strdup when it answers `r` in state `s`. -/
def Sends (δ : Type) [DoubleFormat δ] (s : Ins) (r : Response) (text : Bytes) : Prop :=
  ∃ ret ptr junk p, r = memqueueRespond s ret ptr ∧ memqueueRespondText δ junk s ret ptr = some p ∧
    StringAt p.buf 0 text

omit [DoubleFormat δ] in
/-- An answer in a run keeps to the types of C, and its object is what the code builds. -/
theorem reaches_answer {tr : List Label} {s s' : Ins} {l : Label} {r : Response}
    (h : Reaches (fun _ l => l.named) tr s) (hl : l.named) (hstep : step s l = .ok (s',some r))
    (hsmall : ∀ q, (s'.queues q).msgQueue.length < 2^31) :
    (∃ ret ptr, r = memqueueRespond s' ret ptr) ∧ r.Fits ∧
      ∀ ret ptr, (memqueueRespondObject s' ret ptr : JsonObject δ) = (memqueueRespond s' ret ptr).object := by
  obtain ⟨hc,hn⟩ := reaches_named h
  have hc' := step_coherent hc hstep
  have hn' := step_named hc hn hl hstep
  obtain ⟨ret,ptr,rfl,hptr⟩ := step_answer hc hstep
  refine ⟨⟨ret,ptr,rfl⟩,fits_of_stable hc'.toStable hn' hptr hsmall,fun ret ptr => ?_⟩
  exact memqueueRespondObject_eq s' ret ptr fun _ m hm => hn' _ (hc'.base.msgOwner m (hc'.ledger.pending ptr m hm))

omit [Rebalance ExpiryNode] in
/-- The text of an answer below 2^30 bytes goes out whole. -/
theorem respondText_of_fits {s : Ins} {ret : Ret} {ptr : Ptr} (hfits : (memqueueRespond s ret ptr).Fits)
    (hobject : (memqueueRespondObject s ret ptr : JsonObject δ) = (memqueueRespond s ret ptr).object)
    (hlen : ((memqueueRespond s ret ptr).object : JsonObject δ).text.length < 2^30) (junk : Buffer) :
    ∃ p, memqueueRespondText δ junk s ret ptr = some p ∧
      StringAt p.buf 0 ((memqueueRespond s ret ptr).object : JsonObject δ).text := by
  rw [memqueueRespondText,hobject]
  exact stringAt_jsonObjectToJsonString hfits.ok.1 hlen none junk

/-- Whatever the server answers in a run, the text it sends is one C string, which a JSON parser reads as the answer. -/
theorem answer_read_back {tr : List Label} {s s' : Ins} {l : Label} {r : Response}
    (h : Reaches (fun _ l => l.named) tr s) (hl : l.named) (hstep : step s l = .ok (s',some r))
    (hsmall : ∀ q, (s'.queues q).msgQueue.length < 2^31)
    (hlen : (r.object : JsonObject δ).text.length < 2^30) (junk : Buffer) :
    ∃ ret ptr p, r = memqueueRespond s' ret ptr ∧ memqueueRespondText δ junk s' ret ptr = some p ∧
      StringAt p.buf 0 (r.object : JsonObject δ).text ∧
      jsonTokenerParse (r.object : JsonObject δ).text = some (.ok (r.object : JsonObject δ)) := by
  obtain ⟨⟨ret,ptr,rfl⟩,hfits,hobject⟩ := reaches_answer (δ := δ) h hl hstep hsmall
  obtain ⟨p,hp,hstring⟩ := respondText_of_fits hfits (hobject ret ptr) hlen junk
  exact ⟨ret,ptr,p,rfl,hp,hstring,parse_of_fits hfits⟩

/-- An answer is sent as one text alone, the one of its object. -/
theorem sends_iff {tr : List Label} {s s' : Ins} {l : Label} {r : Response}
    (h : Reaches (fun _ l => l.named) tr s) (hl : l.named) (hstep : step s l = .ok (s',some r))
    (hsmall : ∀ q, (s'.queues q).msgQueue.length < 2^31)
    (hlen : (r.object : JsonObject δ).text.length < 2^30) {text : Bytes} :
    Sends δ s' r text ↔ text = (r.object : JsonObject δ).text := by
  obtain ⟨⟨ret₀,ptr₀,hr⟩,hfits,hobject⟩ := reaches_answer (δ := δ) h hl hstep hsmall
  constructor
  · rintro ⟨ret,ptr,junk,p,rfl,hp,hstring⟩
    obtain ⟨p',hp',hstring'⟩ := respondText_of_fits hfits (hobject ret ptr) hlen junk
    obtain rfl := Option.some.inj (hp.symm.trans hp')
    exact hstring.unique hstring'
  · rintro rfl
    subst hr
    obtain ⟨p,hp,hstring⟩ := respondText_of_fits hfits (hobject ret₀ ptr₀) hlen fun _ => 0
    exact ⟨ret₀,ptr₀,_,p,rfl,hp,hstring⟩

end Reading

section Examples

/-- The answer of a poll that asks for the consumers of a queue with one message and none of them. -/
def pollAnswer (body : Bytes) : Response :=
  ⟨.msgs,200,"memqueue 1.0","MEMQUEUE_MSGS",none,none,none,none,some [([113],⟨[body],1,some []⟩)]⟩

omit [Rebalance ExpiryNode] in
theorem polled {body : Bytes} (hbody : body ∈ [[104,34],[104,0,1],[104,0,2]]) :
    letI := Rebalance.plain ExpiryNode
    ∃ s s', Reaches (fun _ l => l.named) [⟨0,.put ⟨0,0,0,0,[113]⟩⟩,⟨1,.post [113] (-1) body⟩] s ∧
      step s ⟨2,.poll ⟨[⟨some [113],0,0,none,1⟩],1000⟩⟩ = .ok (s',some (pollAnswer body)) ∧
      ∀ q, (s'.queues q).msgQueue.length < 2^31 := by
  let _ := Rebalance.plain ExpiryNode
  have hrun : (execStep step (fun _ l => decide l.named) .init [⟨0,.put ⟨0,0,0,0,[113]⟩⟩,⟨1,.post [113] (-1) body⟩]
      ⟨2,.poll ⟨[⟨some [113],0,0,none,1⟩],1000⟩⟩).map
        (fun x => (x.2.1.nextQueue,(x.2.1.queues 0).msgQueue,x.2.2)) = some (1,[0],some (pollAnswer body)) := by
    revert hbody body
    decide +kernel
  obtain ⟨⟨s,s',out⟩,hs,hobs⟩ := Option.map_eq_some_iff.mp hrun
  simp only [Prod.mk.injEq] at hobs
  obtain ⟨hnext,hqueue,rfl⟩ := hobs
  obtain ⟨hreach,hstep⟩ := Run.of_execStep hs
  have hr : Reaches (fun _ l => l.named) _ s := hreach.mono fun _ _ hg => by simpa using hg
  refine ⟨s,s',hr,hstep,fun q => ?_⟩
  rcases Nat.eq_zero_or_pos q with rfl | hpos
  · rw [hqueue]
    decide
  · rw [((step_coherent (reaches_coherent hr) hstep).base.store.blank q (hnext ▸ hpos)).2.1]
    decide

omit [Rebalance ExpiryNode] in
/-- A message with a quote in it. -/
theorem answer_read_back_quote :
    letI := Rebalance.plain ExpiryNode
    ∃ s s', step s ⟨2,.poll ⟨[⟨some [113],0,0,none,1⟩],1000⟩⟩ = .ok (s',some (pollAnswer [104,34])) ∧
      ∃ ret ptr p, pollAnswer [104,34] = memqueueRespond s' ret ptr ∧
        memqueueRespondText Millionths (fun _ => 7) s' ret ptr = some p ∧
        StringAt p.buf 0 ((pollAnswer [104,34]).object : JsonObject Millionths).text ∧
        jsonTokenerParse ((pollAnswer [104,34]).object : JsonObject Millionths).text =
          some (.ok ((pollAnswer [104,34]).object : JsonObject Millionths)) := by
  let _ := Rebalance.plain ExpiryNode
  obtain ⟨s,s',hr,hstep,hsmall⟩ := @polled [104,34] (by decide)
  exact ⟨s,s',hstep,answer_read_back hr (by decide) hstep hsmall (by decide +kernel) fun _ => 7⟩

end Examples

section Apart
variable {δ : Type} [DoubleFormat δ]

/-- Two answers in whatever runs that are sent as the same text are the same, up to what follows a NUL in a message. -/
theorem answers_told_apart {tr tr' : List Label} {s s' t t' : Ins} {l l' : Label} {r r' : Response} {text : Bytes}
    (h : Reaches (fun _ l => l.named) tr s) (hl : l.named) (hstep : step s l = .ok (s',some r))
    (hsmall : ∀ q, (s'.queues q).msgQueue.length < 2^31)
    (hlen : (r.object : JsonObject δ).text.length < 2^30)
    (h' : Reaches (fun _ l => l.named) tr' t) (hl' : l'.named) (hstep' : step t l' = .ok (t',some r'))
    (hsmall' : ∀ q, (t'.queues q).msgQueue.length < 2^31)
    (hlen' : (r'.object : JsonObject δ).text.length < 2^30)
    (hs : Sends δ s' r text) (hs' : Sends δ t' r' text) : r.cut = r'.cut := by
  have hsame : (r.object : JsonObject δ).text = (r'.object : JsonObject δ).text :=
    ((sends_iff h hl hstep hsmall hlen).mp hs).symm.trans ((sends_iff h' hl' hstep' hsmall' hlen').mp hs')
  obtain ⟨⟨ret,ptr,rfl⟩,hfits,_⟩ := reaches_answer (δ := δ) h hl hstep hsmall
  obtain ⟨⟨ret',ptr',rfl⟩,hfits',_⟩ := reaches_answer (δ := δ) h' hl' hstep' hsmall'
  have hparse := parse_of_fits (δ := δ) hfits
  rw [hsame,parse_of_fits hfits'] at hparse
  exact cut_of_object (Except.ok.inj (Option.some.inj hparse)).symm

omit [Rebalance ExpiryNode] in
/-- Two messages that only differ after a NUL. -/
theorem answers_told_apart_nul :
    letI := Rebalance.plain ExpiryNode
    (∃ s' t' text, Sends Millionths s' (pollAnswer [104,0,1]) text ∧ Sends Millionths t' (pollAnswer [104,0,2]) text) ∧
      (pollAnswer [104,0,1]).cut = (pollAnswer [104,0,2]).cut := by
  let _ := Rebalance.plain ExpiryNode
  obtain ⟨s,s',hr,hstep,hsmall⟩ := @polled [104,0,1] (by decide)
  obtain ⟨t,t',hr',hstep',hsmall'⟩ := @polled [104,0,2] (by decide)
  have hlen : ((pollAnswer [104,0,1]).object : JsonObject Millionths).text.length < 2^30 := by decide +kernel
  have hlen' : ((pollAnswer [104,0,2]).object : JsonObject Millionths).text.length < 2^30 := by decide +kernel
  have hs := (sends_iff hr (by decide) hstep hsmall hlen).mpr rfl
  have hs' := (sends_iff hr' (by decide) hstep' hsmall' hlen').mpr
    (show ((pollAnswer [104,0,1]).object : JsonObject Millionths).text = _ by decide +kernel)
  exact ⟨⟨s',t',_,hs,hs'⟩,answers_told_apart hr (by decide) hstep hsmall hlen hr'
    (by decide) hstep' hsmall' hlen' hs hs'⟩

end Apart

end Runs
end Memqueue
