import Memqueue.Queue.Operations

/-! memqueue_create_result with the variables its loop carries from one message to the next,
and what the object it returns holds for each queue. -/
namespace Memqueue
open Ins

/-- h_next over the consumers of a queue. The cursor counts the items handed out; it is 0 for NULL. -/
def nextConsumerId (t : Table Bytes Ptr) (cursor : Nat) : Option Bytes × Nat :=
  match t[cursor]? with
  | some item => (some item.1,cursor + 1)
  | none => (none,0)

/-- `while ((item = h_next(consumers)))`: the ids handed out, and the cursor behind the NULL. -/
def consumerIds (t : Table Bytes Ptr) : Nat → Nat → List Bytes × Nat
  | 0, cursor => ([],cursor)
  | fuel + 1, cursor =>
    match nextConsumerId t cursor with
    | (some k,cursor) => (k :: (consumerIds t fuel cursor).1,(consumerIds t fuel cursor).2)
    | (none,cursor) => ([],cursor)

/-- resp_object, the key whose array messages_array points to, include_consumers, and `order_next`
in the consumers of each queue. -/
structure ResultScan where
  resp : Table Bytes QueueResult
  messagesArray : Option Bytes
  includeConsumers : Bool
  orderNext : Ptr → Nat

/-- The part of a turn that adds the object of a queue not met before. -/
def addQueueObject (s : Ins) (b q : Ptr) (st : ResultScan) : ResultScan :=
  let qId := (s.queues q).qId
  let resp := st.resp.insert qId ⟨[],(s.queues q).rev,none⟩
  let includeConsumers :=
    st.includeConsumers || (s.clis b).memqueues.any fun β => β.memqueue = q ∧ β.includeConsumers ≠ 0
  if includeConsumers then
    let ids := consumerIds (s.queues q).consumers ((s.queues q).consumers.length + 1) (st.orderNext q)
    { resp := resp.modify qId fun x => { x with consumers := some ids.1 }
      messagesArray := some qId
      includeConsumers := false
      orderNext := Function.update st.orderNext q ids.2 }
  else { st with resp, messagesArray := some qId, includeConsumers }

/-- One turn of the TAILQ_FOREACH, and the json_object_array_add that ends it. -/
def resultTurn (s : Ins) (b : Ptr) (st : ResultScan) (m : Ptr) : ResultScan :=
  let q := (s.msgs m).memqueue
  let st :=
    match st.resp.get (s.queues q).qId with
    | none => addQueueObject s b q st
    | some _ => { st with messagesArray := some (s.queues q).qId }
  match st.messagesArray with
  | some k => { st with resp := st.resp.modify k fun x => { x with messages := x.messages ++ [(s.msgs m).data] } }
  | none => st

def memqueueCreateResultLoop (s : Ins) (b : Ptr) : ResultScan :=
  (s.clis b).pendingMsgs.foldl (resultTurn s b) ⟨[],none,false,fun _ => 0⟩

/-- A whole traversal hands out every id in order and leaves the cursor where it was. -/
theorem consumerIds_all (t : Table Bytes Ptr) : consumerIds t (t.length + 1) 0 = (Table.keys t,0) := by
  have hfrom : ∀ fuel c, c + fuel = t.length + 1 → consumerIds t fuel c =
      (Table.keys (t.drop c),if fuel = 0 then c else 0) := by
    intro fuel
    induction fuel with
    | zero =>
      intro c hc
      rw [List.drop_eq_nil_of_le (by omega)]
      rfl
    | succ fuel ih =>
      intro c hc
      by_cases hlt : c < t.length
      · have hget : t[c]? = some t[c] := List.getElem?_eq_getElem hlt
        have hnext := ih (c + 1) (by omega)
        have hpos : fuel ≠ 0 := by omega
        simp only [consumerIds,nextConsumerId,hget,hnext,hpos,if_false]
        rw [List.drop_eq_getElem_cons hlt]
        rfl
      · have hget : t[c]? = none := List.getElem?_eq_none (by omega)
        rw [List.drop_eq_nil_of_le (by omega)]
        simp only [consumerIds,nextConsumerId,hget]
        rfl
  exact hfrom (t.length + 1) 0 (by omega)

/-- What a poller gets as the consumers of a queue. -/
def resultConsumers (s : Ins) (b q : Ptr) : Option (List Bytes) :=
  if (s.clis b).memqueues.any fun β => β.memqueue = q ∧ β.includeConsumers ≠ 0 then
    some (Table.keys (s.queues q).consumers)
  else none

/-- Between two turns the flag is clear and every cursor is at the start. -/
structure ResultScan.Rested (st : ResultScan) : Prop where
  flag : st.includeConsumers = false
  cursors : ∀ q, st.orderNext q = 0

/-- A turn leaves nothing behind but the object, which it changes as `addResult` does. -/
theorem resultTurn_spec {s : Ins} {b m : Ptr} {st : ResultScan} (h : st.Rested) :
    (resultTurn s b st m).Rested ∧ (resultTurn s b st m).resp = addResult s b st.resp m := by
  simp only [resultTurn,addResult]
  cases hget : st.resp.get (s.queues (s.msgs m).memqueue).qId with
  | some x => exact ⟨⟨h.flag,h.cursors⟩,rfl⟩
  | none =>
    simp only [addQueueObject,h.flag,Bool.false_or,h.cursors,consumerIds_all]
    by_cases hinc : ((s.clis b).memqueues.any fun β =>
        decide (β.memqueue = (s.msgs m).memqueue ∧ β.includeConsumers ≠ 0)) = true
    · simp only [hinc,if_true,Table.modify_insert hget]
      refine ⟨⟨rfl,fun q => ?_⟩,rfl⟩
      simp only [Function.update_apply]
      split
      · rfl
      · exact h.cursors q
    · simp only [hinc,Bool.false_eq_true,if_false,Table.modify_insert hget]
      exact ⟨⟨by simp,h.cursors⟩,rfl⟩

/-- The loop with its carried variables computes the object of memqueue_create_result. -/
theorem createResultLoop_spec (s : Ins) (b : Ptr) :
    (memqueueCreateResultLoop s b).Rested ∧ (memqueueCreateResultLoop s b).resp = memqueueCreateResult s b := by
  have hloop : ∀ (L : List Ptr) (st : ResultScan), st.Rested →
      (L.foldl (resultTurn s b) st).Rested ∧
        (L.foldl (resultTurn s b) st).resp = L.foldl (addResult s b) st.resp := by
    intro L
    induction L with
    | nil => exact fun st h => ⟨h,rfl⟩
    | cons m L ih =>
      intro st h
      obtain ⟨hrest,hresp⟩ := resultTurn_spec (m := m) (s := s) (b := b) h
      rw [List.foldl_cons,List.foldl_cons,← hresp]
      exact ih _ hrest
  exact hloop _ _ ⟨rfl,fun _ => rfl⟩

/-- The object for the messages `P`: one entry for each queue that occurs in it. -/
structure Grouped (s : Ins) (b : Ptr) (P : List Ptr) (R : Table Bytes QueueResult) : Prop where
  nodup : (Table.keys R).Nodup
  keys : ∀ k, k ∈ Table.keys R ↔ ∃ m ∈ P, (s.queues (s.msgs m).memqueue).qId = k
  entry : ∀ m ∈ P, R.get (s.queues (s.msgs m).memqueue).qId =
    some ⟨(P.filter fun p => (s.msgs p).memqueue = (s.msgs m).memqueue).map fun p => (s.msgs p).data,
      (s.queues (s.msgs m).memqueue).rev,resultConsumers s b (s.msgs m).memqueue⟩

/-- The queues of the messages `P` have distinct q_ids. -/
def DistinctIds (s : Ins) (P : List Ptr) : Prop :=
  ∀ m ∈ P, ∀ p ∈ P, (s.queues (s.msgs m).memqueue).qId = (s.queues (s.msgs p).memqueue).qId →
    (s.msgs m).memqueue = (s.msgs p).memqueue

private theorem Grouped.add {s : Ins} {b m : Ptr} {P : List Ptr} {R : Table Bytes QueueResult} (h : Grouped s b P R)
    (hids : DistinctIds s (P ++ [m])) : Grouped s b (P ++ [m]) (addResult s b R m) := by
  have hlast : m ∈ P ++ [m] := List.mem_append_right _ (List.mem_singleton_self m)
  have hfilter : ∀ p, (P ++ [m]).filter (fun p' => (s.msgs p').memqueue = (s.msgs p).memqueue) =
      P.filter (fun p' => (s.msgs p').memqueue = (s.msgs p).memqueue) ++
        if (s.msgs m).memqueue = (s.msgs p).memqueue then [m] else [] := by
    intro p
    rw [List.filter_append,List.filter_singleton]
    split <;> simp_all
  cases hget : R.get (s.queues (s.msgs m).memqueue).qId with
  | none =>
    have hnew : ∀ p ∈ P, (s.queues (s.msgs p).memqueue).qId ≠ (s.queues (s.msgs m).memqueue).qId := by
      intro p hp he
      exact Table.get_eq_none.mp hget ((h.keys _).mpr ⟨p,hp,he⟩)
    have hresult : addResult s b R m = R.insert (s.queues (s.msgs m).memqueue).qId
        ⟨[(s.msgs m).data],(s.queues (s.msgs m).memqueue).rev,resultConsumers s b (s.msgs m).memqueue⟩ := by
      simp only [addResult,hget]
      rfl
    rw [hresult]
    refine ⟨Table.keys_insert_nodup h.nodup _ _,fun k => ?_,fun p hp => ?_⟩
    · rw [Table.mem_keys_insert hget,h.keys]
      simp only [List.mem_append,List.mem_singleton]
      constructor
      · rintro (⟨p,hp,he⟩ | rfl)
        · exact ⟨p,.inl hp,he⟩
        · exact ⟨m,.inr rfl,rfl⟩
      · rintro ⟨p,hp | rfl,he⟩
        · exact .inl ⟨p,hp,he⟩
        · exact .inr he.symm
    · rw [hfilter]
      rcases List.mem_append.mp hp with hp | hp
      · have hne : (s.msgs m).memqueue ≠ (s.msgs p).memqueue := fun he => hnew p hp (by rw [he])
        rw [Table.get_insert_of_some (h.entry p hp),if_neg hne,List.append_nil]
      · obtain rfl := List.mem_singleton.mp hp
        have hnone : P.filter (fun p' => (s.msgs p').memqueue = (s.msgs p).memqueue) = [] := by
          rw [List.filter_eq_nil_iff]
          intro p' hp' he
          exact hnew p' hp' (by rw [of_decide_eq_true he])
        rw [Table.get_insert_self hget,hnone,if_pos rfl]
        rfl
  | some x =>
    obtain ⟨p₀,hp₀,hid⟩ := (h.keys _).mp (not_not.mp fun hno => by rw [Table.get_eq_none.mpr hno] at hget; cases hget)
    have hown : (s.msgs p₀).memqueue = (s.msgs m).memqueue := hids p₀ (List.mem_append_left _ hp₀) m hlast hid
    have hresult : addResult s b R m = R.modify (s.queues (s.msgs m).memqueue).qId
        fun x => { x with messages := x.messages ++ [(s.msgs m).data] } := by
      simp only [addResult,hget]
      rfl
    rw [hresult]
    refine ⟨by rw [Table.keys_modify]; exact h.nodup,fun k => ?_,fun p hp => ?_⟩
    · rw [Table.keys_modify,h.keys]
      simp only [List.mem_append,List.mem_singleton]
      constructor
      · rintro ⟨p,hp,he⟩
        exact ⟨p,.inl hp,he⟩
      · rintro ⟨p,hp | rfl,he⟩
        · exact ⟨p,hp,he⟩
        · exact ⟨p₀,hp₀,by rw [hown,he]⟩
    · have hold : R.get (s.queues (s.msgs p).memqueue).qId = some
          ⟨(P.filter fun p' => (s.msgs p').memqueue = (s.msgs p).memqueue).map fun p' => (s.msgs p').data,
            (s.queues (s.msgs p).memqueue).rev,resultConsumers s b (s.msgs p).memqueue⟩ := by
        rcases List.mem_append.mp hp with hp | hp
        · exact h.entry p hp
        · obtain rfl := List.mem_singleton.mp hp
          have := h.entry p₀ hp₀
          rwa [hown] at this
      rw [Table.get_modify,hfilter,hold]
      by_cases he : (s.msgs m).memqueue = (s.msgs p).memqueue
      · simp [he]
      · have hne : (s.queues (s.msgs p).memqueue).qId ≠ (s.queues (s.msgs m).memqueue).qId :=
          fun hid => he (hids m hlast p hp hid.symm)
        simp [he,hne]

/-- Two queues with a consumer each and their messages in turn; only the second is bound with include_consumers. -/
def interleaved : Ins :=
  { Ins.init with
    queues := fun q => { Ins.init.queues q with qId := [q.toUInt8], rev := q, consumers := [([7],q)] }
    msgs := fun m => { Ins.init.msgs m with data := [m.toUInt8], memqueue := m % 2 }
    clis := fun _ => ⟨0,false,[⟨0,0,0,0⟩,⟨0,1,0,1⟩],[0,1,2,3]⟩ }

end Memqueue
