import Memqueue.Lib.CString
import Memqueue.Queue.State

/-! The functions of memqueue.c over the server state. Memory is taken to be available;
everything between two yields of a handler happens at one clock reading. -/
namespace Memqueue
open Ins

/-- The suffix ":joined". -/
def joined : Bytes := [58,106,111,105,110,101,100]

/-- The suffix ":expired". -/
def expired : Bytes := [58,101,120,112,105,114,101,100]

/-- How a ref_count, an int, is stepped up and down: the value stored for a sum. -/
class Counting where
  count : Int → Except Fault Int

namespace Counting

/-- The plain sum, which is what is stored as long as it is in the range of an int. -/
instance exact : Counting := ⟨.ok⟩

/-- What the code stores: an int that wraps around. -/
@[reducible] def wrapping : Counting := ⟨fun n => .ok (wrapInt n)⟩

/-- A sum outside the range of an int is a fault. -/
@[reducible] def checked : Counting := ⟨fun n => if wrapInt n = n then .ok n else .error .overflow⟩

@[simp] theorem exact_bind {α : Type} (n : Int) (f : Int → Except Fault α) : (count n >>= f) = f n := rfl

end Counting

section Counts
variable [Counting]

/-- A freed queue has no reference count left to touch. -/
def memqueueRetain (s : Ins) (q : Ptr) : Except Fault Ins :=
  if (s.queues q).freed then .error .freedQueue
  else do
    let n ← Counting.count ((s.queues q).refCount + 1)
    pure (s.updQueue q fun x => { x with refCount := n })

/-- The tail of memqueue_release once the count is 0: the store entry goes, the registered
consumers and the queue itself are freed. -/
def memqueueFree (s : Ins) (q : Ptr) : Ins :=
  let dangling := if s.referenced q then q :: s.dangling else s.dangling
  let s := { s with queueStore := Table.remove s.queueStore (s.queues q).qId, dangling }
  let s := (s.queues q).consumers.foldl
    (fun s item => s.updConsumer item.2 fun c => { c with freed := true }) s
  s.updQueue q fun x => { x with freed := true }

def memqueueRelease (s : Ins) (q : Ptr) : Except Fault Ins :=
  if (s.queues q).freed then .error .freedQueue
  else do
    let n ← Counting.count ((s.queues q).refCount - 1)
    let s := s.updQueue q fun x => { x with refCount := n }
    if (s.queues q).refCount < 0 then .error .refCount
    else if (s.queues q).refCount = 0 then .ok (memqueueFree s q)
    else .ok s

def memqueueMsgFree (s : Ins) (m : Ptr) : Ins := s.updMsg m fun x => { x with freed := true }

def memqueueMsgRelease (s : Ins) (m : Ptr) : Except Fault Ins := do
  let n ← Counting.count ((s.msgs m).refCount - 1)
  let s := s.updMsg m fun x => { x with new := false, refCount := n }
  let q := (s.msgs m).memqueue
  if (s.msgs m).refCount < 0 then .error .refCount
  else if (s.msgs m).refCount = 0 then do
    let s := s.updQueue q fun x =>
      { x with msgQueue := x.msgQueue.erase m, msgsInQueue := x.msgsInQueue - 1 }
    let s ← memqueueRelease s q
    pure (memqueueMsgFree s m)
  else memqueueRelease s q

def memqueueMsgRetain (s : Ins) (m : Ptr) : Except Fault Ins := do
  let n ← Counting.count ((s.msgs m).refCount + 1)
  memqueueRetain (s.updMsg m fun x => { x with refCount := n }) (s.msgs m).memqueue

def cliBinderEnqueueMsg (s : Ins) (b m : Ptr) : Except Fault Ins :=
  memqueueMsgRetain (s.updCli b fun x => { x with pendingMsgs := x.pendingMsgs ++ [m] }) m

/-- Signalling a condition nobody waits on has no effect. -/
def cliWakeup (s : Ins) (b : Ptr) : Ins :=
  if .pollWait b ∈ s.handlers then s.updCli b fun x => { x with signalled := true } else s

/-- One turn of the LIST_FOREACH over the binders of a queue that got a new message. -/
def pushMsg (m : Ptr) (s : Ins) (β : MemqueueBinder) : Except Fault Ins :=
  if β.rev ≤ (s.queues (s.msgs m).memqueue).rev then do
    let s ← cliBinderEnqueueMsg s β.cliBinder m
    pure (cliWakeup s β.cliBinder)
  else pure s

end Counts

section Handlers
variable [Rebalance ExpiryNode] [Counting]

/-- The object memqueue_msg_create allocates, not yet in any list. -/
def newMsg (s : Ins) (q : Ptr) (msecs : Int) (data : Bytes) : Ins :=
  let s := s.updQueue q fun x => { x with rev := wrapInt (x.rev + 1) }
  { s with
    msgs := Function.update s.msgs s.nextMsg ⟨data,0,(s.queues q).rev,true,q,msecs,false⟩
    nextMsg := s.nextMsg + 1 }

/-- `if (msecs > 0)`: only a message with an expiry is retained by it. -/
def schedMsg (now : Nat) (s : Ins) (m : Ptr) (msecs : Int) : Except Fault Ins :=
  if 0 < msecs then do
    let e ← objSchedExpire s.expiry now m msecs.toNat .msg
    memqueueMsgRetain { s with expiry := e } m
  else pure s

/-- `if (msecs == -1)`: the message stays for good. -/
def keepMsg (s : Ins) (m : Ptr) (msecs : Int) : Except Fault Ins :=
  if msecs = -1 then memqueueMsgRetain s m else pure s

/-- TAILQ_INSERT_TAIL on msg_queue. -/
def appendMsg (s : Ins) (q m : Ptr) : Ins :=
  s.updQueue q fun x => { x with msgQueue := x.msgQueue ++ [m], msgsInQueue := x.msgsInQueue + 1 }

def memqueueMsgCreate (now : Nat) (s : Ins) (q : Ptr) (msecs : Int) (data : Bytes) :
    Except Fault Ins := do
  let m := s.nextMsg
  let s ← schedMsg now (newMsg s q msecs data) m msecs
  let s ← keepMsg s m msecs
  let s := appendMsg s q m
  (s.queues q).memqueueBinders.foldlM (pushMsg m) s

/-- The new consumer_t and its entry in the table of the queue. -/
def newConsumer (s : Ins) (q : Ptr) (consumerId : Bytes) : Ins :=
  let s' := s.updQueue q fun x => { x with consumers := x.consumers.insert consumerId s.nextConsumer }
  { s' with
    consumers := Function.update s.consumers s.nextConsumer
      ⟨consumerId,(s.queues q).consumerExpiry,q,false⟩
    nextConsumer := s.nextConsumer + 1 }

def memqueueRefreshConsumer (now : Nat) (s : Ins) (q : Ptr) (consumerId : Bytes) :
    Except Fault Ins :=
  match (s.queues q).consumers.get consumerId with
  | some c => do
    let e ← consumerResched s.expiry now c (s.consumers c).expiry
    pure { s with expiry := e }
  | none => do
    let c := s.nextConsumer
    let s ← memqueueMsgCreate now (newConsumer s q consumerId) q 2000 (consumerId ++ joined)
    let s ← memqueueRetain s q
    let e ← objSchedExpire s.expiry now c (s.queues q).consumerExpiry .consumer
    pure { s with expiry := e }

def memqueueFreeConsumer (s : Ins) (c : Ptr) : Ins :=
  let s := s.updQueue (s.consumers c).memqueue fun x =>
    { x with consumers := x.consumers.remove (s.consumers c).consumerId }
  s.updConsumer c fun x => { x with freed := true }

def consumerExpired (now : Nat) (s : Ins) (c : Ptr) : Except Fault Ins := do
  let q := (s.consumers c).memqueue
  let s ← memqueueMsgCreate now s q 2000 ((s.consumers c).consumerId ++ expired)
  let s ← memqueueRelease s q
  pure (memqueueFreeConsumer s c)

/-- What objs_expire does with each object, by type. -/
def expiryHost (now : Nat) : Host Ins where
  index s := s.expiry
  setIndex s e := { s with expiry := e }
  index_setIndex _ _ := rfl
  release
    | .msg => memqueueMsgRelease
    | .memqueue => memqueueRelease
    | .consumer => consumerExpired now

/-- The queue object memqueue_create fills in, before any reference to it exists. -/
def newQueue (args : CreateArgs) : Queue where
  rev := 0
  refCount := 0
  maxSize := args.maxSize
  dropFromHead := args.dropFromHead
  qId := args.qId
  msgQueue := []
  memqueueBinders := []
  expiry := args.expiry
  consumerExpiry := args.consumerExpiry
  consumers := []
  msgsInQueue := 0
  freed := false

/-- `if (args->expiry > 0)`: obj_sched_expire on the new queue. -/
def schedQueue (now : Nat) (s : Ins) (q : Ptr) (expiry : Nat) : Except Fault Ins :=
  if expiry > 0 then do
    let e ← objSchedExpire s.expiry now q expiry .memqueue
    pure { s with expiry := e }
  else pure s

def memqueueCreate (now : Nat) (s : Ins) (args : CreateArgs) : Except Fault Ins := do
  let q := s.nextQueue
  let s := { s with queues := Function.update s.queues q (newQueue args), nextQueue := q + 1 }
  let s ← schedQueue now s q args.expiry
  let s ← memqueueRetain s q
  pure { s with queueStore := s.queueStore.insert args.qId q }

end Handlers

/-- One turn of the TAILQ_FOREACH over the pending messages of a poller. -/
def addResult (s : Ins) (b : Ptr) (resp : Table Bytes QueueResult) (m : Ptr) :
    Table Bytes QueueResult :=
  let q := (s.msgs m).memqueue
  let data := (s.msgs m).data
  match resp.get (s.queues q).qId with
  | none =>
    let includeConsumers :=
      (s.clis b).memqueues.any fun β => β.memqueue = q ∧ β.includeConsumers ≠ 0
    let consumers := if includeConsumers then some (Table.keys (s.queues q).consumers) else none
    resp.insert (s.queues q).qId ⟨[data],(s.queues q).rev,consumers⟩
  | some _ => resp.map fun e =>
    if e.1 = (s.queues q).qId then (e.1,{ e.2 with messages := e.2.messages ++ [data] }) else e

def memqueueCreateResult (s : Ins) (b : Ptr) : Table Bytes QueueResult :=
  (s.clis b).pendingMsgs.foldl (addResult s b) []

/-- The members added by `case MEMQUEUE_QUEUE_INFO`, which `case MEMQUEUE_MSG_ADDED` falls into. -/
def addQueueInfo (s : Ins) (ret : Ret) (q : Ptr) (r : Response) : Response :=
  { r with
    retDesc := some (memqueueRet ret).2.2
    rev := some (s.queues q).rev
    msgsInQueue := some (s.queues q).msgsInQueue }

/-- The response built for `ret`; `ptr` is the poller of MEMQUEUE_MSGS and the queue of
MEMQUEUE_MSG_ADDED and MEMQUEUE_QUEUE_INFO, and is not looked at otherwise. -/
def memqueueRespond (s : Ins) (ret : Ret) (ptr : Ptr) : Response :=
  let r : Response := ⟨ret,(memqueueRet ret).1,"memqueue 1.0",(memqueueRet ret).2.1,
    none,none,none,none,none⟩
  match ret with
  | .notFound | .exists | .timeout | .full => { r with error := some (memqueueRet ret).2.2 }
  | .msgs => { r with results := some (memqueueCreateResult s ptr) }
  | .msgAdded | .queueInfo => addQueueInfo s ret ptr r
  | .deleted | .created | .ok => r

def memqueueBind (s : Ins) (q b : Ptr) (rev includeConsumers : Int) : Ins :=
  let β : MemqueueBinder := ⟨rev,q,b,includeConsumers⟩
  let s := s.updCli b fun x => { x with memqueues := β :: x.memqueues }
  s.updQueue q fun x => { x with memqueueBinders := β :: x.memqueueBinders }

/-- One turn of memqueue_unbind_all: both LIST_REMOVEs of a binder. -/
def unbind (b : Ptr) (s : Ins) (β : MemqueueBinder) : Ins :=
  let s := s.updCli b fun x => { x with memqueues := x.memqueues.erase β }
  s.updQueue β.memqueue fun x => { x with memqueueBinders := x.memqueueBinders.erase β }

def memqueueUnbindAll (s : Ins) (b : Ptr) : Ins := (s.clis b).memqueues.foldl (unbind b) s

section Counts
variable [Counting]

/-- One turn of cli_binder_release_pending_msgs. -/
def releasePending (b : Ptr) (s : Ins) (m : Ptr) : Except Fault Ins := do
  let s ← memqueueMsgRelease s m
  pure (s.updCli b fun x => { x with pendingMsgs := x.pendingMsgs.erase m })

def cliBinderReleasePendingMsgs (s : Ins) (b : Ptr) : Except Fault Ins :=
  (s.clis b).pendingMsgs.foldlM (releasePending b) s

/-- One turn of cli_binder_enqueue_msgs, with the running total. -/
def enqueueMatching (b : Ptr) (rev latest : Int) (acc : Ins × Nat) (m : Ptr) :
    Except Fault (Ins × Nat) :=
  if rev < (acc.1.msgs m).rev ∨ (latest ≠ 0 ∧ (acc.1.msgs m).new = true) then do
    let s ← cliBinderEnqueueMsg acc.1 b m
    pure (s,acc.2 + 1)
  else pure acc

def cliBinderEnqueueMsgs (s : Ins) (b q : Ptr) (rev latest : Int) : Except Fault (Ins × Nat) :=
  (s.queues q).msgQueue.foldlM (enqueueMatching b rev latest) (s,0)

def isMemqueueFull (s : Ins) (q : Ptr) : Except Fault (Ins × Bool) :=
  if (s.queues q).maxSize ≤ 0 then .ok (s,false)
  else if (s.queues q).maxSize > (s.queues q).msgsInQueue then .ok (s,false)
  else if (s.queues q).maxSize ≠ 0 ∧ (s.queues q).msgsInQueue ≥ (s.queues q).maxSize ∧
      (s.queues q).dropFromHead ≠ 0 then
    match (s.queues q).msgQueue with
    | [] => .error .nullDeref
    | m :: _ => do
      let s ← memqueueMsgRetain s m
      let s ← memqueueMsgRelease s m
      pure (s,false)
  else .ok (s,true)

end Counts
end Memqueue
