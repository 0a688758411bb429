import Memqueue.Expiry.Index
import Memqueue.Lib.Table

/-! The data model of memqueue_impl.h: queues, messages, consumers and the binders of pollers.
Heaps are total maps with an allocation mark, so a freed object keeps its last contents. -/
namespace Memqueue

/-- NUL-free C strings and message bodies. -/
abbrev Bytes := List UInt8

/-- struct msg. The `expiry_node` field lives in `Expiry.expiryNode`. -/
structure Msg where
  data : Bytes
  refCount : Int
  rev : Int
  new : Bool
  memqueue : Ptr
  expiry : Int
  freed : Bool
  deriving DecidableEq, Repr

/-- struct memqueue_binder: one bind of a poller to a queue, linked into both lists. -/
structure MemqueueBinder where
  rev : Int
  memqueue : Ptr
  cliBinder : Ptr
  includeConsumers : Int
  deriving DecidableEq, Repr

/-- struct memqueue -/
structure Queue where
  rev : Int
  refCount : Int
  maxSize : Int
  dropFromHead : Int
  qId : Bytes
  msgQueue : List Ptr
  memqueueBinders : List MemqueueBinder
  expiry : Nat
  consumerExpiry : Nat
  consumers : Table Bytes Ptr
  msgsInQueue : Int
  freed : Bool
  deriving DecidableEq, Repr

/-- struct consumer -/
structure Consumer where
  consumerId : Bytes
  expiry : Nat
  memqueue : Ptr
  freed : Bool
  deriving DecidableEq, Repr

/-- struct cli_binder; `signalled` is the state of its condition variable. -/
structure CliBinder where
  timeout : Int
  signalled : Bool
  memqueues : List MemqueueBinder
  pendingMsgs : List Ptr
  deriving DecidableEq, Repr

/-- Where a handler is suspended, with the pointer it goes on to use when resumed:
in the write inside memqueue_respond, or a poller also in lthread_cond_wait. -/
inductive Handler where
  | post (q : Ptr)
  | delete (q : Ptr)
  | pollWait (b : Ptr)
  | pollWrite (b : Ptr)
  deriving DecidableEq, Repr

/-- The whole server state around memqueue_ins_t. Two ghost records are kept: `served` lists the
messages put into a response body, `dangling` the queues freed while something still referred to them. -/
structure Ins where
  queueStore : Table Bytes Ptr
  expiry : Expiry
  queues : Ptr → Queue
  nextQueue : Ptr
  msgs : Ptr → Msg
  nextMsg : Ptr
  consumers : Ptr → Consumer
  nextConsumer : Ptr
  clis : Ptr → CliBinder
  nextCli : Ptr
  handlers : List Handler
  served : List Ptr
  dangling : List Ptr

namespace Ins

/-- The state memqueue_init leaves. -/
def init : Ins where
  queueStore := []
  expiry := .empty
  queues _ := ⟨0,0,0,0,[],[],[],0,0,[],0,false⟩
  nextQueue := 0
  msgs _ := ⟨[],0,0,false,0,0,false⟩
  nextMsg := 0
  consumers _ := ⟨[],0,0,false⟩
  nextConsumer := 0
  clis _ := ⟨0,false,[],[]⟩
  nextCli := 0
  handlers := []
  served := []
  dangling := []

def updQueue (s : Ins) (q : Ptr) (f : Queue → Queue) : Ins :=
  { s with queues := Function.update s.queues q (f (s.queues q)) }

def updMsg (s : Ins) (m : Ptr) (f : Msg → Msg) : Ins :=
  { s with msgs := Function.update s.msgs m (f (s.msgs m)) }

def updConsumer (s : Ins) (c : Ptr) (f : Consumer → Consumer) : Ins :=
  { s with consumers := Function.update s.consumers c (f (s.consumers c)) }

def updCli (s : Ins) (b : Ptr) (f : CliBinder → CliBinder) : Ins :=
  { s with clis := Function.update s.clis b (f (s.clis b)) }

/-- The queue a handler will touch directly or through its binders and pending messages. -/
def uses (s : Ins) (q : Ptr) : Handler → Bool
  | .post p => p = q
  | .delete p => p = q
  | .pollWait b => (s.clis b).memqueues.any (fun β => β.memqueue = q) ||
      (s.clis b).pendingMsgs.any (fun m => (s.msgs m).memqueue = q)
  | .pollWrite b => (s.clis b).memqueues.any (fun β => β.memqueue = q) ||
      (s.clis b).pendingMsgs.any (fun m => (s.msgs m).memqueue = q)

/-- Something still refers to `q`: one of its own lists, an expiry tree, or a suspended handler. -/
def referenced (s : Ins) (q : Ptr) : Bool :=
  !(s.queues q).msgQueue.isEmpty || !(s.queues q).consumers.isEmpty ||
  !(s.queues q).memqueueBinders.isEmpty || (s.expiry.indexed .memqueue).contains q ||
  (s.expiry.indexed .msg).any (fun m => (s.msgs m).memqueue = q) ||
  (s.expiry.indexed .consumer).any (fun c => (s.consumers c).memqueue = q) ||
  s.handlers.any (s.uses q)

end Ins

/-- memqueue_ret_t -/
inductive Ret where
  | notFound
  | created
  | exists
  | msgAdded
  | msgs
  | queueInfo
  | timeout
  | deleted
  | full
  | ok
  deriving DecidableEq, Repr

/-- Rows of memqueue_ret[]: response code, ret_str, ret_desc. MEMQUEUE_OK has no row. -/
def memqueueRet : Ret → Nat × String × String
  | .notFound => (404,"MEMQUEUE_NOT_FOUND","memqueue not found")
  | .created => (200,"MEMQUEUE_CREATED","memqueue created successfully")
  | .exists => (200,"MEMQUEUE_EXISTS","memqueue already exists")
  | .msgAdded => (200,"MEMQUEUE_MSG_ADDED","message added successfully")
  | .timeout => (408,"MEMQUEUE_TIMEOUT","poll timed out")
  | .msgs => (200,"MEMQUEUE_MSGS","")
  | .queueInfo => (200,"MEMQUEUE_QUEUE_INFO","Queue information")
  | .deleted => (200,"MEMQUEUE_DELETED","memqueue deleted successfully")
  | .full => (200,"MEMQUEUE_FULL","memqueue is full.")
  | .ok => (0,"","")

/-- One queue's object inside "results". -/
structure QueueResult where
  messages : List Bytes
  rev : Int
  consumers : Option (List Bytes)
  deriving DecidableEq, Repr

/-- The JSON object memqueue_respond sends; an absent member is `none`. -/
structure Response where
  ret : Ret
  respCode : Nat
  version : String
  retStr : String
  error : Option String
  retDesc : Option String
  rev : Option Int
  msgsInQueue : Option Int
  results : Option (Table Bytes QueueResult)
  deriving DecidableEq, Repr

/-- One entry of poll_args.queue_args; a missing q_id is NULL. -/
structure QueueArg where
  qId : Option Bytes
  rev : Int
  latest : Int
  consumerId : Option Bytes
  includeConsumers : Int
  deriving DecidableEq, Repr

/-- struct poll_args, with the first `total` entries of queue_args. -/
structure PollArgs where
  queueArgs : List QueueArg
  timeout : Int
  deriving DecidableEq, Repr

/-- struct memqueue_create_args -/
structure CreateArgs where
  expiry : Nat
  maxSize : Int
  consumerExpiry : Nat
  dropFromHead : Int
  qId : Bytes
  deriving DecidableEq, Repr

end Memqueue
