import Memqueue.Queue.Operations

/-! The request handlers cut at their yield points, and the server as a labelled step.
Any suspended handler may go on at any time; the cleaner may run any pass at any time. -/
namespace Memqueue
open Ins Fallible

section System
variable [Rebalance ExpiryNode] [Counting]

def onQueueCreate (now : Nat) (s : Ins) (args : CreateArgs) :
    Except Fault (Ins × Option Response) :=
  match s.queueStore.get args.qId with
  | some _ => .ok (s,some (memqueueRespond s .exists 0))
  | none => do
    let s ← memqueueCreate now s args
    pure (s,some (memqueueRespond s .created 0))

/-- on_msg_post up to the write; memqueue_resched follows in `resumePost`. -/
def onMsgPost (now : Nat) (s : Ins) (qId : Bytes) (expiry : Int) (body : Bytes) :
    Except Fault (Ins × Option Response) :=
  match s.queueStore.get qId with
  | none => .ok (s,some (memqueueRespond s .notFound 0))
  | some q => do
    let (s,full) ← isMemqueueFull s q
    if full then
      pure ({ s with handlers := .post q :: s.handlers },some (memqueueRespond s .full 0))
    else do
      let s ← memqueueMsgCreate now s q expiry body
      pure ({ s with handlers := .post q :: s.handlers },some (memqueueRespond s .msgAdded q))

def resumePost (now : Nat) (s : Ins) (q : Ptr) : Except Fault Ins := do
  let e ← memqueueResched s.expiry now q (s.queues q).expiry
  pure { s with expiry := e }

def onQueueInfo (s : Ins) (qId : Bytes) : Ins × Option Response :=
  match s.queueStore.get qId with
  | none => (s,some (memqueueRespond s .notFound 0))
  | some q => (s,some (memqueueRespond s .queueInfo q))

/-- on_queue_delete up to the write; memqueue_release follows. -/
def onQueueDelete (s : Ins) (qId : Bytes) : Ins × Option Response :=
  match s.queueStore.get qId with
  | none => (s,some (memqueueRespond s .notFound 0))
  | some q => ({ s with handlers := .delete q :: s.handlers },some (memqueueRespond s .deleted 0))

/-- Where memqueue_poll_queue stands in its loop: state, total_msgs, total_bound_queues. -/
abbrev PollAcc := Ins × Nat × Nat

/-- memqueue_refresh_consumer is called only for a queue with consumer_expiry and a given id. -/
def pollRefresh (now : Nat) (s : Ins) (q : Ptr) (a : QueueArg) : Except Fault Ins :=
  match a.consumerId with
  | some consumerId =>
    if (s.queues q).consumerExpiry ≠ 0 then memqueueRefreshConsumer now s q consumerId else pure s
  | none => pure s

/-- The revision a poller is bound at: the one asked for, or -1 when the queue is not there yet. -/
def pollRev (s : Ins) (q : Ptr) (a : QueueArg) : Int :=
  if (s.queues q).rev < a.rev then -1 else a.rev

/-- The loop body of memqueue_poll_queue for a queue that was found. -/
def pollFound (now : Nat) (b : Ptr) (a : QueueArg) (s : Ins) (q : Ptr) :
    Except Fault (Ins × Nat) := do
  let s ← pollRefresh now s q a
  let e ← memqueueResched s.expiry now q (s.queues q).expiry
  let s := { s with expiry := e }
  let rev := pollRev s q a
  let s := memqueueBind s q b rev a.includeConsumers
  cliBinderEnqueueMsgs s b q rev a.latest

/-- One turn of the loop of memqueue_poll_queue. -/
def pollQueueArg (now : Nat) (b : Ptr) (acc : PollAcc) (a : QueueArg) : Except Fault PollAcc :=
  match a.qId with
  | none => .error .nullDeref
  | some qId =>
    match acc.1.queueStore.get qId with
    | none => pure acc
    | some q => do
      let (s,n) ← pollFound now b a acc.1 q
      pure (s,acc.2.1 + n,acc.2.2 + 1)

/-- The end of memqueue_poll_queue up to its write: MEMQUEUE_MSGS or MEMQUEUE_TIMEOUT. -/
def pollRespond (s : Ins) (b : Ptr) : Ins × Option Response :=
  if (s.clis b).pendingMsgs.isEmpty then
    ({ s with handlers := .pollWrite b :: s.handlers },some (memqueueRespond s .timeout 0))
  else
    ({ s with handlers := .pollWrite b :: s.handlers, served := (s.clis b).pendingMsgs ++ s.served },
      some (memqueueRespond s .msgs b))

def memqueuePollQueue (now : Nat) (s : Ins) (args : PollArgs) :
    Except Fault (Ins × Option Response) := do
  let b := s.nextCli
  let s := { s with
    clis := Function.update s.clis b ⟨args.timeout,false,[],[]⟩
    nextCli := b + 1 }
  let (s,totalMsgs,totalBoundQueues) ← args.queueArgs.foldlM (pollQueueArg now b) (s,0,0)
  if totalBoundQueues = 0 then pure (s,some (memqueueRespond s .notFound 0))
  else if totalMsgs = 0 then pure ({ s with handlers := .pollWait b :: s.handlers },none)
  else pure (pollRespond s b)

/-- What a poller does after its write. -/
def pollFinish (s : Ins) (b : Ptr) : Except Fault Ins :=
  cliBinderReleasePendingMsgs (memqueueUnbindAll s b) b

/-- Requests, the return of lthread_cond_wait, the end of a write, and the cleaner's passes. -/
inductive Event where
  | put (args : CreateArgs)
  | post (qId : Bytes) (expiry : Int) (body : Bytes)
  | poll (args : PollArgs)
  | delete (qId : Bytes)
  | head (qId : Bytes)
  | wake (b : Ptr)
  | resumePost (q : Ptr)
  | resumeDelete (q : Ptr)
  | resumePoll (b : Ptr)
  | expire (type : ObjType)
  deriving DecidableEq, Repr

structure Label where
  now : Nat
  event : Event
  deriving DecidableEq, Repr

/-- Takes a handler off the suspended ones. -/
def wakeHandler (s : Ins) (h : Handler) : Ins := { s with handlers := s.handlers.erase h }

/-- One uninterrupted stretch of execution. Resuming what is not suspended does nothing. -/
def step (s : Ins) (l : Label) : Except Fault (Ins × Option Response) :=
  match l.event with
  | .put args => onQueueCreate l.now s args
  | .post qId expiry body => onMsgPost l.now s qId expiry body
  | .poll args => memqueuePollQueue l.now s args
  | .delete qId => .ok (onQueueDelete s qId)
  | .head qId => .ok (onQueueInfo s qId)
  | .wake b =>
    if .pollWait b ∈ s.handlers then .ok (pollRespond (wakeHandler s (.pollWait b)) b)
    else .ok (s,none)
  | .resumePost q =>
    if .post q ∈ s.handlers then do
      let s ← resumePost l.now (wakeHandler s (.post q)) q
      pure (s,none)
    else .ok (s,none)
  | .resumeDelete q =>
    if .delete q ∈ s.handlers then do
      let s ← memqueueRelease (wakeHandler s (.delete q)) q
      pure (s,none)
    else .ok (s,none)
  | .resumePoll b =>
    if .pollWrite b ∈ s.handlers then do
      let s ← pollFinish (wakeHandler s (.pollWrite b)) b
      pure (s,none)
    else .ok (s,none)
  | .expire type => do
    let s ← objsExpire (expiryHost l.now) l.now type s
    pure (s,none)

/-- Runs of the server from memqueue_init, every step under the guard `P`. -/
abbrev Reaches (P : Ins → Label → Prop) (tr : List Label) (s : Ins) : Prop := Run step P .init tr s

end System
end Memqueue
