import Memqueue.Lib.ColorTree
import Memqueue.Lib.Fallible

/-! The expiry index of memqueue_expiry.c: three search trees of deadline nodes.
Clock readings are milliseconds since birth; every deadline is kept as a uint32_t. -/
namespace Memqueue

/-- Addresses of heap objects. Allocation never hands an address out twice. -/
abbrev Ptr := Nat

/-- What ends a run: a failed assertion, a step to an expiry node that was freed, a NULL that is followed, or a
reference count of a freed queue that is counted. `overflow` is for counts that must stay in an int. Other accesses to
freed objects are not faults: the LIST_REMOVEs of an expiring object and of a binder, memqueue_resched after the write
of a POST, and memqueue_free_consumer go on with the last contents; `Ins.dangling` records the queues concerned. -/
inductive Fault where
  | refCount
  | rbInsert
  | freedNode
  | freedQueue
  | nullDeref
  | overflow
  deriving DecidableEq, Repr

/-- obj_type_t -/
inductive ObjType where
  | msg
  | memqueue
  | consumer
  deriving DecidableEq, Repr

/-- struct expiry_node, with its own address standing for the pointer to it. -/
structure ExpiryNode where
  addr : Ptr
  msecs : Nat
  memqueueObjs : List Ptr
  consumerObjs : List Ptr
  msgObjs : List Ptr
  deriving DecidableEq, Repr

namespace ExpiryNode

def objs (n : ExpiryNode) : ObjType → List Ptr
  | .msg => n.msgObjs
  | .memqueue => n.memqueueObjs
  | .consumer => n.consumerObjs

def setObjs (n : ExpiryNode) (type : ObjType) (os : List Ptr) : ExpiryNode :=
  match type with
  | .msg => { n with msgObjs := os }
  | .memqueue => { n with memqueueObjs := os }
  | .consumer => { n with consumerObjs := os }

/-- LIST_EMPTY on all three lists, the test of possibly_node_free. -/
def isEmpty (n : ExpiryNode) : Bool :=
  n.memqueueObjs.isEmpty && n.msgObjs.isEmpty && n.consumerObjs.isEmpty

end ExpiryNode

/-- The part of memqueue_ins_t that the index owns. The `expiry_node` fields of messages,
queues and consumers are gathered in `expiryNode`; `signalled` records a signal on `ins->cond`. -/
structure Expiry where
  root : ObjType → Tree ExpiryNode
  expiryNode : ObjType → Ptr → Option Ptr
  nextNode : Ptr
  signalled : Bool

namespace Expiry

def empty : Expiry := ⟨fun _ => .nil,fun _ _ => none,0,false⟩

def setRoot (e : Expiry) (type : ObjType) (t : Tree ExpiryNode) : Expiry :=
  { e with root := Function.update e.root type t }

def setNode (e : Expiry) (type : ObjType) (obj : Ptr) (n : Option Ptr) : Expiry :=
  { e with expiryNode := Function.update e.expiryNode type (Function.update (e.expiryNode type) obj n) }

/-- lthread_cond_signal on `ins->cond`, when `b` says so. -/
def signalIf (e : Expiry) (b : Bool) : Expiry := { e with signalled := e.signalled || b }

/-- calloc of an expiry node. -/
def allocNode (e : Expiry) : Expiry := { e with nextNode := e.nextNode + 1 }

/-- The objects linked into some node of the tree of their type. -/
def indexed (e : Expiry) (type : ObjType) : List Ptr :=
  (e.root type).inorder.flatMap (fun n => n.objs type)

end Expiry

def rbSearch : Tree ExpiryNode → Nat → Option ExpiryNode
  | .nil, _ => none
  | .node _ l data r, msecs =>
    if msecs < data.msecs then rbSearch l msecs
    else if msecs > data.msecs then rbSearch r msecs
    else some data

/-- The descent of rb_insert and its rb_link_node; `none` is the assert(0) branch. -/
def rbLinkNode : Tree ExpiryNode → ExpiryNode → Option (Tree ExpiryNode)
  | .nil, data => some (.node true .nil data .nil)
  | .node c l this r, data =>
    if this.msecs > data.msecs then (rbLinkNode l data).map (fun l' => .node c l' this r)
    else if this.msecs < data.msecs then (rbLinkNode r data).map (fun r' => .node c l this r')
    else none

def minTimeoutOver (tDiffMsecs : Nat) : List (Tree ExpiryNode) → Nat → Nat
  | [], min => min
  | t :: ts, min =>
    match t.leftmost with
    | none => minTimeoutOver tDiffMsecs ts min
    | some data =>
      if data.msecs > tDiffMsecs then
        minTimeoutOver tDiffMsecs ts
          (if min > data.msecs - tDiffMsecs ∨ min = 0 then data.msecs - tDiffMsecs else min)
      else 1

def schedGetMinTimeout (e : Expiry) (now : Nat) : Nat :=
  minTimeoutOver (now % 2^32) [e.root .msg,e.root .memqueue,e.root .consumer] 0

/-- LIST_INSERT_HEAD into the list of the node at `addr`. -/
def listInsertHead (e : Expiry) (type : ObjType) (addr obj : Ptr) : Expiry :=
  e.setRoot type ((e.root type).map fun n =>
    if n.addr = addr then n.setObjs type (obj :: n.objs type) else n)

/-- LIST_REMOVE: the object unlinks itself from whichever node holds it. -/
def listRemove (e : Expiry) (type : ObjType) (obj : Ptr) : Expiry :=
  e.setRoot type ((e.root type).map fun n => n.setObjs type ((n.objs type).erase obj))

section Rebalanced
variable [Rebalance ExpiryNode]

def rbInsert (t : Tree ExpiryNode) (data : ExpiryNode) : Option (Tree ExpiryNode) :=
  (rbLinkNode t data).map Rebalance.insertColor

/-- The existing-node path links the object and leaves its `expiry_node` as it was. -/
def objSchedExpire (e : Expiry) (now : Nat) (obj : Ptr) (msecs : Nat) (type : ObjType) :
    Except Fault Expiry :=
  let minTimeout := schedGetMinTimeout e now
  let tDiffMsecs := (now + msecs) % 2^32
  let tmp := rbSearch (e.root type) tDiffMsecs
  let e := e.signalIf (minTimeout = 0 ∨ minTimeout > msecs)
  match tmp with
  | none =>
    match rbInsert (e.root type) ⟨e.nextNode,tDiffMsecs,[],[],[]⟩ with
    | none => .error .rbInsert
    | some t =>
      let e' := listInsertHead (e.allocNode.setRoot type t) type e.nextNode obj
      .ok (e'.setNode type obj (some e.nextNode))
  | some n => .ok (listInsertHead e type n.addr obj)

/-- Frees the node at `addr` when all its lists are empty; the flag says that it did, upon which
the caller's pointer becomes NULL. A pointer to a node already freed is a fault. -/
def possiblyNodeFree (e : Expiry) (type : ObjType) (addr : Ptr) : Except Fault (Bool × Expiry) :=
  match (e.root type).inorder.find? (fun n => n.addr = addr) with
  | none => .error .freedNode
  | some n =>
    if n.isEmpty then
      .ok (true,e.setRoot type (Rebalance.erase (fun m => m.addr = addr) (e.root type)))
    else .ok (false,e)

/-- The common body of memqueue_resched and consumer_resched. -/
def resched (e : Expiry) (now : Nat) (obj : Ptr) (expiry : Nat) (type : ObjType) :
    Except Fault Expiry :=
  match e.expiryNode type obj with
  | none => .ok e
  | some addr => do
    let (freed,e) ← possiblyNodeFree (listRemove e type obj) type addr
    let e := if freed then e.setNode type obj none else e
    objSchedExpire e now obj expiry type

def memqueueResched (e : Expiry) (now : Nat) (q : Ptr) (expiry : Nat) : Except Fault Expiry :=
  resched e now q expiry .memqueue

def consumerResched (e : Expiry) (now : Nat) (c : Ptr) (expiry : Nat) : Except Fault Expiry :=
  resched e now c expiry .consumer

end Rebalanced

/-- A program state around the index, with what objs_expire calls for each object it hands over. -/
structure Host (σ : Type) where
  index : σ → Expiry
  setIndex : σ → Expiry → σ
  index_setIndex : ∀ s e, index (setIndex s e) = e
  release : ObjType → σ → Ptr → Except Fault σ

section Expire
variable [Rebalance ExpiryNode] {σ : Type} (host : Host σ)

/-- One turn of LIST_FOREACH_SAFE: unlink, release, clear the back-pointer. -/
def expireObj (type : ObjType) (s : σ) (o : Ptr) : Except Fault σ := do
  let s ← host.release type (host.setIndex s (listRemove (host.index s) type o)) o
  pure (host.setIndex s ((host.index s).setNode type o none))

/-- The walk of objs_expire. The left child is read before the node can be erased, and its own
left child is looked up in whatever shape the tree has by then. -/
def objsExpireFrom (type : ObjType) (tDiffMsecs : Nat) : Nat → Option Ptr → σ → Except Fault σ
  | 0, _, s => .ok s
  | _, none, s => .ok s
  | fuel + 1, some a, s =>
    match ((host.index s).root type).subtree? (fun n => n.addr = a) with
    | none => .error .freedNode
    | some t =>
      match t.top with
      | none => .error .freedNode
      | some data => do
        let node := t.left.top.map ExpiryNode.addr
        if data.msecs ≤ tDiffMsecs then
          let s ← (data.objs type).foldlM (expireObj host type) s
          let (_,e) ← possiblyNodeFree (host.index s) type a
          objsExpireFrom type tDiffMsecs fuel node (host.setIndex s e)
        else
          objsExpireFrom type tDiffMsecs fuel node s

/-- One pass over the tree of `type`. The walk moves left in the in-order sequence at every turn,
so the number of nodes bounds its length. -/
def objsExpire (now : Nat) (type : ObjType) (s : σ) : Except Fault σ :=
  let t := (host.index s).root type
  objsExpireFrom host type (now % 2^32) t.inorder.length (t.top.map ExpiryNode.addr) s

end Expire
end Memqueue
