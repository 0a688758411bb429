import Memqueue.Queue.Faults
import Memqueue.Queue.Pollers

/-! A POST to a full queue. It is refused, or the head of the list gives way to the new message;
the drop is a retain and a release of the head, so a head that somebody holds stays. -/
namespace Memqueue
open Ins Fallible Expiry

/-- The POST is answered MEMQUEUE_FULL and changes no queue, no message and no pending list. -/
structure Refused (s s' : Ins) (out : Option Response) : Prop where
  answer : out = some (memqueueRespond s .full 0)
  queues : s'.queues = s.queues
  msgs : s'.msgs = s.msgs
  pending : ∀ b, (s'.clis b).pendingMsgs = (s.clis b).pendingMsgs

/-- The new message stands behind what is left of the list without its head. Every other message is as
it was, and each binder that waits for the new revision gets the new message. -/
structure Replaced (s s' : Ins) (q : Ptr) (body : Bytes) (out : Option Response) : Prop where
  answer : out = some (memqueueRespond s' .msgAdded q)
  msgQueue : (s'.queues q).msgQueue = (s.queues q).msgQueue.tail ++ [s.nextMsg]
  added : (s'.msgs s.nextMsg).data = body ∧ (s'.msgs s.nextMsg).memqueue = q ∧
    (s'.msgs s.nextMsg).rev = nextRev (s.queues q) ∧ (s'.msgs s.nextMsg).new = true
  stay : ∀ m < s.nextMsg, (s.queues q).msgQueue.head? ≠ some m → s'.msgs m = s.msgs m
  pushed : ∀ b, (s'.clis b).pendingMsgs = (s.clis b).pendingMsgs ++
    List.replicate (pushCountTo (s.queues q).memqueueBinders (nextRev (s.queues q)) b) s.nextMsg

/-- What a POST to the full queue `q` is to do. -/
def answersFull (s s' : Ins) (q : Ptr) (body : Bytes) (out : Option Response) : Prop :=
  if (s.queues q).dropFromHead = 0 then Refused s s' out else Replaced s s' q body out

section Steps
variable [Rebalance ExpiryNode] {now : Nat}

omit [Rebalance ExpiryNode] in
/-- The check for room succeeds on a live queue with as many messages as it counts. -/
private theorem isMemqueueFull_isOk {s : Ins} {q : Ptr} (hs : Stable s) (hq : q < s.nextQueue)
    (hlive : (s.queues q).freed = false) : ∃ r, isMemqueueFull s q = .ok r := by
  have hcount := hs.revs.count q hq
  simp only [isMemqueueFull]
  split
  · exact ⟨_,rfl⟩
  · split
    · exact ⟨_,rfl⟩
    · split
      · cases hlist : (s.queues q).msgQueue with
        | nil =>
          rw [hlist,List.length_nil] at hcount
          omega
        | cons m ms =>
          have hin : m ∈ (s.queues q).msgQueue := by rw [hlist]; exact List.mem_cons_self
          have hown := (hs.base.listed q m hin).2
          have hrefs := hs.ledger.refs q m hin hlive
          have hheld := holders_nonneg s m
          have hpos := hs.base.store.positive q hq hlive
          obtain ⟨t,ht⟩ := memqueueMsgRetain_isOk (s := s) (m := m) (by rw [hown]; exact hlive)
          obtain ⟨_,rfl⟩ := memqueueMsgRetain_effect ht
          obtain ⟨u,hu⟩ := memqueueMsgRelease_isOk (s :=
            (s.updMsg m fun x => { x with refCount := x.refCount + 1 }).updQueue
              (s.msgs m).memqueue fun x => { x with refCount := x.refCount + 1 }) (m := m)
            (by simp only [updQueue,updMsg,Function.update_self]; omega)
            (by simpa only [updQueue,updMsg,Function.update_self,hown] using hlive)
            (by simp only [updQueue,updMsg,Function.update_self,hown]; omega)
          simp only [ht]
          exact ⟨(u,false),by simp only [bind,Except.bind,hu]; rfl⟩
      · exact ⟨_,rfl⟩

/-- A POST to a live queue is carried out. -/
private theorem post_isOk {s : Ins} {q : Ptr} (hs : Stable s) (hq : q < s.nextQueue)
    (hlive : (s.queues q).freed = false) (expiry : Int) (body : Bytes) :
    ∃ s' out, step s ⟨now,.post (s.queues q).qId expiry body⟩ = .ok (s',out) := by
  have hget : s.queueStore.get (s.queues q).qId = some q := hs.base.store.get_iff.mpr ⟨hq,hlive,rfl⟩
  obtain ⟨⟨t,full⟩,ht⟩ := isMemqueueFull_isOk hs hq hlive
  simp only [step,onMsgPost,hget,ht]
  cases full with
  | true => exact ⟨_,_,rfl⟩
  | false =>
    have hlive' : (t.queues q).freed = false := by
      rcases isMemqueueFull_cases now hs.base ht with ⟨_,rfl,_⟩ | ⟨_,rfl,_⟩ | ⟨_,_,_,_,m,_,_,hm⟩
      · exact hlive
      · exact hlive
      · exact hm.drop_live hs.base.store hq hlive
    cases hc : memqueueMsgCreate now t q expiry body with
    | ok u =>
      refine ⟨suspend u (.post q),some (memqueueRespond u .msgAdded q),?_⟩
      simp only [bind,Except.bind,hc]
      rfl
    | error f => exact absurd hc (memqueueMsgCreate_fault hlive')

/-- What a dropping POST to a full queue does with the head `m`. -/
private theorem post_dropping {s s' : Ins} {q m : Ptr} {ms : List Ptr} {expiry : Int} {body : Bytes}
    {out : Option Response} (hs : Stable s) (hq : q < s.nextQueue) (hlive : (s.queues q).freed = false)
    (hpos : 0 < (s.queues q).maxSize) (hfull : (s.queues q).maxSize ≤ (s.queues q).msgsInQueue)
    (hdrop : (s.queues q).dropFromHead ≠ 0) (hlist : (s.queues q).msgQueue = m :: ms)
    (h : step s ⟨now,.post (s.queues q).qId expiry body⟩ = .ok (s',out)) :
    ∃ t, Move now (.drop m) s t ∧ ∃ u, Created now q expiry body t u ∧ s' = suspend u (.post q) ∧
      out = some (memqueueRespond u .msgAdded q) := by
  have hget : s.queueStore.get (s.queues q).qId = some q := hs.base.store.get_iff.mpr ⟨hq,hlive,rfl⟩
  rcases onMsgPost_cases h with ⟨_,hnone⟩ | ⟨p,hp,t,full,ht,hend⟩
  · rw [hget] at hnone
    cases hnone
  · obtain rfl := Option.some.inj (hget.symm.trans hp)
    rcases isMemqueueFull_cases now hs.base ht with ⟨_,_,hroom⟩ | ⟨_,_,_,_,hno⟩ | ⟨hf,_,_,_,m',ms',hlist',hm⟩
    · omega
    · exact absurd hno hdrop
    · rw [hlist] at hlist'
      cases hlist'
      rcases hend with ⟨hf',_⟩ | ⟨_,u,hu,hend⟩
      · rw [hf] at hf'
        cases hf'
      · exact ⟨t,hm,u,memqueueMsgCreate_effect hu,hend⟩

/-- A POST to a full queue does what it is to do exactly when the queue does not drop,
or the message at its head has no holder. -/
theorem full_post_iff {P : Ins → Label → Prop} {tr : List Label} {s : Ins} (h : Reaches P tr s) {q : Ptr}
    (hq : q < s.nextQueue) (hlive : (s.queues q).freed = false) (hpos : 0 < (s.queues q).maxSize)
    (hfull : (s.queues q).maxSize ≤ (s.queues q).msgsInQueue) (expiry : Int) (body : Bytes) :
    ∃ s' out, step s ⟨now,.post (s.queues q).qId expiry body⟩ = .ok (s',out) ∧
      (answersFull s s' q body out ↔
        (s.queues q).dropFromHead = 0 ∨ ∀ m ∈ (s.queues q).msgQueue.head?, (s.msgs m).refCount = 0) := by
  have hs := (reaches_coherent h).toStable
  obtain ⟨s',out,hstep⟩ := @post_isOk _ now _ _ hs hq hlive expiry body
  refine ⟨s',out,hstep,?_⟩
  have hget : s.queueStore.get (s.queues q).qId = some q := hs.base.store.get_iff.mpr ⟨hq,hlive,rfl⟩
  by_cases hdrop : (s.queues q).dropFromHead = 0
  · simp only [answersFull,hdrop,if_true,true_or,iff_true]
    rcases onMsgPost_cases hstep with ⟨_,hnone⟩ | ⟨p,hp,t,full,ht,hend⟩
    · rw [hget] at hnone
      cases hnone
    · obtain rfl := Option.some.inj (hget.symm.trans hp)
      rcases isMemqueueFull_cases now hs.base ht with ⟨_,_,hroom⟩ | ⟨hf,rfl,_⟩ | ⟨_,_,_,hno,_⟩
      · omega
      · rcases hend with ⟨_,rfl,hout⟩ | ⟨hf',_⟩
        · exact ⟨hout,rfl,rfl,fun _ => rfl⟩
        · rw [hf] at hf'
          cases hf'
      · exact absurd hdrop hno
  · have hcount := hs.revs.count q hq
    obtain ⟨m,ms,hlist⟩ : ∃ m ms, (s.queues q).msgQueue = m :: ms := by
      apply List.exists_cons_of_ne_nil
      intro hnil
      rw [hnil,List.length_nil] at hcount
      omega
    obtain ⟨t,hm,u,hc,rfl,hout⟩ := post_dropping hs hq hlive hpos hfull hdrop hlist hstep
    obtain ⟨hlost,hin,hclis⟩ := hm.drop_lost
    have hown := (hs.base.listed q m (by rw [hlist]; exact List.mem_cons_self)).2
    have hself := congrFun hlost.queues q
    rw [hown,Function.update_self] at hself
    have hnext : t.nextMsg = s.nextMsg := hlost.nextMsg
    have hafter : (u.queues q).msgQueue = (t.queues q).msgQueue ++ [s.nextMsg] := by
      rw [hc.queues,Function.update_self,hnext]
    simp only [answersFull,hdrop,if_false,false_or,hlist,List.head?_cons,Option.mem_some_iff,forall_eq']
    constructor
    · intro hr
      -- a head that stays makes the list longer by one
      have hlen := congrArg List.length hr.msgQueue
      have hlen' := congrArg List.length hafter
      rw [hlist] at hlen
      simp only [suspend,List.length_append,List.tail_cons,List.length_cons,List.length_nil] at hlen hlen'
      by_contra hne
      have hkeep : (t.queues q).msgQueue = m :: ms := by
        rw [hself]
        simp only [hne,if_false,hlist]
      rw [hkeep,List.length_cons] at hlen'
      omega
    · intro hzero
      have hrev : nextRev (t.queues q) = nextRev (s.queues q) := by
        rw [hself]
        rfl
      have hbind : (t.queues q).memqueueBinders = (s.queues q).memqueueBinders := by rw [hself]
      have hadd := congrFun hc.msgs t.nextMsg
      rw [Function.update_self,hnext] at hadd
      refine ⟨hout,?_,?_,fun p hp hhead => ?_,fun b => ?_⟩
      · show (u.queues q).msgQueue = _
        rw [hafter,hself,hlist]
        simp [hzero]
      · show (u.msgs s.nextMsg).data = body ∧ (u.msgs s.nextMsg).memqueue = q ∧
          (u.msgs s.nextMsg).rev = nextRev (s.queues q) ∧ (u.msgs s.nextMsg).new = true
        rw [hadd]
        exact ⟨rfl,rfl,hrev,rfl⟩
      · show u.msgs p = _
        have hne : p ≠ m := fun he => hhead (by rw [he,hlist]; rfl)
        rw [hc.msgs,hnext,Function.update_of_ne (Nat.ne_of_lt hp),hlost.msgs,Function.update_of_ne hne]
      · show (u.clis b).pendingMsgs = _
        rw [hc.pending,hclis,hbind,hrev,hnext]

end Steps

/-- A queue of size 1 that drops from its head, and a message that stays for good. -/
def heldHead : List Label := [⟨0,.put ⟨0,1,0,1,[113]⟩⟩,⟨1,.post [113] (-1) [1]⟩]

/-- The next POST adds its message and the held head stays. -/
theorem full_post_held :
    letI := Rebalance.plain ExpiryNode
    ∃ s s' out, Reaches (fun _ _ => True) heldHead s ∧ (s.queues 0).freed = false ∧ 0 < s.nextQueue ∧
      0 < (s.queues 0).maxSize ∧ (s.queues 0).maxSize ≤ (s.queues 0).msgsInQueue ∧ (s.queues 0).dropFromHead ≠ 0 ∧
      step s ⟨2,.post [113] 0 [2]⟩ = .ok (s',out) ∧ (s.queues 0).msgQueue = [0] ∧ (s'.queues 0).msgQueue = [0,1] ∧
      ¬ answersFull s s' 0 [2] out := by
  let _ := Rebalance.plain ExpiryNode
  obtain ⟨⟨s,s',out⟩,hs,hobs⟩ := Option.map_eq_some_iff.mp (show (execStep step (fun _ _ => true) .init heldHead
    ⟨2,.post [113] 0 [2]⟩).map (fun r => ((r.1.queues 0).freed,r.1.nextQueue,[(r.1.queues 0).maxSize,
      (r.1.queues 0).msgsInQueue,(r.1.queues 0).dropFromHead],[(r.1.queues 0).msgQueue,(r.2.1.queues 0).msgQueue])) =
    some (false,1,[1,1,1],[[0],[0,1]]) by decide +kernel)
  simp only [Prod.mk.injEq,List.cons.injEq,and_true] at hobs
  obtain ⟨hlive,hn,⟨hmax,hcount,hdrop⟩,hlist,hlist'⟩ := hobs
  obtain ⟨hrun,hstep⟩ := Run.of_execStep hs
  refine ⟨s,s',out,hrun.mono fun _ _ _ => trivial,hlive,by rw [hn]; decide,by rw [hmax]; decide,
    by rw [hmax,hcount],by rw [hdrop]; decide,hstep,hlist,hlist',?_⟩
  intro ha
  simp only [answersFull,hdrop] at ha
  have := ha.msgQueue
  rw [hlist,hlist'] at this
  simp at this

/-- A head with expiry 0 that nobody polled gives way. -/
theorem full_post_replaced :
    letI := Rebalance.plain ExpiryNode
    ∃ s s' out, Reaches (fun _ _ => True) [⟨0,.put ⟨0,1,0,1,[113]⟩⟩,⟨1,.post [113] 0 [1]⟩] s ∧
      step s ⟨2,.post (s.queues 0).qId 0 [2]⟩ = .ok (s',out) ∧ answersFull s s' 0 [2] out := by
  let _ := Rebalance.plain ExpiryNode
  obtain ⟨s,hs,hobs⟩ := Option.map_eq_some_iff.mp (show (exec step (fun _ _ => true) .init
    [⟨0,.put ⟨0,1,0,1,[113]⟩⟩,⟨1,.post [113] 0 [1]⟩]).map (fun s => ((s.queues 0).freed,s.nextQueue,
      [(s.queues 0).maxSize,(s.queues 0).msgsInQueue,(s.msgs 0).refCount],(s.queues 0).msgQueue)) =
    some (false,1,[1,1,0],[0]) by decide +kernel)
  simp only [Prod.mk.injEq,List.cons.injEq,and_true] at hobs
  obtain ⟨hlive,hn,⟨hmax,hcount,href⟩,hlist⟩ := hobs
  have hr : Reaches (fun _ _ => True) _ s := (Run.of_exec hs).mono fun _ _ _ => trivial
  obtain ⟨s',out,hstep,hiff⟩ := @full_post_iff _ 2 _ _ _ hr 0 (by rw [hn]; decide) hlive (by rw [hmax]; decide)
    (by rw [hmax,hcount]) 0 [2]
  refine ⟨s,s',out,hr,hstep,hiff.mpr (.inr ?_)⟩
  intro m hm
  rw [hlist] at hm
  cases hm
  exact href

end Memqueue
