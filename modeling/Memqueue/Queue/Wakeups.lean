import Memqueue.Queue.Pollers

/-! Who is left asleep with messages at hand. A poll decides to wait by the messages its own scans have found,
while the notice of a consumer it registers may reach it through a binder of an earlier entry. -/
namespace Memqueue
open Ins Fallible Expiry

/-- memqueue_poll_queue will register a new consumer for this entry. -/
def Ins.registers (u : Ins) (q : Ptr) (a : QueueArg) : Bool :=
  match a.consumerId with
  | some id => (u.queues q).consumerExpiry ≠ 0 && ((u.queues q).consumers.get id).isNone
  | none => false

/-- The queue with the consumer in its table and the notice at its end, and nothing else done. -/
def registered (u : Ins) (q : Ptr) (a : QueueArg) : Ins :=
  match a.consumerId with
  | some id =>
    if u.registers q a then appendMsg (newMsg (newConsumer u q id) q 2000 (id ++ joined)) q u.nextMsg else u
  | none => u

/-- The scan of this entry finds a message. -/
def Ins.finds (u : Ins) (q : Ptr) (a : QueueArg) : Bool :=
  (u.queues q).msgQueue.any (wanted u (pollRev u q a) a.latest)

/-- The entry's notice reaches the poller through an earlier entry, which bound it to `q` at `p.2`. -/
def Ins.selfNotice (u : Ins) (bound : List (Ptr × Int)) (q : Ptr) (a : QueueArg) : Bool :=
  u.registers q a && bound.any fun p => p.1 = q ∧ p.2 ≤ nextRev (u.queues q)

/-- No entry finds a message, but one of them sends the poller a notice of its own. -/
def blindFrom : Ins → List (Ptr × Int) → Bool → List QueueArg → Bool
  | _, _, noticed, [] => noticed
  | u, bound, noticed, a :: as =>
    match a.qId.bind u.queueStore.get with
    | none => blindFrom u bound noticed as
    | some q =>
      !(registered u q a).finds q a &&
        blindFrom (registered u q a) ((q,pollRev (registered u q a) q a) :: bound)
          (noticed || u.selfNotice bound q a) as

def Label.blind (s : Ins) (l : Label) : Bool :=
  match l.event with
  | .poll args => blindFrom s [] false args.queueArgs
  | _ => false

/-- Two states that every poll entry sees alike. -/
structure Agrees (t u : Ins) : Prop where
  store : t.queueStore = u.queueStore
  nextMsg : t.nextMsg = u.nextMsg
  nextConsumer : t.nextConsumer = u.nextConsumer
  queue : ∀ q, (t.queues q).rev = (u.queues q).rev ∧ (t.queues q).msgQueue = (u.queues q).msgQueue ∧
    (t.queues q).consumers = (u.queues q).consumers ∧ (t.queues q).consumerExpiry = (u.queues q).consumerExpiry
  msg : ∀ m, (t.msgs m).rev = (u.msgs m).rev ∧ (t.msgs m).new = (u.msgs m).new

namespace Agrees

theorem pollRev {t u : Ins} (h : Agrees t u) (q : Ptr) (a : QueueArg) : pollRev t q a = Memqueue.pollRev u q a := by
  unfold Memqueue.pollRev
  rw [(h.queue q).1]

theorem wanted {t u : Ins} (h : Agrees t u) (rev latest : Int) :
    wanted t rev latest = Memqueue.wanted u rev latest := by
  funext m
  unfold Memqueue.wanted
  rw [(h.msg m).1,(h.msg m).2]

theorem registers {t u : Ins} (h : Agrees t u) (q : Ptr) (a : QueueArg) : t.registers q a = u.registers q a := by
  unfold Ins.registers
  rw [(h.queue q).2.2.1,(h.queue q).2.2.2]

theorem nextRev {t u : Ins} (h : Agrees t u) (q : Ptr) : nextRev (t.queues q) = Memqueue.nextRev (u.queues q) := by
  unfold Memqueue.nextRev
  rw [(h.queue q).1]

end Agrees

section Moves
variable [Rebalance ExpiryNode] {now : Nat}

/-- Scheduling, binding and enqueuing are not seen by later entries. -/
private theorem Move.agrees {a : Atom} {t t' u : Ins} (h : Move now a t t')
    (hx : (∃ b m, a = .enqueue b m) ∨ a.quiet = true) (hag : Agrees t u) : Agrees t' u := by
  rcases hx with ⟨b,m,rfl⟩ | hquiet
  · cases h with
    | enqueue _ _ he =>
      obtain ⟨_,rfl⟩ := cliBinderEnqueueMsg_effect he
      refine ⟨hag.store,hag.nextMsg,hag.nextConsumer,?_,?_⟩
      · intro q
        obtain ⟨h₁,h₂,h₃,h₄⟩ := hag.queue q
        by_cases hq : q = (t.msgs m).memqueue
        · subst hq
          simpa [updQueue,updMsg,updCli] using ⟨h₁,h₂,h₃,h₄⟩
        · simpa [updQueue,updMsg,updCli,hq] using ⟨h₁,h₂,h₃,h₄⟩
      · intro p
        by_cases hp : p = m
        · subst hp
          simpa [updQueue,updMsg,updCli] using hag.msg p
        · simpa [updQueue,updMsg,updCli,hp] using hag.msg p
  · have hq := h.toQuiet hquiet
    refine ⟨hq.store.trans hag.store,hq.nextMsg.trans hag.nextMsg,hq.nextConsumer.trans hag.nextConsumer,?_,?_⟩
    · intro q
      rw [hq.queues q]
      exact hag.queue q
    · intro m
      rw [hq.msgs]
      exact hag.msg m

private theorem registered_agrees {t t₁ t' u : Ins} {q : Ptr} {id : Bytes} {a : QueueArg} (hid : a.consumerId = some id)
    (hreg : u.registers q a = true) (hcreate : Move now (.create q 2000 (id ++ joined)) t t₁)
    (hjoin : Move now (.join q id) t₁ t') (hag : Agrees t u) : Agrees t' (registered u q a) := by
  have heq : registered u q a = appendMsg (newMsg (newConsumer u q id) q 2000 (id ++ joined)) q u.nextMsg := by
    simp [registered,hid,hreg]
  rw [heq]
  obtain ⟨hr,hm,hc,hce⟩ := hag.queue q
  cases hcreate with
  | create _ _ hcr =>
    cases hjoin with
    | join _ _ _ _ =>
      have hnc : t₁.nextConsumer = t.nextConsumer := hcr.frame.nextConsumer
      refine ⟨?_,?_,?_,?_,?_⟩
      · simpa [setExpiry,addConsumer,newConsumer,newMsg,appendMsg,updQueue,hcr.store] using hag.store
      · simp [setExpiry,addConsumer,newConsumer,newMsg,appendMsg,updQueue,hcr.nextMsg,hag.nextMsg]
      · simp [setExpiry,addConsumer,newConsumer,newMsg,appendMsg,updQueue,hnc,hag.nextConsumer]
      · intro p
        by_cases hp : p = q
        · subst hp
          simp [setExpiry,addConsumer,newConsumer,newMsg,appendMsg,updQueue,hcr.queues,nextRev,hr,hm,hc,hce,hnc,
            hag.nextMsg,
            hag.nextConsumer]
        · simpa [setExpiry,addConsumer,newConsumer,newMsg,appendMsg,updQueue,hcr.queues,hp] using hag.queue p
      · intro m
        by_cases hmm : m = u.nextMsg
        · subst hmm
          simp [setExpiry,addConsumer,newConsumer,newMsg,appendMsg,updQueue,hcr.msgs,hag.nextMsg,nextRev,hr]
        · simpa [setExpiry,addConsumer,newConsumer,newMsg,appendMsg,updQueue,hcr.msgs,hag.nextMsg,hmm] using hag.msg m

/-- A refresh announces a new consumer, or is not seen by later entries. -/
private theorem pollRefresh_registers {t t' : Ins} {q : Ptr} {a : QueueArg} (hb : Base t)
    (hlive : (t.queues q).freed = false) (hq : q < t.nextQueue) (h : pollRefresh now t q a = .ok t') :
    (t.registers q a = false ∧ (t' = t ∨ Move now .touch t t')) ∨
    ∃ id, a.consumerId = some id ∧ t.registers q a = true ∧ ∃ v, Move now (.create q 2000 (id ++ joined)) t v ∧
      Move now (.join q id) v t' := by
  simp only [pollRefresh] at h
  split at h
  · rename_i id hid
    split at h
    · rename_i hce
      rcases memqueueRefreshConsumer_cases hb hlive hq h with ⟨⟨c,hget,_⟩,htouch⟩ | ⟨hnone,hmoves⟩
      · exact .inl ⟨by simp [registers,hid,hget],.inr htouch⟩
      · exact .inr ⟨id,hid,by simp [registers,hid,hce,hnone],hmoves⟩
    · rename_i hce
      cases h
      exact .inl ⟨by simp [registers,hid,hce],.inl rfl⟩
  · rename_i hid
    cases h
    exact .inl ⟨by simp [registers,hid],.inl rfl⟩

private theorem pollLoop_total {b : Ptr} {args : List QueueArg} {acc acc' : PollAcc}
    (h : args.foldlM (pollQueueArg now b) acc = .ok acc') : acc.2.1 ≤ acc'.2.1 := by
  refine foldlM_result (fun _ (x : PollAcc) => acc.2.1 ≤ x.2.1) ?_ le_rfl h
  intro a as x x' hle hx
  obtain ⟨k,_,⟨_,rfl⟩ | ⟨q,n,_,_,heq⟩⟩ := pollQueueArg_cases hx
  · exact hle
  · rw [heq]
    exact hle.trans (Nat.le_add_right _ _)

/-- What the refresh of an entry leaves for the entries after it. -/
private theorem refresh_keeps {t t' u : Ins} {b q : Ptr} {a : QueueArg} {bound : List (Ptr × Int)} (hb : Base t)
    (hlive : (t.queues q).freed = false) (hq : q < t.nextQueue) (hcli : b < t.nextCli) (hag : Agrees t u)
    (hbound : ∀ p r, 0 < pushCountTo (t.queues p).memqueueBinders r b → ∃ x ∈ bound, x.1 = p ∧ x.2 ≤ r)
    (h : pollRefresh now t q a = .ok t') :
    Agrees t' (registered u q a) ∧ (∀ p, (t'.queues p).memqueueBinders = (t.queues p).memqueueBinders) ∧
      (u.selfNotice bound q a = false → (t.clis b).pendingMsgs = [] → (t'.clis b).pendingMsgs = []) := by
  rcases pollRefresh_registers hb hlive hq h with ⟨hno,hsame⟩ | ⟨id,hid,hreg,v,hcreate,hjoin⟩
  · have heq : registered u q a = u := by
      rw [hag.registers] at hno
      unfold registered
      split
      · rw [hno]
        rfl
      · rfl
    rw [heq]
    rcases hsame with rfl | htouch
    · exact ⟨hag,fun _ => rfl,fun _ hp => hp⟩
    · refine ⟨htouch.agrees (.inr rfl) hag,?_,fun _ hp => ((htouch.toQuiet rfl).pending b hcli).trans hp⟩
      cases htouch with
      | touch => exact fun _ => rfl
  · refine ⟨registered_agrees hid (hag.registers q a ▸ hreg) hcreate hjoin hag,?_,?_⟩
    · intro p
      cases hcreate with
      | create _ _ hc =>
        cases hjoin with
        | join =>
          by_cases hp : p = q
          · subst hp
            simp [setExpiry,addConsumer,newConsumer,updQueue,hc.queues]
          · simp [setExpiry,addConsumer,newConsumer,updQueue,hc.queues,hp]
    · intro hself hpend
      have hnone : pushCountTo (t.queues q).memqueueBinders (nextRev (t.queues q)) b = 0 := by
        by_contra hne
        obtain ⟨x,hx,hx₁,hx₂⟩ := hbound q _ (Nat.pos_of_ne_zero hne)
        rw [hag.nextRev] at hx₂
        have hreg' := hag.registers q a ▸ hreg
        have : u.selfNotice bound q a = true := by
          simp only [selfNotice,hreg',Bool.true_and,List.any_eq_true,decide_eq_true_eq]
          exact ⟨x,hx,hx₁,hx₂⟩
        rw [hself] at this
        cases this
      cases hcreate with
      | create _ _ hc =>
        cases hjoin with
        | join =>
          show (v.clis b).pendingMsgs = []
          rw [hc.pending b,hpend,hnone]
          rfl

/-- An entry whose scan finds nothing. -/
private theorem pollFound_quiet {t t' u : Ins} {b q : Ptr} {a : QueueArg} {bound : List (Ptr × Int)} (hb : Base t)
    (hlive : (t.queues q).freed = false) (hq : q < t.nextQueue) (hcli : b < t.nextCli) (hag : Agrees t u)
    (hbound : ∀ p r, 0 < pushCountTo (t.queues p).memqueueBinders r b → ∃ x ∈ bound, x.1 = p ∧ x.2 ≤ r)
    (h : pollFound now b a t q = .ok (t',0)) :
    Base t' ∧ b < t'.nextCli ∧ Agrees t' (registered u q a) ∧ (registered u q a).finds q a = false ∧
      (∀ p r, 0 < pushCountTo (t'.queues p).memqueueBinders r b →
        ∃ x ∈ (q,pollRev (registered u q a) q a) :: bound, x.1 = p ∧ x.2 ≤ r) ∧
      (u.selfNotice bound q a = false → (t.clis b).pendingMsgs = [] → (t'.clis b).pendingMsgs = []) := by
  obtain ⟨s₁,hr,htr,hlen⟩ := pollFound_cases hb hlive hq hcli h
  have hempty : (s₁.queues q).msgQueue.filter (wanted s₁ (pollRev s₁ q a) a.latest) = [] :=
    List.length_eq_zero_iff.mp hlen.symm
  obtain ⟨hag₁,hbinders,hkeep⟩ := refresh_keeps hb hlive hq hcli hag hbound hr
  obtain ⟨as,has,_⟩ := pollRefresh_trace hb hlive hq hr
  have hcli₁ : b < s₁.nextCli := lt_of_lt_of_le hcli (pollRefresh_keeps hb hlive hq hr).2.2
  rw [hempty,List.map_nil] at htr
  have hb' : Base t' := trace_base htr (trace_base has hb)
  cases htr with
  | @cons _ _ _ s₂ _ htouch htr =>
    cases htr with
    | cons hbind htr =>
      cases htr with
      | nil =>
        have htouched : (∀ p, (s₂.queues p).memqueueBinders = (s₁.queues p).memqueueBinders) ∧ s₂.clis = s₁.clis := by
          cases htouch with
          | touch => exact ⟨fun _ => rfl,rfl⟩
        refine ⟨hb',lt_of_lt_of_le hcli₁ (htouch.next_le.2.2.2.trans hbind.next_le.2.2.2),
          hbind.agrees (.inr rfl) (htouch.agrees (.inr rfl) hag₁),?_,?_,?_⟩
        · rw [finds,← (hag₁.queue q).2.1,← hag₁.pollRev,← hag₁.wanted]
          simpa [List.filter_eq_nil_iff] using hempty
        · intro p r hpos
          rw [← hag₁.pollRev]
          cases hbind with
          | bind =>
            by_cases hp : p = q
            · subst hp
              simp only [memqueueBind,updQueue,updCli,Function.update_self,pushCountTo,List.countP_cons] at hpos
              rw [htouched.1,hbinders] at hpos
              by_cases hle : pollRev s₁ p a ≤ r
              · exact ⟨_,List.mem_cons_self,rfl,hle⟩
              · obtain ⟨x,hx,hx'⟩ := hbound p r (by simpa [pushCountTo,hle] using hpos)
                exact ⟨x,List.mem_cons_of_mem _ hx,hx'⟩
            · simp only [memqueueBind,updQueue,updCli,Function.update_of_ne hp] at hpos
              rw [htouched.1,hbinders] at hpos
              obtain ⟨x,hx,hx'⟩ := hbound p r hpos
              exact ⟨x,List.mem_cons_of_mem _ hx,hx'⟩
        · intro hself hpend
          rw [(hbind.toQuiet rfl).pending b (lt_of_lt_of_le hcli₁ htouch.next_le.2.2.2),htouched.2]
          exact hkeep hself hpend

/-- A loop whose scans find nothing leaves the poller without messages, unless one of its own notices reached it. -/
private theorem pollLoop_pending {b : Ptr} {args : List QueueArg} {t t' u : Ins} {j j' : Nat} {bound : List (Ptr × Int)}
    {noticed : Bool} (hb : Base t) (hcli : b < t.nextCli) (hag : Agrees t u)
    (hbound : ∀ p r, 0 < pushCountTo (t.queues p).memqueueBinders r b → ∃ x ∈ bound, x.1 = p ∧ x.2 ≤ r)
    (hpend : noticed = false → (t.clis b).pendingMsgs = [])
    (h : args.foldlM (pollQueueArg now b) (t,0,j) = .ok (t',0,j')) (hblind : blindFrom u bound noticed args = false) :
    (t'.clis b).pendingMsgs = [] := by
  induction args generalizing t u j bound noticed with
  | nil =>
    cases h
    exact hpend hblind
  | cons a args ih =>
    rw [List.foldlM_cons] at h
    obtain ⟨⟨t₁,i₁,j₁⟩,h₁,h₂⟩ := bind_ok h
    rw [blindFrom] at hblind
    obtain ⟨k,hk,⟨hnone,heq⟩ | ⟨q,n,hget,hf,heq⟩⟩ := pollQueueArg_cases h₁
    · cases heq
      have hget : a.qId.bind u.queueStore.get = none := by
        rw [hk,← hag.store]
        exact hnone
      simp only [hget] at hblind
      exact ih hb hcli hag hbound hpend h₂ hblind
    · have hget' : a.qId.bind u.queueStore.get = some q := by
        rw [hk,← hag.store]
        exact hget
      simp only [hget'] at hblind
      obtain ⟨hlt,hlive,_⟩ := hb.store.get_iff.mp hget
      -- the total never sinks, so this entry has found nothing
      have hzero : i₁ = 0 := Nat.le_zero.mp (pollLoop_total h₂)
      have hn : n = 0 := by
        have := (Prod.mk.inj heq).1
        dsimp only at this
        omega
      subst hzero hn
      obtain ⟨hb₁,hcli₁,hag₁,hfinds,hbound₁,hkeep⟩ := pollFound_quiet hb hlive hlt hcli hag hbound hf
      rw [hfinds,Bool.not_false,Bool.true_and] at hblind
      refine ih hb₁ hcli₁ hag₁ hbound₁ ?_ h₂ hblind
      intro hno
      rw [Bool.or_eq_false_iff] at hno
      exact hkeep hno.2 (hpend hno.1)

/-- Only the start of a poll makes a condition variable anew. -/
private theorem Move.signalled {a : Atom} {s s' : Ins} (h : Move now a s s') {b : Ptr} (hb : b < s.nextCli)
    (hs : (s.clis b).signalled = true) : (s'.clis b).signalled = true := by
  cases h with
  | newCli => simpa [addCli,Nat.ne_of_lt hb] using hs
  | create _ _ hc => rw [hc.signalled b,hs,Bool.true_or]
  | bind β =>
    by_cases hβ : b = β.cliBinder
    · subst hβ
      simpa [memqueueBind,updCli,updQueue] using hs
    · simpa [memqueueBind,updCli,updQueue,hβ] using hs
  | unbindAll _ p =>
    rw [(memqueueUnbindAll_effect s p).clis]
    by_cases hp : b = p
    · subst hp
      simpa using hs
    · simpa [hp] using hs
  | @enqueue _ _ p m _ _ he =>
    obtain ⟨_,rfl⟩ := cliBinderEnqueueMsg_effect he
    by_cases hp : b = p
    · subst hp
      simpa [updCli,updMsg,updQueue] using hs
    · simpa [updCli,updMsg,updQueue,hp] using hs
  | @unpend _ t p m _ hr =>
    by_cases hp : b = p
    · subst hp
      simpa [Memqueue.unpend,updCli,hr.clis] using hs
    · simpa [Memqueue.unpend,updCli,hr.clis,hp] using hs
  | leave _ hr => simpa [setExpiry,memqueueFreeConsumer,updConsumer,updQueue,hr.clis] using hs
  | expireMsg _ hr => simpa [setExpiry,hr.clis] using hs
  | drop _ ht hr =>
    obtain ⟨_,rfl⟩ := memqueueMsgRetain_effect ht
    simpa [hr.clis,updMsg,updQueue] using hs
  | expireQueue _ hr => simpa [setExpiry,hr.clis] using hs
  | release hr => simpa [hr.clis] using hs
  | putQueue | join | touch | suspend | wakeup | serve => exact hs

/-- The pollers in lthread_cond_wait exist, and one that has not been signalled has no pending message. -/
structure Awaits (s : Ins) : Prop where
  exist : ∀ b, .pollWait b ∈ s.handlers → b < s.nextCli
  empty : ∀ b, .pollWait b ∈ s.handlers → (s.clis b).signalled = false → (s.clis b).pendingMsgs = []

private theorem Move.waiting {a : Atom} {s s' : Ins} (h : Move now a s s') (hsus : ∀ b, a ≠ .suspend (.pollWait b))
    {b : Ptr} (hw : .pollWait b ∈ s'.handlers) : .pollWait b ∈ s.handlers := by
  cases h with
  | suspend x =>
    rcases List.mem_cons.mp hw with heq | hw
    · exact absurd (by rw [heq]) (hsus b)
    · exact hw
  | wakeup x => exact List.mem_of_mem_erase hw
  | create _ _ hc => rwa [hc.frame.handlers] at hw
  | unbindAll _ p => rwa [(memqueueUnbindAll_effect s p).frame.handlers] at hw
  | enqueue _ _ he =>
    obtain ⟨_,rfl⟩ := cliBinderEnqueueMsg_effect he
    exact hw
  | @unpend _ t _ _ _ hr =>
    have hw' : .pollWait b ∈ t.handlers := hw
    rwa [hr.frame.handlers] at hw'
  | @leave _ t _ _ hr =>
    have hw' : .pollWait b ∈ t.handlers := hw
    rwa [hr.frame.handlers] at hw'
  | @expireMsg _ t _ _ hr =>
    have hw' : .pollWait b ∈ t.handlers := hw
    rwa [hr.frame.handlers] at hw'
  | drop _ ht hr =>
    obtain ⟨_,rfl⟩ := memqueueMsgRetain_effect ht
    rwa [hr.frame.handlers] at hw
  | @expireQueue _ t _ _ hr =>
    have hw' : .pollWait b ∈ t.handlers := hw
    rwa [hr.frame.handlers] at hw'
  | release hr => rwa [hr.frame.handlers] at hw
  | newCli | putQueue | join | touch | bind | serve => exact hw

/-- A push signals whoever waits; a scan is for a poller that does not wait yet. -/
private theorem Move.awaits {a : Atom} {s s' : Ins} (h : Move now a s s') (hi : Awaits s)
    (hsus : ∀ b, a ≠ .suspend (.pollWait b)) (henq : ∀ b m, a = .enqueue b m → .pollWait b ∉ s.handlers) :
    Awaits s' := by
  refine ⟨fun b hw => lt_of_lt_of_le (hi.exist b (h.waiting hsus hw)) h.next_le.2.2.2,?_⟩
  intro b hw hquiet
  have hold := h.waiting hsus hw
  have hlt := hi.exist b hold
  have hunsig : (s.clis b).signalled = false := by
    cases hsig : (s.clis b).signalled with
    | false => rfl
    | true => exact absurd (h.signalled hlt hsig) (by rw [hquiet]; decide)
  have hpend := hi.empty b hold hunsig
  rcases h.pendingMsgs (b := b) (fun hn => absurd hlt (Nat.not_lt.mpr hn)) with he | ⟨q,msecs,data,rfl,he⟩ | ⟨m,rfl,_⟩ |
    ⟨m,_,hm,_⟩
  · exact he.trans hpend
  · cases h with
    | create _ _ hc =>
      have hno : pushCountTo (s.queues q).memqueueBinders (nextRev (s.queues q)) b = 0 := by
        by_contra hne
        have hsig := hc.signalled b
        rw [hunsig,hquiet,Bool.false_or] at hsig
        exact absurd ⟨Nat.pos_of_ne_zero hne,hold⟩ (of_decide_eq_false hsig.symm)
      rw [he,hpend,hno]
      rfl
  · exact absurd hold (henq b m rfl)
  · rw [hpend] at hm
    cases hm

end Moves

section Runs
variable [Rebalance ExpiryNode]

omit [Rebalance ExpiryNode] in
theorem awaits_init : Awaits .init := ⟨fun _ h => (by cases h),fun _ h => (by cases h)⟩

omit [Rebalance ExpiryNode] in
private theorem allows_quiet {s : Ins} {l : Label} {a : Atom} (hpoll : ∀ args, l.event ≠ .poll args)
    (h : l.allows s a) : (∀ b, a ≠ .suspend (.pollWait b)) ∧ ∀ b m, a ≠ .enqueue b m := by
  obtain ⟨now,event⟩ := l
  cases event with
  | put args =>
    cases h
    exact ⟨fun _ h => (by cases h),fun _ _ h => (by cases h)⟩
  | post k expiry body =>
    rcases h with ⟨_,rfl⟩ | ⟨_,_,rfl⟩ | ⟨_,rfl⟩ <;> exact ⟨fun _ h => (by cases h),fun _ _ h => (by cases h)⟩
  | poll args => exact absurd rfl (hpoll args)
  | delete k =>
    obtain ⟨_,rfl⟩ := h
    exact ⟨fun _ h => (by cases h),fun _ _ h => (by cases h)⟩
  | head k => exact h.elim
  | wake b => rcases h with rfl | rfl | rfl <;> exact ⟨fun _ h => (by cases h),fun _ _ h => (by cases h)⟩
  | resumePost q => rcases h with rfl | rfl <;> exact ⟨fun _ h => (by cases h),fun _ _ h => (by cases h)⟩
  | resumeDelete q => rcases h.2 with rfl | rfl <;> exact ⟨fun _ h => (by cases h),fun _ _ h => (by cases h)⟩
  | resumePoll b => rcases h.2 with rfl | rfl | ⟨_,rfl⟩ <;> exact ⟨fun _ h => (by cases h),fun _ _ h => (by cases h)⟩
  | expire type =>
    cases type <;> cases a <;> first | exact h.elim | exact ⟨fun _ h => (by cases h),fun _ _ h => (by cases h)⟩

private theorem poll_awaits {now : Nat} {s s' : Ins} {args : PollArgs} {out : Option Response} (hc : Coherent s)
    (hi : Awaits s) (hseen : blindFrom s [] false args.queueArgs = false)
    (h : memqueuePollQueue now s args = .ok (s',out)) : Awaits s' := by
  obtain ⟨t,i,j,hloop,hend⟩ := memqueuePollQueue_cases h
  have hnew : Move now (.newCli args.timeout) s (addCli s args.timeout) := .newCli s args.timeout
  have hb₀ := hnew.base hc.base
  have hself : .pollWait s.nextCli ∉ s.handlers := fun hw => absurd (hi.exist _ hw) (lt_irrefl _)
  have hi₀ : Awaits (addCli s args.timeout) :=
    hnew.awaits hi (fun _ h => (by cases h)) (fun _ _ h => (by cases h))
  -- during the loop only the new poller, which does not wait yet, is given messages by scans
  obtain ⟨as,has,ha⟩ := pollLoop_trace hb₀ (Nat.lt_succ_self _) hloop
  obtain ⟨hit,hself'⟩ := has.invariant (I := fun t => Awaits t ∧ .pollWait s.nextCli ∉ t.handlers) (by
    rintro a t u hx ⟨hi,hself⟩ hm
    have hallow := ha a hx
    have hsus : ∀ b, a ≠ .suspend (.pollWait b) := by
      rintro b rfl
      exact hallow.elim
    refine ⟨hm.awaits hi hsus ?_,fun hw => hself (hm.waiting hsus hw)⟩
    rintro b m rfl
    rw [show b = s.nextCli from hallow]
    exact hself) ⟨hi₀,hself⟩
  have htcli : s.nextCli < t.nextCli :=
    has.invariant (I := fun t => s.nextCli < t.nextCli) (fun _ _ _ _ hi hm => lt_of_lt_of_le hi hm.next_le.2.2.2)
      (Nat.lt_succ_self _)
  rcases hend with ⟨_,rfl⟩ | ⟨rfl,rfl,_⟩ | ⟨_,heq⟩
  · exact hit
  · -- the new poller goes to sleep
    have hpend : (t.clis s.nextCli).pendingMsgs = [] := by
      refine pollLoop_pending hb₀ (Nat.lt_succ_self _) (u := s) ?_ ?_ ?_ hloop hseen
      · exact ⟨rfl,rfl,rfl,fun _ => ⟨rfl,rfl,rfl,rfl⟩,fun _ => ⟨rfl,rfl⟩⟩
      · intro p r hpos
        obtain ⟨β,hβ,hb⟩ := List.countP_pos_iff.mp hpos
        have hlt := hc.ledger.bound p β hβ
        rw [(of_decide_eq_true hb).2] at hlt
        exact absurd hlt (lt_irrefl _)
      · intro _
        simp [addCli]
    refine ⟨?_,?_⟩
    · intro b hw
      rcases List.mem_cons.mp hw with hw | hw
      · cases hw
        exact htcli
      · exact hit.exist b hw
    · intro b hw hquiet
      rcases List.mem_cons.mp hw with hw | hw
      · cases hw
        exact hpend
      · exact hit.empty b hw hquiet
  · have he : s' = (pollRespond t s.nextCli).1 := congrArg Prod.fst heq
    obtain ⟨bs,hbs,hb⟩ := pollRespond_trace now t s.nextCli
    rw [he]
    refine hbs.invariant (I := Awaits) ?_ hit
    intro a t u hx hi hm
    rcases hb a hx with rfl | rfl
    · exact hm.awaits hi (fun _ h => (by cases h)) (fun _ _ h => (by cases h))
    · exact hm.awaits hi (fun _ h => (by cases h)) (fun _ _ h => (by cases h))

theorem step_awaits {s s' : Ins} {l : Label} {out : Option Response} (hc : Coherent s) (hi : Awaits s)
    (hl : l.blind s = false) (h : step s l = .ok (s',out)) : Awaits s' := by
  by_cases hpoll : ∃ args, l.event = .poll args
  · obtain ⟨now,event⟩ := l
    obtain ⟨args,rfl⟩ := hpoll
    exact poll_awaits hc hi hl h
  · refine (coherent_keeps Awaits hc ?_ hi h).2
    intro a t u hallow _ hi hm
    obtain ⟨hsus,henq⟩ := allows_quiet (fun args he => hpoll ⟨args,he⟩) hallow
    exact hm.awaits hi hsus fun b m he => absurd he (henq b m)

/-- In every run without a blind poll, a poller that is blocked and has not been signalled has no pending message. -/
theorem no_lost_wakeup {tr : List Label} {s : Ins} (h : Reaches (fun s l => l.blind s = false) tr s) {b : Ptr}
    (hwait : .pollWait b ∈ s.handlers) (hquiet : (s.clis b).signalled = false) : (s.clis b).pendingMsgs = [] := by
  have hinv : Coherent s ∧ Awaits s := h.invariant (I := fun s => Coherent s ∧ Awaits s)
    (fun s l s' out hi hl hs => ⟨step_coherent hi.1 hs,step_awaits hi.1 hi.2 hl hs⟩) ⟨coherent_init,awaits_init⟩
  exact hinv.2.empty b hwait hquiet

end Runs

/-- Two entries for one queue, the second of which registers a consumer and asks for the revision of its own notice:
the poller goes to sleep with that notice pending. -/
theorem lost_wakeup :
    letI := Rebalance.plain ExpiryNode
    ∃ s, Reaches (fun _ _ => True) [⟨0,.put ⟨0,0,1000,0,[113]⟩⟩,
        ⟨1,.poll ⟨[⟨some [113],0,0,none,0⟩,⟨some [113],1,0,some [99],0⟩],1000⟩⟩] s ∧
      .pollWait 0 ∈ s.handlers ∧ (s.clis 0).signalled = false ∧ (s.clis 0).pendingMsgs = [0] := by
  let _ := Rebalance.plain ExpiryNode
  obtain ⟨s,hs,hobs⟩ := Option.map_eq_some_iff.mp (show (exec step (fun _ _ => true) .init
      [⟨0,.put ⟨0,0,1000,0,[113]⟩⟩,⟨1,.poll ⟨[⟨some [113],0,0,none,0⟩,⟨some [113],1,0,some [99],0⟩],1000⟩⟩]).map
        (fun s => (s.handlers,(s.clis 0).signalled,(s.clis 0).pendingMsgs)) =
    some ([.pollWait 0],false,[0]) by decide +kernel)
  simp only [Prod.mk.injEq] at hobs
  obtain ⟨hh,hsig,hpend⟩ := hobs
  exact ⟨s,(Run.of_exec hs).mono fun _ _ _ => trivial,by simp [hh],hsig,hpend⟩

/-- The same poll without the first entry: the notice is not for the poller itself. -/
theorem no_lost_wakeup_single :
    letI := Rebalance.plain ExpiryNode
    ∃ s, Reaches (fun s l => l.blind s = false) [⟨0,.put ⟨0,0,1000,0,[113]⟩⟩,
        ⟨1,.poll ⟨[⟨some [113],1,0,some [99],0⟩],1000⟩⟩] s ∧ .pollWait 0 ∈ s.handlers ∧
          (s.clis 0).pendingMsgs = [] := by
  let _ := Rebalance.plain ExpiryNode
  obtain ⟨s,hs,hobs⟩ := Option.map_eq_some_iff.mp (show (exec step (fun s l => l.blind s = false) .init
      [⟨0,.put ⟨0,0,1000,0,[113]⟩⟩,⟨1,.poll ⟨[⟨some [113],1,0,some [99],0⟩],1000⟩⟩]).map
        (fun s => (s.handlers,(s.clis 0).signalled)) = some ([.pollWait 0],false) by decide +kernel)
  simp only [Prod.mk.injEq] at hobs
  obtain ⟨hh,hsig⟩ := hobs
  have hr : Reaches (fun s l => l.blind s = false) _ s := (Run.of_exec hs).mono fun _ _ hg => by simpa using hg
  have hwait : .pollWait 0 ∈ s.handlers := by simp [hh]
  exact ⟨s,hr,hwait,no_lost_wakeup hr hwait hsig⟩

end Memqueue
