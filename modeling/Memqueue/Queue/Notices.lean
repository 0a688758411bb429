import Memqueue.Queue.NoDelete

/-! What a queue is told about its consumers: a notice when one is registered and a notice when one expires. -/
namespace Memqueue
open Ins Fallible Expiry

inductive Notice where
  | joined
  | expired
  deriving DecidableEq, Repr

def Notice.other : Notice → Notice
  | .joined => .expired
  | .expired => .joined

/-- What follows the consumer's id in the body. -/
def Notice.text : Notice → Bytes
  | .joined => Memqueue.joined
  | .expired => Memqueue.expired

/-- The list starts with `n`, and from then on the two notices take turns. -/
def Alternates : Notice → List Notice → Prop
  | _, [] => True
  | n, k :: ks => k = n ∧ Alternates n.other ks

/-- A message read as a notice for the consumer `c`. -/
def notice (c data : Bytes) : Option Notice :=
  if data = c ++ joined then some .joined else if data = c ++ expired then some .expired else none

/-- The notices for `c` among the messages `L` of the queue `q`, in order. -/
def Ins.noticed (s : Ins) (L : List Ptr) (q : Ptr) (c : Bytes) : List Notice :=
  L.filterMap fun m => if (s.msgs m).memqueue = q then notice c (s.msgs m).data else none

/-- The server with a record of the messages that memqueue_refresh_consumer and consumer_expired have created. -/
structure Logged where
  ins : Ins
  log : List Ptr

def Logged.init : Logged := ⟨.init,[]⟩

def Logged.notices (x : Logged) (q : Ptr) (c : Bytes) : List Notice := x.ins.noticed x.log q c

/-- The messages allocated between two states. -/
def newMsgs (s s' : Ins) : List Ptr := List.range' s.nextMsg (s'.nextMsg - s.nextMsg)

/-- memqueue_msg_create has three callers; on_msg_post is the one that passes on what a client sends. -/
def Label.sends (l : Label) (s s' : Ins) : List Ptr :=
  match l.event with
  | .post _ _ _ => []
  | _ => newMsgs s s'

def loggedStep [Rebalance ExpiryNode] (x : Logged) (l : Label) : Except Fault (Logged × Option Response) := do
  let (s,out) ← step x.ins l
  pure (⟨s,x.log ++ l.sends x.ins s⟩,out)

theorem Alternates.append {n k : Notice} {ks : List Notice} (h : Alternates n ks)
    (hk : k = (ks.getLast?.map Notice.other).getD n) : Alternates n (ks ++ [k]) := by
  induction ks generalizing n with
  | nil => exact ⟨hk,trivial⟩
  | cons j ks ih =>
    obtain ⟨rfl,h⟩ := h
    refine ⟨rfl,ih h ?_⟩
    rw [hk,List.getLast?_cons]
    cases ks.getLast? <;> rfl

/-- The two suffixes end differently, so a notice is for one consumer only. -/
private theorem joined_ne_expired (c c' : Bytes) : c ++ joined ≠ c' ++ expired := by
  intro h
  have := congrArg List.reverse h
  simp [joined,expired] at this

private theorem notice_text (c id : Bytes) (n : Notice) :
    notice c (id ++ n.text) = if c = id then some n else none := by
  cases n with
  | joined =>
    simp only [notice,Notice.text,List.append_left_inj,joined_ne_expired,if_false]
    simp only [eq_comm]
  | expired =>
    simp only [notice,Notice.text,List.append_left_inj,(joined_ne_expired c id).symm,if_false]
    simp only [eq_comm]

private theorem noticed_congr {s s' : Ins} {L : List Ptr} (h : ∀ m ∈ L, SameMsg (s.msgs m) (s'.msgs m)) (q : Ptr)
    (c : Bytes) : s'.noticed L q c = s.noticed L q c := by
  apply List.filterMap_congr
  intro m hm
  rw [(h m hm).memqueue,(h m hm).data]

/-- A queue without messages on record has no notices. -/
private theorem noticed_none {s : Ins} {L : List Ptr} {q : Ptr} (h : ∀ m ∈ L, (s.msgs m).memqueue ≠ q) (c : Bytes) :
    s.noticed L q c = [] := by
  rw [Ins.noticed,List.filterMap_eq_nil_iff]
  intro m hm
  rw [if_neg (h m hm)]

/-- The consumers of every live queue are those whose last notice says they joined, and each is scheduled. -/
structure NoticeInv (s : Ins) (L : List Ptr) : Prop where
  logged : ∀ m ∈ L, m < s.nextMsg
  alternates : ∀ q < s.nextQueue, (s.queues q).freed = false → ∀ c, Alternates .joined (s.noticed L q c)
  joined : ∀ q < s.nextQueue, (s.queues q).freed = false → ∀ c,
    c ∈ Table.keys (s.queues q).consumers ↔ (s.noticed L q c).getLast? = some .joined
  scheduled : ∀ q < s.nextQueue, (s.queues q).freed = false → ∀ e ∈ (s.queues q).consumers,
    e.2 ∈ s.expiry.indexed .consumer

theorem noticeInv_init : NoticeInv .init [] where
  logged _ h := by cases h
  alternates _ h := by cases h
  joined _ h := by cases h
  scheduled _ h := by cases h

/-- A move that changes who is registered. -/
private def Atom.enrols : Atom → Bool
  | .join _ _ | .leave _ => true
  | _ => false

/-- A move that creates a message. -/
private def Atom.posts : Atom → Bool
  | .create _ _ _ => true
  | _ => false

section Moves
variable [Rebalance ExpiryNode] {now : Nat}

/-- Only registering and expiring a consumer concern the record. -/
private theorem Move.noticeInv {a : Atom} {s s' : Ins} {L : List Ptr} (h : Move now a s s') (hb : Base s)
    (ha : a.enrols = false) (hi : NoticeInv s L) : NoticeInv s' L := by
  have hlive : ∀ q < s.nextQueue, (s'.queues q).freed = false → (s.queues q).freed = false :=
    fun q hq hl => h.live_of hq hl
  have hsame : ∀ q c, s'.noticed L q c = s.noticed L q c :=
    fun q c => noticed_congr (fun m hm => h.sameMsg (hi.logged m hm)) q c
  have hcons : ∀ q < s.nextQueue, (s'.queues q).consumers = (s.queues q).consumers := by
    intro q hq
    rcases h.consumers hq with he | ⟨id,rfl,_⟩ | ⟨c,rfl,_⟩
    · exact he
    · cases ha
    · cases ha
  -- a queue that has just been put has no consumers and no messages
  have hnew : ∀ q, s.nextQueue ≤ q → (s'.queues q).consumers = [] ∧ ∀ c, s'.noticed L q c = [] := by
    intro q hq
    refine ⟨(h.lists_new hb hq).2,fun c => ?_⟩
    rw [hsame]
    refine noticed_none (fun m hm he => ?_) c
    exact absurd (hb.msgOwner m (hi.logged m hm)) (Nat.not_lt.mpr (he ▸ hq))
  refine ⟨fun m hm => lt_of_lt_of_le (hi.logged m hm) h.next_le.1,?_,?_,?_⟩
  · intro q hq hl c
    rcases Nat.lt_or_ge q s.nextQueue with hlt | hge
    · rw [hsame]
      exact hi.alternates q hlt (hlive q hlt hl) c
    · rw [(hnew q hge).2 c]
      trivial
  · intro q hq hl c
    rcases Nat.lt_or_ge q s.nextQueue with hlt | hge
    · rw [hsame,hcons q hlt]
      exact hi.joined q hlt (hlive q hlt hl) c
    · rw [(hnew q hge).1,(hnew q hge).2 c]
      simp [Table.keys]
  · intro q hq hl e he
    rcases Nat.lt_or_ge q s.nextQueue with hlt | hge
    · rw [hcons q hlt] at he
      refine ((h.indexed hb.index).2 .consumer e.2).mpr (.inl ⟨hi.scheduled q hlt (hlive q hlt hl) e he,?_⟩)
      intro hun
      cases a with
      | leave c => cases ha
      | expireMsg m => exact absurd hun.1 (by decide)
      | expireQueue p => exact absurd hun.1 (by decide)
      | _ => exact hun
    · rw [(hnew q hge).1] at he
      cases he

private theorem create_noticed {s t : Ins} {L : List Ptr} {q : Ptr} {id : Bytes} {n : Notice}
    (h : Move now (.create q 2000 (id ++ n.text)) s t) (hlog : ∀ m ∈ L, m < s.nextMsg) (p : Ptr) (c : Bytes) :
    t.noticed (L ++ [s.nextMsg]) p c = s.noticed L p c ++ if p = q ∧ c = id then [n] else [] := by
  have hold := noticed_congr (fun m hm => h.sameMsg (hlog m hm)) p c
  have hnew : t.noticed [s.nextMsg] p c = if p = q ∧ c = id then [n] else [] := by
    cases h with
    | create _ _ hc =>
      have hown : (t.msgs s.nextMsg).memqueue = q := by rw [hc.msgs,Function.update_self]
      have hdata : (t.msgs s.nextMsg).data = id ++ n.text := by rw [hc.msgs,Function.update_self]
      simp only [Ins.noticed,List.filterMap_cons,List.filterMap_nil,hown,hdata,notice_text]
      by_cases hp : q = p
      · by_cases hid : c = id <;> simp [hp,hid]
      · simp [hp,Ne.symm hp]
  rw [← hold,← hnew]
  exact List.filterMap_append ..

/-- A notice and the change it tells of, which may not come in its place again. -/
private theorem noticeInv_pair {a : Atom} {s t s' : Ins} {L : List Ptr} {q : Ptr} {id : Bytes} {n : Notice}
    (hi : NoticeInv s L) (hcreate : Move now (.create q 2000 (id ++ n.text)) s t) (hm : Move now a t s')
    (hnext : s'.nextQueue = s.nextQueue) (hbefore : id ∈ Table.keys (s.queues q).consumers ↔ n = .expired)
    (hafter : ∀ p < s.nextQueue, ∀ c, c ∈ Table.keys (s'.queues p).consumers ↔
      if p = q ∧ c = id then n = .joined else c ∈ Table.keys (s.queues p).consumers)
    (hsched : ∀ p < s.nextQueue, (s.queues p).freed = false → ∀ e ∈ (s'.queues p).consumers,
      e.2 ∈ s'.expiry.indexed .consumer) : NoticeInv s' (L ++ [s.nextMsg]) := by
  have hlog : ∀ m ∈ L ++ [s.nextMsg], m < t.nextMsg := by
    intro m hm
    rcases List.mem_append.mp hm with hm | hm
    · exact lt_of_lt_of_le (hi.logged m hm) hcreate.next_le.1
    · cases hcreate with
      | create _ _ hc =>
        rw [List.mem_singleton.mp hm,hc.nextMsg]
        exact Nat.lt_succ_self _
  have hsame : ∀ p c, s'.noticed (L ++ [s.nextMsg]) p c = s.noticed L p c ++ if p = q ∧ c = id then [n] else [] := by
    intro p c
    rw [noticed_congr (fun m hm' => hm.sameMsg (hlog m hm'))]
    exact create_noticed hcreate hi.logged p c
  have hlive : ∀ p < s.nextQueue, (s'.queues p).freed = false → (s.queues p).freed = false :=
    fun p hp hl => hcreate.live_of hp (hm.live_of (lt_of_lt_of_le hp hcreate.next_le.2.1) hl)
  have hq : q < s.nextQueue ∧ (s.queues q).freed = false := by
    cases hcreate with
    | create hf hq _ => exact ⟨hq,hf⟩
  refine ⟨fun m hm' => lt_of_lt_of_le (hlog m hm') hm.next_le.1,?_,?_,?_⟩
  · intro p hp hl c
    rw [hnext] at hp
    have hold := hi.alternates p hp (hlive p hp hl) c
    rw [hsame]
    split
    · rename_i hpc
      obtain ⟨rfl,rfl⟩ := hpc
      apply hold.append
      have hlast := hbefore.symm.trans (hi.joined p hp (hlive p hp hl) c)
      cases n with
      | joined =>
        have hne : (s.noticed L p c).getLast? ≠ some .joined := fun h => by cases hlast.mpr h
        cases hk : (s.noticed L p c).getLast? with
        | none => rfl
        | some k =>
          cases k with
          | joined => exact absurd hk hne
          | expired => rfl
      | expired =>
        rw [hlast.mp rfl]
        rfl
    · rw [List.append_nil]
      exact hold
  · intro p hp hl c
    rw [hnext] at hp
    rw [hsame,hafter p hp c]
    split
    · rw [List.getLast?_append]
      simp
    · rw [List.append_nil]
      exact hi.joined p hp (hlive p hp hl) c
  · intro p hp hl e he
    rw [hnext] at hp
    exact hsched p hp (hlive p hp hl) e he

private theorem consumers_of_create {s t : Ins} {q : Ptr} {msecs : Int} {data : Bytes}
    (h : Move now (.create q msecs data) s t) {p : Ptr} (hp : p < s.nextQueue) :
    (t.queues p).consumers = (s.queues p).consumers := by
  rcases h.consumers hp with he | ⟨_,ha,_⟩ | ⟨_,ha,_⟩
  · exact he
  · cases ha
  · cases ha

private theorem nextQueue_of_pair {a : Atom} {s t s' : Ins} {q : Ptr} {msecs : Int} {data : Bytes}
    (h : Move now (.create q msecs data) s t) (hm : Move now a t s') (ha : ∀ args, a ≠ .putQueue args) :
    s'.nextQueue = s.nextQueue := by
  rcases hm.nextQueue with he | ⟨args,hp,_⟩
  · rcases h.nextQueue with he' | ⟨args,hp,_⟩
    · exact he.trans he'
    · cases hp
  · exact absurd hp (ha args)

/-- memqueue_refresh_consumer with a consumer it does not know. -/
private theorem noticeInv_join {s t s' : Ins} {L : List Ptr} {q : Ptr} {id : Bytes} (hb : Base s) (hi : NoticeInv s L)
    (hcreate : Move now (.create q 2000 (id ++ joined)) s t) (hjoin : Move now (.join q id) t s') :
    NoticeInv s' (L ++ [s.nextMsg]) := by
  have hbt := hcreate.base hb
  obtain ⟨hget,htab⟩ : (t.queues q).consumers.get id = none ∧
      (s'.queues q).consumers = (t.queues q).consumers.insert id t.nextConsumer := by
    cases hjoin with
    | join _ _ hget _ =>
      refine ⟨hget,?_⟩
      simp [setExpiry,addConsumer,newConsumer,updQueue]
  have hq : q < s.nextQueue := by
    cases hcreate with
    | create _ hq _ => exact hq
  have hother : ∀ p < s.nextQueue, p ≠ q → (s'.queues p).consumers = (s.queues p).consumers := by
    intro p hp hne
    rw [← consumers_of_create hcreate hp]
    rcases hjoin.consumers (lt_of_lt_of_le hp hcreate.next_le.2.1) with he | ⟨_,ha,_⟩ | ⟨_,ha,_⟩
    · exact he
    · cases ha
      exact absurd rfl hne
    · cases ha
  rw [consumers_of_create hcreate hq] at hget htab
  have hidx := (hjoin.indexed hbt.index).2 .consumer
  have hkeep : ∀ o, o ∈ s.expiry.indexed .consumer → o ∈ s'.expiry.indexed .consumer := by
    intro o ho
    refine (hidx o).mpr (.inl ⟨?_,fun h => h⟩)
    exact ((hcreate.indexed hb.index).2 .consumer o).mpr (.inl ⟨ho,fun h => h⟩)
  refine noticeInv_pair (n := .joined) hi hcreate hjoin
    (nextQueue_of_pair hcreate hjoin (fun _ h => by cases h)) ?_ ?_ ?_
  · constructor
    · intro h
      exact absurd h (Table.get_eq_none.mp hget)
    · intro h
      cases h
  · intro p hp c
    by_cases hpq : p = q
    · subst hpq
      rw [htab,Table.mem_keys_insert hget]
      by_cases hc : c = id <;> simp [hc]
    · rw [hother p hp hpq,if_neg (fun h => hpq h.1)]
  · intro p hp hl e he
    by_cases hpq : p = q
    · subst hpq
      rw [htab,Table.insert_of_none hget] at he
      rcases List.mem_append.mp he with he | he
      · exact hkeep _ (hi.scheduled p hp hl e he)
      · rw [List.mem_singleton.mp he]
        exact (hidx _).mpr (.inr ⟨rfl,rfl⟩)
    · rw [hother p hp hpq] at he
      exact hkeep _ (hi.scheduled p hp hl e he)

/-- consumer_expired, with what objs_expire does around it. -/
private theorem noticeInv_leave {s t s' : Ins} {L : List Ptr} {c : Ptr} (hb : Base s) (hl : Ledger s)
    (hi : NoticeInv s L)
    (hcreate : Move now (.create (s.consumers c).memqueue 2000 ((s.consumers c).consumerId ++ expired)) s t)
    (hleave : Move now (.leave c) t s') : NoticeInv s' (L ++ [s.nextMsg]) := by
  have hbt := hcreate.base hb
  have hkeeps : t.consumers = s.consumers := by
    cases hcreate with
    | create _ _ hc => exact hc.consumers
  obtain ⟨hlive,hq⟩ : (s.queues (s.consumers c).memqueue).freed = false ∧ (s.consumers c).memqueue < s.nextQueue := by
    cases hcreate with
    | create hf hq _ => exact ⟨hf,hq⟩
  obtain ⟨hlost,hint⟩ := hleave.leave_lost
  have hin : c ∈ s.expiry.indexed .consumer := by
    rcases ((hcreate.indexed hb.index).2 .consumer c).mp hint with ⟨hc,_⟩ | hlink
    · exact hc
    · exact absurd hlink.2.1 (by decide)
  have hmem := hl.alive c hin hlive
  have htab : (s'.queues (s.consumers c).memqueue).consumers =
      (s.queues (s.consumers c).memqueue).consumers.remove (s.consumers c).consumerId := by
    rw [hlost.queues,hkeeps,Function.update_self,consumers_of_create hcreate hq]
  have hother : ∀ p < s.nextQueue, p ≠ (s.consumers c).memqueue → (s'.queues p).consumers = (s.queues p).consumers := by
    intro p hp hne
    rw [hlost.queues,hkeeps,Function.update_of_ne hne,consumers_of_create hcreate hp]
  have hkeep : ∀ o, o ∈ s.expiry.indexed .consumer → o ≠ c → o ∈ s'.expiry.indexed .consumer := by
    intro o ho hne
    refine ((hleave.indexed hbt.index).2 .consumer o).mpr (.inl ⟨?_,fun h => hne h.2⟩)
    exact ((hcreate.indexed hb.index).2 .consumer o).mpr (.inl ⟨ho,fun h => h⟩)
  refine noticeInv_pair (n := .expired) hi hcreate hleave
    (nextQueue_of_pair hcreate hleave (fun _ h => by cases h)) ?_ ?_ ?_
  · exact ⟨fun _ => rfl,fun _ => List.mem_map.mpr ⟨_,hmem,rfl⟩⟩
  · intro p hp k
    by_cases hpq : p = (s.consumers c).memqueue
    · subst hpq
      rw [htab,Table.mem_keys_remove (hl.ids _)]
      by_cases hk : k = (s.consumers c).consumerId <;> simp [hk]
    · rw [hother p hp hpq,if_neg (fun h => hpq h.1)]
  · intro p hp hf e he
    -- the table knows every consumer under its own id only
    have hreg : ∀ e ∈ (s.queues p).consumers, (s.consumers e.2).memqueue = p ∧ (s.consumers e.2).consumerId = e.1 :=
      fun e he => (hl.registered p e.1 e.2 he).2
    by_cases hpq : p = (s.consumers c).memqueue
    · subst hpq
      rw [htab] at he
      obtain ⟨he,hne⟩ := (Table.mem_remove (hl.ids _)).mp (show (e.1,e.2) ∈ _ from he)
      apply hkeep _ (hi.scheduled _ hp hf _ he)
      intro hc
      exact hne ((hreg _ he).2 ▸ hc ▸ rfl)
    · rw [hother p hp hpq] at he
      apply hkeep _ (hi.scheduled p hp hf e he)
      intro hc
      exact hpq ((hreg e he).1 ▸ hc ▸ rfl)

omit [Rebalance ExpiryNode] in
private theorem newMsgs_succ {s t u : Ins} (hle : s.nextMsg ≤ t.nextMsg) (hu : u.nextMsg = t.nextMsg + 1) :
    newMsgs s u = newMsgs s t ++ [t.nextMsg] := by
  obtain ⟨n,hn⟩ := Nat.exists_eq_add_of_le hle
  rw [newMsgs,newMsgs,hu,hn,Nat.add_assoc,Nat.add_sub_cancel_left,Nat.add_sub_cancel_left,List.range'_concat,
    Nat.one_mul]

/-- The record is right in the midst of a step, with what the step has sent so far. -/
private structure Sending (s : Ins) (L : List Ptr) (t : Ins) : Prop where
  base : Base t
  ledger : Ledger t
  next : s.nextMsg ≤ t.nextMsg
  record : NoticeInv t (L ++ newMsgs s t)

private theorem Sending.move {a : Atom} {s t u : Ins} {L : List Ptr} (h : Sending s L t) (hm : Move now a t u)
    (ha : a.enrols = false) (hp : a.posts = false) : Sending s L u := by
  have hn : u.nextMsg = t.nextMsg := by
    rcases hm.nextMsg with he | ⟨q,msecs,data,rfl,_⟩
    · exact he
    · cases hp
  refine ⟨hm.base h.base,hm.ledger h.base h.ledger,hn ▸ h.next,?_⟩
  rw [newMsgs,hn]
  exact hm.noticeInv h.base ha h.record

private theorem Sending.pair {a : Atom} {s t u v : Ins} {L : List Ptr} {q : Ptr} {msecs : Int} {data : Bytes}
    (h : Sending s L t) (hcreate : Move now (.create q msecs data) t u) (hm : Move now a u v)
    (ha : a.posts = false) (hi : NoticeInv v (L ++ newMsgs s t ++ [t.nextMsg])) :
    Sending s L v := by
  have hbu := hcreate.base h.base
  have hn : v.nextMsg = t.nextMsg + 1 := by
    rcases hm.nextMsg with he | ⟨q,msecs,data,rfl,_⟩
    · cases hcreate with
      | create _ _ hc => exact he.trans hc.nextMsg
    · cases ha
  refine ⟨hm.base hbu,hm.ledger hbu (hcreate.ledger h.base h.ledger),h.next.trans (hn ▸ Nat.le_succ _),?_⟩
  rwa [newMsgs_succ h.next hn,← List.append_assoc]

private theorem pollFound_sending {s t u : Ins} {L : List Ptr} {b q : Ptr} {a : QueueArg} {n : Nat} (h : Sending s L t)
    (hlive : (t.queues q).freed = false) (hq : q < t.nextQueue) (hcli : b < t.nextCli)
    (hf : pollFound now b a t q = .ok (u,n)) : Sending s L u ∧ b < u.nextCli := by
  obtain ⟨t₁,hr,htr,_⟩ := pollFound_cases h.base hlive hq hcli hf
  have h₁ : Sending s L t₁ := by
    rcases pollRefresh_cases h.base hlive hq hr with rfl | ⟨id,_,_,⟨_,htouch⟩ | ⟨_,v,hcreate,hjoin⟩⟩
    · exact h
    · exact h.move htouch rfl rfl
    · exact h.pair hcreate hjoin rfl (noticeInv_join h.base h.record hcreate hjoin)
  refine htr.invariant (I := fun t => Sending s L t ∧ b < t.nextCli) ?_ ⟨h₁,?_⟩
  · rintro x t' u' hx ⟨hs,hc⟩ hm
    have hquiet : x.enrols = false ∧ x.posts = false := by
      rcases List.mem_cons.mp hx with rfl | hx
      · exact ⟨rfl,rfl⟩
      · rcases List.mem_cons.mp hx with rfl | hx
        · exact ⟨rfl,rfl⟩
        · obtain ⟨m,_,rfl⟩ := List.mem_map.mp hx
          exact ⟨rfl,rfl⟩
    exact ⟨hs.move hm hquiet.1 hquiet.2,lt_of_lt_of_le hc hm.next_le.2.2.2⟩
  · exact lt_of_lt_of_le hcli (pollRefresh_keeps h.base hlive hq hr).2.2

private theorem pollLoop_sending {s : Ins} {L : List Ptr} {b : Ptr} {args : List QueueArg} {acc acc' : PollAcc}
    (h : Sending s L acc.1) (hcli : b < acc.1.nextCli) (hloop : args.foldlM (pollQueueArg now b) acc = .ok acc') :
    Sending s L acc'.1 := by
  refine (foldlM_result (fun _ (acc : PollAcc) => Sending s L acc.1 ∧ b < acc.1.nextCli) ?_ ⟨h,hcli⟩ hloop).1
  rintro a args acc acc' ⟨hs,hc⟩ hone
  obtain ⟨k,_,⟨_,rfl⟩ | ⟨q,n,hget,hf,_⟩⟩ := pollQueueArg_cases hone
  · exact ⟨hs,hc⟩
  · obtain ⟨hq,hlive,_⟩ := hs.base.store.get_iff.mp hget
    exact pollFound_sending hs hlive hq hc hf

private theorem objsExpire_sending {s s' : Ins} {L : List Ptr} {type : ObjType} (h : Sending s L s)
    (hpass : objsExpire (expiryHost now) now type s = .ok s') : Sending s L s' := by
  refine (objsExpire_rule now type (Sending s L) (fun _ h => h.base) ?_ ?_ h).result hpass
  · intro t t' o ht hdue _ hobj
    cases type with
    | msg => exact ht.move (expireObj_msg hdue.mem hobj) rfl rfl
    | memqueue => exact ht.move (expireObj_memqueue hdue.mem hobj) rfl rfl
    | consumer =>
      obtain ⟨u,hcreate,hleave⟩ := expireObj_consumer ht.base hdue.mem hobj
      exact ht.pair hcreate hleave rfl
        (noticeInv_leave ht.base ht.ledger ht.record hcreate hleave)
  · intro t t' ht htouch
    exact ht.move htouch rfl rfl

/-- One step, with what it sends, keeps the record right. -/
theorem step_noticeInv {s s' : Ins} {l : Label} {out : Option Response} {L : List Ptr} (hb : Base s) (hl : Ledger s)
    (hi : NoticeInv s L) (h : step s l = .ok (s',out)) : NoticeInv s' (L ++ l.sends s s') := by
  have hstart : Sending s L s := ⟨hb,hl,le_rfl,by simpa [newMsgs] using hi⟩
  -- a step of none of the three callers of memqueue_msg_create
  have hsilent : (∀ a, l.allows s a → a.enrols = false ∧ a.posts = false) → Sending s L s' := by
    intro hallow
    refine (step_keeps (Sending s L) hb hl ?_ hstart h).2.2
    intro a t u ha _ _ ht hm
    exact ht.move hm (hallow a ha).1 (hallow a ha).2
  obtain ⟨now,event⟩ := l
  cases event with
  | put args =>
    refine (hsilent ?_).record
    intro a ha
    rw [show a = _ from ha]
    exact ⟨rfl,rfl⟩
  | post k expiry body =>
    show NoticeInv s' (L ++ [])
    rw [List.append_nil]
    refine (step_keeps (fun t => NoticeInv t L) hb hl ?_ hi h).2.2
    intro a t u ha hbt _ hit hm
    refine hm.noticeInv hbt ?_ hit
    rcases ha with ⟨m,rfl⟩ | ⟨q,_,rfl⟩ | ⟨q,rfl⟩ <;> rfl
  | poll args =>
    obtain ⟨t,i,j,hloop,hend⟩ := memqueuePollQueue_cases h
    have hnew : Sending s L (addCli s args.timeout) := hstart.move
        (show Move now _ _ _ from .newCli s args.timeout) rfl rfl
    have ht : Sending s L t := pollLoop_sending hnew (Nat.lt_succ_self _) hloop
    rcases hend with ⟨_,rfl⟩ | ⟨_,rfl,_⟩ | ⟨_,heq⟩
    · exact ht.record
    · exact (ht.move (show Move now _ _ _ from .suspend t (.pollWait s.nextCli)) rfl rfl).record
    · obtain ⟨as,has,hx⟩ := pollRespond_trace now t s.nextCli
      rw [show s' = (pollRespond t s.nextCli).1 from congrArg Prod.fst heq]
      refine (has.invariant (I := Sending s L) ?_ ht).record
      intro a t u ha hs hm
      rcases hx a ha with rfl | rfl <;> exact hs.move hm rfl rfl
  | delete k =>
    refine (hsilent ?_).record
    rintro a ⟨q,rfl⟩
    exact ⟨rfl,rfl⟩
  | head k => exact (hsilent fun a ha => ha.elim).record
  | wake b =>
    refine (hsilent ?_).record
    rintro a (rfl | rfl | rfl) <;> exact ⟨rfl,rfl⟩
  | resumePost q =>
    refine (hsilent ?_).record
    rintro a (rfl | rfl) <;> exact ⟨rfl,rfl⟩
  | resumeDelete q =>
    refine (hsilent ?_).record
    rintro a ⟨_,rfl | rfl⟩ <;> exact ⟨rfl,rfl⟩
  | resumePoll b =>
    refine (hsilent ?_).record
    rintro a ⟨_,rfl | rfl | ⟨m,rfl⟩⟩ <;> exact ⟨rfl,rfl⟩
  | expire type =>
    obtain ⟨t,ht,h⟩ := bind_ok h
    cases h
    exact (objsExpire_sending hstart ht).record

theorem reaches_noticeInv {P : Logged → Label → Prop} {tr : List Label} {x : Logged} (h : Run loggedStep P .init tr x) :
    Base x.ins ∧ Ledger x.ins ∧ NoticeInv x.ins x.log := by
  refine h.invariant (I := fun x => Base x.ins ∧ Ledger x.ins ∧ NoticeInv x.ins x.log) ?_
    ⟨base_init,ledger_init,noticeInv_init⟩
  rintro x l x' out ⟨hb,hl,hi⟩ _ hs
  obtain ⟨⟨s,out'⟩,hstep,hs⟩ := bind_ok hs
  cases hs
  obtain ⟨hb',hl',_⟩ := step_keeps (fun _ => True) hb hl (fun _ _ _ _ _ _ _ _ => trivial) trivial hstep
  exact ⟨hb',hl',step_noticeInv hb hl hi hstep⟩

/-- In every run, whatever it is made of, the notices about a consumer of a live queue take turns from its first
join on. It is registered as long as the last one says so, and all that time it is scheduled exactly once. -/
theorem notices_alternate {P : Logged → Label → Prop} {tr : List Label} {x : Logged} {q : Ptr}
    (h : Run loggedStep P .init tr x) (hq : q < x.ins.nextQueue) (hlive : (x.ins.queues q).freed = false) (c : Bytes) :
    Alternates .joined (x.notices q c) ∧
    (c ∈ Table.keys (x.ins.queues q).consumers ↔ (x.notices q c).getLast? = some .joined) ∧
    ((x.notices q c).getLast? = some .joined → (x.ins.expiry.indexed .consumer).countP
      (fun o => (x.ins.consumers o).memqueue = q ∧ (x.ins.consumers o).consumerId = c) = 1) := by
  obtain ⟨hb,hl,hi⟩ := reaches_noticeInv h
  have hiff := hi.joined q hq hlive c
  refine ⟨hi.alternates q hq hlive c,hiff,fun hlast => ?_⟩
  obtain ⟨⟨c,o⟩,hmem,rfl⟩ := List.mem_map.mp (hiff.mpr hlast)
  obtain ⟨_,hown,hid⟩ := hl.registered q _ o hmem
  -- an indexed consumer with this id stands in the table of the queue, where the id occurs once
  have honly : ∀ p ∈ x.ins.expiry.indexed .consumer,
      ((x.ins.consumers p).memqueue = q ∧ (x.ins.consumers p).consumerId = c) ↔ p = o := by
    intro p hp
    constructor
    · rintro ⟨hq',hid'⟩
      have hp' := hl.alive p hp (by rw [hq']; exact hlive)
      rw [hq',hid'] at hp'
      have h₁ := Table.get_of_mem (hl.ids q) hp'
      rw [Table.get_of_mem (hl.ids q) hmem] at h₁
      exact (Option.some.inj h₁).symm
    · rintro rfl
      exact ⟨hown,hid⟩
  have hcount : (x.ins.expiry.indexed .consumer).count o = 1 :=
    List.count_eq_one_of_mem (hb.index.wf.nodup .consumer) (hi.scheduled q hq hlive _ hmem)
  rw [← hcount,List.count]
  refine List.countP_congr fun p hp => ?_
  simp only [decide_eq_true_eq,beq_iff_eq]
  exact honly p hp

end Moves

/-- A consumer that joins, expires and comes back. -/
def rejoinTrace : List Label :=
  [⟨0,.put ⟨0,0,1000,0,[113]⟩⟩,⟨10,.poll ⟨[⟨some [113],0,0,some [99],0⟩],1000⟩⟩,⟨1010,.expire .consumer⟩,
    ⟨2000,.poll ⟨[⟨some [113],0,0,some [99],0⟩],1000⟩⟩]

theorem notices_alternate_rejoined :
    letI := Rebalance.plain ExpiryNode
    ∃ x, Run loggedStep (fun _ l => l.event.isDelete = false) .init rejoinTrace x ∧
      x.notices 0 [99] = [.joined,.expired,.joined] ∧ [99] ∈ Table.keys (x.ins.queues 0).consumers ∧
      (x.ins.expiry.indexed .consumer).countP
        (fun o => (x.ins.consumers o).memqueue = 0 ∧ (x.ins.consumers o).consumerId = [99]) = 1 := by
  let _ := Rebalance.plain ExpiryNode
  obtain ⟨x,hx,hobs⟩ := Option.map_eq_some_iff.mp (show
    (exec loggedStep (fun _ l => !l.event.isDelete) .init rejoinTrace).map
    (fun x => (x.ins.nextQueue,(x.ins.queues 0).freed,x.notices 0 [99])) = some (1,false,[.joined,.expired,.joined]) by
    decide +kernel)
  simp only [Prod.mk.injEq] at hobs
  obtain ⟨hq,hlive,hnotices⟩ := hobs
  have hr : Run loggedStep (fun _ l => l.event.isDelete = false) .init rejoinTrace x :=
    (Run.of_exec hx).mono fun _ _ hg => by simpa using hg
  have hlast : (x.notices 0 [99]).getLast? = some .joined := by
    rw [hnotices]
    rfl
  obtain ⟨_,hiff,honce⟩ := notices_alternate hr (by rw [hq]; decide) hlive [99]
  exact ⟨x,hr,hnotices,hiff.mpr hlast,honce hlast⟩

end Memqueue
