import Memqueue.Queue.Pollers

/-! How many messages a step can create in a queue, read off the state it starts in. -/
namespace Memqueue
open Ins Fallible Expiry

/-- The consumers of `q` whose deadline has come. -/
def Ins.dueConsumers (s : Ins) (now : Nat) (q : Ptr) : List Ptr :=
  (s.expiry.indexed .consumer).filter fun c => dueIn s.expiry .consumer (now % 2^32) c ∧ (s.consumers c).memqueue = q

/-- What a step may create in `q`, counted from above. A POST that is not refused creates one message. A poll creates
one notice for each consumer it registers, counted once for every entry that asks for a consumer not yet there: two
entries with the same new name count twice. The consumer pass creates one notice for each consumer it reaches, and all
that are due are counted. -/
def Label.creates (s : Ins) (l : Label) (q : Ptr) : Nat :=
  match l.event with
  | .post k _ _ => if s.queueStore.get k = some q ∧ ¬ s.refuses q then 1 else 0
  | .poll args => args.queueArgs.countP fun a => s.joins a q
  | .expire .consumer => (s.dueConsumers l.now q).length
  | _ => 0

/-- A list that lost the object `o` counts one less. -/
private theorem filter_erased {L L' : List Ptr} {o : Ptr} {f : Ptr → Bool} (hn : L.Nodup) (hn' : L'.Nodup)
    (ho : o ∈ L) (hmem : ∀ x, x ∈ L' ↔ x ∈ L ∧ x ≠ o) :
    (L'.filter f).length + (if f o then 1 else 0) = (L.filter f).length := by
  have hperm : L'.Perm (L.erase o) := by
    rw [List.perm_ext_iff_of_nodup hn' (hn.erase o)]
    intro x
    rw [hmem,hn.mem_erase_iff]
    tauto
  have hcons := (List.perm_cons_erase ho).symm
  have hlen : (L.filter f).length = ((o :: L.erase o).filter f).length := (hcons.filter f).length_eq.symm
  rw [hlen,(hperm.filter f).length_eq,List.filter_cons]
  split
  · simp
  · simp

section Steps
variable [Rebalance ExpiryNode]

/-- Moves that append nothing to `q`. -/
private theorem trace_created {now : Nat} {as : List Atom} {s s' : Ins} {q : Ptr} (h : Trace (Move now) as s s')
    (ha : ∀ a ∈ as, a.creates q = false) : s'.created q = s.created q := by
  refine h.invariant (I := fun t => t.created q = s.created q) (fun a t u hx ht hm => ?_) rfl
  rw [hm.created_eq,ha a hx,ht]
  rfl

/-- A queue that is new after a step was made by a PUT, and by nothing else. -/
theorem step_put {s s' : Ins} {l : Label} {out : Option Response} {q : Ptr} (hb : Base s)
    (h : step s l = .ok (s',out)) (hq : s.nextQueue ≤ q) (hq' : q < s'.nextQueue) :
    ∃ args, l.event = .put args ∧ Move l.now (.putQueue args) s s' := by
  obtain ⟨as,has,ha⟩ := step_trace hb h
  obtain ⟨now,event⟩ := l
  by_cases hput : ∃ args, event = .put args
  · obtain ⟨args,rfl⟩ := hput
    refine ⟨args,rfl,?_⟩
    simp only [step,onQueueCreate] at h
    split at h
    · cases h
      exact absurd hq' (Nat.not_lt.mpr hq)
    · rename_i hnone
      obtain ⟨t,ht,h⟩ := bind_ok h
      cases h
      exact memqueueCreate_move hnone ht
  · have hno : ∀ args, ¬ Label.allows s ⟨now,event⟩ (.putQueue args) := by
      intro args hx
      cases event with
      | put a => exact hput ⟨a,rfl⟩
      | post | delete | head | wake | resumePost | resumeDelete | resumePoll => simp [Label.allows] at hx
      | poll => exact hx.elim
      | expire type => cases type <;> exact hx.elim
    have hsame : s'.nextQueue = s.nextQueue := by
      refine has.invariant (I := fun t => t.nextQueue = s.nextQueue) (fun a t u hx ht hm => ?_) rfl
      rcases hm.nextQueue with hn | ⟨args,rfl,_⟩
      · exact hn.trans ht
      · exact absurd (ha _ hx) (hno args)
    exact absurd (hsame ▸ hq') (Nat.not_lt.mpr hq)

private theorem post_created {now : Nat} {s s' : Ins} {k : Bytes} {expiry : Int} {body : Bytes} {out : Option Response}
    (hb : Base s) (h : step s ⟨now,.post k expiry body⟩ = .ok (s',out)) (q : Ptr) :
    s'.created q ≤ s.created q + if s.queueStore.get k = some q ∧ ¬ s.refuses q then 1 else 0 := by
  rcases onMsgPost_cases h with ⟨rfl,_⟩ | ⟨p,hget,t,full,hfull,hend⟩
  · exact Nat.le_add_right _ _
  · obtain ⟨hp,hlive,_⟩ := hb.store.get_iff.mp hget
    obtain ⟨⟨as,has,ha⟩,hp',hlive',hroom⟩ := @isMemqueueFull_trace _ now _ _ _ _ hb hp hlive hfull
    have ht : t.created q = s.created q := trace_created has fun a hx => by
      obtain ⟨m,rfl⟩ := ha a hx
      rfl
    rcases hend with ⟨_,rfl,_⟩ | ⟨hadd,u,hu,rfl,_⟩
    · exact ht.le.trans (Nat.le_add_right _ _)
    · have hm := memqueueMsgCreate_move hlive' hp' hu
      have hcount : u.created q = t.created q + if Atom.creates q (.create p expiry body) then 1 else 0 :=
        hm.created_eq q
      change u.created q ≤ _
      rw [hcount,ht,hget]
      by_cases hpq : p = q
      · subst hpq
        simp [Atom.creates,hroom hadd]
      · simp [Atom.creates,hpq]

/-- One entry of a poll creates a notice only if it registers a consumer. -/
private theorem pollQueueArg_created {now : Nat} {s : Ins} {b q : Ptr} {acc acc' : PollAcc} {a : QueueArg}
    (hs : Base s) (hb : Base acc.1) (hcli : b < acc.1.nextCli) (hg : Grown s acc.1)
    (h : pollQueueArg now b acc a = .ok acc') :
    acc'.1.created q ≤ acc.1.created q + if s.joins a q then 1 else 0 := by
  obtain ⟨k,hk,⟨_,rfl⟩ | ⟨p,n,hget,hf,_⟩⟩ := pollQueueArg_cases h
  · exact Nat.le_add_right _ _
  · obtain ⟨hp,hlive,_⟩ := hb.store.get_iff.mp hget
    obtain ⟨s₁,hs₁,htr,_⟩ := pollFound_cases hb hlive hp hcli hf
    have hscan : acc'.1.created q = s₁.created q := by
      refine trace_created htr fun x hx => ?_
      rcases List.mem_cons.mp hx with rfl | hx
      · rfl
      · rcases List.mem_cons.mp hx with rfl | hx
        · rfl
        · obtain ⟨m,_,rfl⟩ := List.mem_map.mp hx
          rfl
    rw [hscan]
    rcases pollRefresh_cases hb hlive hp hs₁ with rfl | ⟨id,hid,hce,⟨_,hm⟩ | ⟨hnone,t,hm,hm'⟩⟩
    · exact Nat.le_add_right _ _
    · rw [hm.created_eq]
      exact Nat.le_add_right _ _
    · have hjoin := hg.joins hs hk hget hid hce hnone
      rw [hm'.created_eq,hm.created_eq]
      by_cases hpq : p = q
      · subst hpq
        simp [Atom.creates,hjoin]
      · simp [Atom.creates,hpq]

private theorem pollLoop_created {now : Nat} {s : Ins} {b q : Ptr} {args : List QueueArg} {acc' : PollAcc} {i j : Nat}
    (hb : Base s) (hcli : b < s.nextCli) (h : args.foldlM (pollQueueArg now b) (s,i,j) = .ok acc') :
    acc'.1.created q ≤ s.created q + args.countP fun a => s.joins a q := by
  have hloop := foldlM_result (fun rest (acc : PollAcc) => Base acc.1 ∧ b < acc.1.nextCli ∧ Grown s acc.1 ∧
    acc.1.created q + (rest.countP fun a => s.joins a q) ≤ s.created q + args.countP fun a => s.joins a q) ?_
    ⟨hb,hcli,.refl s,le_rfl⟩ h
  · exact hloop.2.2.2
  · rintro a rest acc acc₁ ⟨hb₀,hcli₀,hg,hle⟩ ht
    have hone := pollQueueArg_created (q := q) hb hb₀ hcli₀ hg ht
    have hsingle : [a].foldlM (pollQueueArg now b) acc = .ok acc₁ := by
      rw [List.foldlM_cons,ht]
      rfl
    obtain ⟨bs,hbs,hba⟩ := pollLoop_trace hb₀ hcli₀ hsingle
    refine ⟨trace_base hbs hb₀,hbs.invariant (fun _ _ _ _ hlt hm => lt_of_lt_of_le hlt hm.next_le.2.2.2) hcli₀,
      hbs.invariant (fun x _ _ hx hg hm => hg.move hm (hba x hx)) hg,?_⟩
    simp only [List.countP_cons,decide_eq_true_eq] at hle
    omega

private theorem consumers_created {now : Nat} {s s' : Ins} {q : Ptr} (hc : Stable s)
    (h : objsExpire (expiryHost now) now .consumer s = .ok s') :
    s'.created q ≤ s.created q + (s.dueConsumers now q).length := by
  have hrule := objsExpire_rule now .consumer (fun t => Base t ∧ SameConsumers s t ∧
    t.created q + ((t.expiry.indexed .consumer).filter fun c => dueIn s.expiry .consumer (now % 2^32) c ∧
      (s.consumers c).memqueue = q).length ≤ s.created q + (s.dueConsumers now q).length) (fun t ht => ht.1) ?_ ?_
    ⟨hc.base,.refl s,le_rfl⟩
  · exact le_trans (Nat.le_add_right _ _) (hrule.result h).2.2
  · rintro t t' o ⟨hb,hsame,hle⟩ hdue hdue₀ hx
    obtain ⟨u,hcr,hlv⟩ := expireObj_consumer hb hdue.mem hx
    have hbu := hcr.base hb
    have hbt := hlv.base hbu
    refine ⟨hbt,?_,?_⟩
    · rcases hcr.sameConsumer with ⟨_,h₁⟩ | ⟨_,_,hx,_⟩
      · rcases hlv.sameConsumer with ⟨_,h₂⟩ | ⟨_,_,hx,_⟩
        · exact (hsame.trans h₁).trans h₂
        · cases hx
      · cases hx
    · -- the notice of `o` is paid for by `o` leaving the index
      have hmem : ∀ x, x ∈ t'.expiry.indexed .consumer ↔ x ∈ t.expiry.indexed .consumer ∧ x ≠ o := by
        intro x
        rw [(hlv.indexed hbu.index).2,(hcr.indexed hb.index).2]
        simp [Atom.unlinks,Atom.links]
      have hcount := filter_erased (f := fun c => dueIn s.expiry .consumer (now % 2^32) c ∧
        (s.consumers c).memqueue = q) (hb.index.wf.nodup .consumer) (hbt.index.wf.nodup .consumer) hdue.mem hmem
      have hcreated : t'.created q = t.created q + if (t.consumers o).memqueue = q then 1 else 0 := by
        rw [hlv.created_eq,hcr.created_eq]
        simp [Atom.creates]
      rw [(hsame o).1] at hcreated
      simp only [hdue₀,true_and,decide_eq_true_eq] at hcount
      omega
  · rintro t t' ⟨hb,hsame,hle⟩ hm
    have hperm : (t'.expiry.indexed .consumer).Perm (t.expiry.indexed .consumer) := by
      rw [List.perm_ext_iff_of_nodup ((hm.base hb).index.wf.nodup .consumer) (hb.index.wf.nodup .consumer)]
      intro x
      rw [(hm.indexed hb.index).2]
      simp [Atom.unlinks,Atom.links]
    refine ⟨hm.base hb,?_,?_⟩
    · cases hm
      exact hsame
    · rw [hm.created_eq,(hperm.filter _).length_eq]
      exact hle

/-- No step creates more messages in a queue than its start foretells. -/
theorem step_created {s s' : Ins} {l : Label} {out : Option Response} (hc : Coherent s)
    (h : step s l = .ok (s',out)) (q : Ptr) : s'.created q ≤ s.created q + l.creates s q := by
  obtain ⟨now,event⟩ := l
  have hnone : (∀ a, Label.allows s ⟨now,event⟩ a → a.creates q = false) →
      s'.created q ≤ s.created q + Label.creates s ⟨now,event⟩ q := by
    intro hno
    obtain ⟨as,has,ha⟩ := step_trace hc.base h
    rw [trace_created has fun a hx => hno a (ha a hx)]
    exact Nat.le_add_right _ _
  cases event with
  | put args => exact hnone fun a ha => by rw [show a = _ from ha]; rfl
  | post k expiry body => exact post_created hc.base h q
  | poll args =>
    obtain ⟨t,i,j,ht,hend⟩ := memqueuePollQueue_cases h
    have hnew : Move now (.newCli args.timeout) s (addCli s args.timeout) := .newCli s args.timeout
    have hle := pollLoop_created (q := q) (hnew.base hc.base) (Nat.lt_succ_self _) ht
    rcases hend with ⟨_,rfl⟩ | ⟨_,rfl,_⟩ | ⟨_,he⟩
    · exact hle
    · exact hle
    · obtain ⟨bs,hbs,hba⟩ := pollRespond_trace now t s.nextCli
      rw [← he] at hbs
      rw [trace_created hbs fun x hx => by rcases hba x hx with rfl | rfl <;> rfl]
      exact hle
  | delete k => exact hnone fun a ha => by obtain ⟨_,rfl⟩ := ha; rfl
  | head k => exact hnone fun a ha => ha.elim
  | wake b => exact hnone fun a ha => by rcases ha with rfl | rfl | rfl <;> rfl
  | resumePost p => exact hnone fun a ha => by rcases ha with rfl | rfl <;> rfl
  | resumeDelete p => exact hnone fun a ha => by rcases ha with ⟨_,rfl | rfl⟩ <;> rfl
  | resumePoll b => exact hnone fun a ha => by rcases ha with ⟨_,rfl | rfl | ⟨_,rfl⟩⟩ <;> rfl
  | expire type =>
    cases type with
    | msg => exact hnone fun a ha => by cases a <;> first | rfl | exact ha.elim
    | memqueue => exact hnone fun a ha => by cases a <;> first | rfl | exact ha.elim
    | consumer =>
      obtain ⟨t,ht,h⟩ := bind_ok h
      cases h
      exact consumers_created hc.toStable ht

/-- What the moves of a step preserve, each within the messages its start foretells. -/
theorem budget_keeps {s s' : Ins} {l : Label} {out : Option Response} (I : Ins → Prop) (hc : Coherent s)
    (hmove : ∀ a t u, l.allows s a → Stable t → I t → Move l.now a t u →
      (∀ q, u.created q ≤ s.created q + l.creates s q) → I u)
    (hs : I s) (h : step s l = .ok (s',out)) : I s' := by
  obtain ⟨as,has,ha⟩ := step_trace hc.base h
  refine (has.invariant_until (I := fun t => Stable t ∧ I t) (fun a t u bs hx ht hm hbs _ => ?_) ⟨hc.toStable,hs⟩).2
  refine ⟨hm.stable ht.1,hmove a t u (ha a hx) ht.1 ht.2 hm fun q => le_trans ?_ (step_created hc h q)⟩
  exact hbs.invariant (I := fun v => u.created q ≤ v.created q)
    (fun _ _ _ _ hle hm => hle.trans (by rw [hm.created_eq]; exact Nat.le_add_right _ _)) le_rfl

end Steps
end Memqueue
