import Memqueue.Queue.Creation

/-! The limit max_size of a queue. It is kept as long as the message dropped from the head of a full queue has
no holder, and the notices about consumers, which are never checked against the limit, fit under it. -/
namespace Memqueue
open Ins Fallible Expiry

/-- A dropped head has no holder, and notices find room. -/
def Label.fits (s : Ins) (l : Label) : Prop :=
  match l.event with
  | .post k _ _ => ∀ q ∈ s.queueStore.get k, (s.queues q).dropFromHead ≠ 0 → 0 < (s.queues q).maxSize →
    (s.queues q).maxSize ≤ (s.queues q).msgsInQueue → ∀ m ∈ (s.queues q).msgQueue.head?, (s.msgs m).refCount = 0
  | _ => ∀ q < s.nextQueue, (s.queues q).freed = false → 0 < (s.queues q).maxSize → 0 < l.creates s q →
    (s.queues q).msgsInQueue + l.creates s q ≤ (s.queues q).maxSize

instance (s : Ins) (l : Label) : Decidable (l.fits s) :=
  match l with
  | ⟨_,.post k _ _⟩ => inferInstanceAs (Decidable (∀ q ∈ s.queueStore.get k, _ → _ → _ → ∀ m ∈ _, _))
  | ⟨_,.put _⟩ => inferInstanceAs (Decidable (∀ q < s.nextQueue, _))
  | ⟨_,.poll _⟩ => inferInstanceAs (Decidable (∀ q < s.nextQueue, _))
  | ⟨_,.delete _⟩ => inferInstanceAs (Decidable (∀ q < s.nextQueue, _))
  | ⟨_,.head _⟩ => inferInstanceAs (Decidable (∀ q < s.nextQueue, _))
  | ⟨_,.wake _⟩ => inferInstanceAs (Decidable (∀ q < s.nextQueue, _))
  | ⟨_,.resumePost _⟩ => inferInstanceAs (Decidable (∀ q < s.nextQueue, _))
  | ⟨_,.resumeDelete _⟩ => inferInstanceAs (Decidable (∀ q < s.nextQueue, _))
  | ⟨_,.resumePoll _⟩ => inferInstanceAs (Decidable (∀ q < s.nextQueue, _))
  | ⟨_,.expire _⟩ => inferInstanceAs (Decidable (∀ q < s.nextQueue, _))

/-- No live queue with a limit is over it. -/
def WithinLimit (s : Ins) : Prop :=
  ∀ q < s.nextQueue, (s.queues q).freed = false → 0 < (s.queues q).maxSize →
    ((s.queues q).msgQueue.length : Int) ≤ (s.queues q).maxSize

section Steps
variable [Rebalance ExpiryNode]

/-- What a step has done to the list of `q` so far: it grew by no more than what was created. -/
private structure GrownList (s : Ins) (q : Ptr) (t : Ins) : Prop where
  queue : q < t.nextQueue
  live : (t.queues q).freed = false → (s.queues q).freed = false
  limit : (t.queues q).maxSize = (s.queues q).maxSize
  length : (t.queues q).msgQueue.length + s.created q ≤ (s.queues q).msgQueue.length + t.created q

private theorem GrownList.move {now : Nat} {a : Atom} {s t u : Ins} {q : Ptr} (h : GrownList s q t)
    (hm : Move now a t u) : GrownList s q u := by
  have hq := h.queue
  refine ⟨lt_of_lt_of_le hq hm.next_le.2.1,fun hl => h.live (hm.live_of hq hl),
    (hm.sameQueue hq).maxSize.trans h.limit,?_⟩
  have hlen := h.length
  have hcount := hm.created_eq q
  rcases hm.msgQueue hq with he | ⟨_,_,rfl,he⟩ | ⟨m,_,_,_,he⟩
  · rw [he]
    omega
  · rw [he,List.length_append,List.length_singleton]
    simp only [Atom.creates,decide_true,if_true] at hcount
    omega
  · rw [he]
    have := List.length_erase_le (a := m) (l := (t.queues q).msgQueue)
    omega

private theorem step_grown {s s' : Ins} {l : Label} {out : Option Response} {q : Ptr} (hc : Coherent s)
    (hq : q < s.nextQueue) (h : step s l = .ok (s',out)) : GrownList s q s' ∧
      (s'.queues q).msgQueue.length ≤ (s.queues q).msgQueue.length + l.creates s q := by
  have hg := (coherent_keeps (GrownList s q) hc (fun _ _ _ _ _ ht hm => ht.move hm)
    ⟨hq,id,rfl,le_rfl⟩ h).2
  have hle := step_created hc h q
  have hlen := hg.length
  exact ⟨hg,by omega⟩

/-- The queue a POST goes to: a full one that drops loses its head first. -/
private theorem post_length {now : Nat} {s s' : Ins} {k : Bytes} {expiry : Int} {body : Bytes} {out : Option Response}
    {q : Ptr} (hc : Coherent s) (hget : s.queueStore.get k = some q) (hg : Label.fits s ⟨now,.post k expiry body⟩)
    (hpos : 0 < (s.queues q).maxSize) (hle : ((s.queues q).msgQueue.length : Int) ≤ (s.queues q).maxSize)
    (h : step s ⟨now,.post k expiry body⟩ = .ok (s',out)) :
    ((s'.queues q).msgQueue.length : Int) ≤ (s.queues q).maxSize := by
  obtain ⟨hq,hlive,_⟩ := hc.base.store.get_iff.mp hget
  have hcount := hc.revs.count q hq
  rcases onMsgPost_cases h with ⟨rfl,_⟩ | ⟨p,hp,t,full,hfull,hend⟩
  · exact hle
  · obtain rfl := Option.some.inj (hget.symm.trans hp)
    have happend : ∀ u, memqueueMsgCreate now t q expiry body = .ok u →
        (u.queues q).msgQueue.length = (t.queues q).msgQueue.length + 1 := by
      intro u hu
      rw [(memqueueMsgCreate_effect hu).queues,Function.update_self,List.length_append]
      rfl
    rcases isMemqueueFull_cases now hc.base hfull with ⟨hf,rfl,hroom⟩ | ⟨hf,rfl,_⟩ | ⟨hf,_,hfl,hdrop,m,ms,hlist,hm⟩
    · rcases hend with ⟨hf',_⟩ | ⟨_,u,hu,rfl,_⟩
      · rw [hf] at hf'
        cases hf'
      · have := happend u hu
        change ((u.queues q).msgQueue.length : Int) ≤ _
        omega
    · rcases hend with ⟨_,rfl,_⟩ | ⟨hf',_⟩
      · exact hle
      · rw [hf] at hf'
        cases hf'
    · rcases hend with ⟨hf',_⟩ | ⟨_,u,hu,rfl,_⟩
      · rw [hf] at hf'
        cases hf'
      · -- the head goes because nobody holds it
        have hzero : (s.msgs m).refCount = 0 :=
          hg q (by rw [hget]; rfl) hdrop hpos hfl m (by rw [hlist]; rfl)
        have hown := (hc.base.listed q m (by rw [hlist]; exact List.mem_cons_self)).2
        have hlen : (t.queues q).msgQueue.length + 1 = (s.queues q).msgQueue.length := by
          rw [hm.drop_lost.1.queues,hown,Function.update_self,hlist]
          simp [hzero]
        have := happend u hu
        change ((u.queues q).msgQueue.length : Int) ≤ _
        omega

theorem step_withinLimit {s s' : Ins} {l : Label} {out : Option Response} (hc : Coherent s) (hi : WithinLimit s)
    (hg : l.fits s) (h : step s l = .ok (s',out)) : WithinLimit s' := by
  intro q hq' hlive' hpos'
  by_cases hq : q < s.nextQueue
  · obtain ⟨hgrown,hlen⟩ := step_grown hc hq h
    have hlive := hgrown.live hlive'
    rw [hgrown.limit] at hpos' ⊢
    have hle := hi q hq hlive hpos'
    have hcount := hc.revs.count q hq
    by_cases hzero : l.creates s q = 0
    · omega
    · obtain ⟨now,event⟩ := l
      cases event with
      | post k expiry body =>
        have hget : s.queueStore.get k = some q := by
          by_contra hne
          exact hzero (by simp [Label.creates,hne])
        exact post_length hc hget hg hpos' hle h
      | _ =>
        have := hg q hq hlive hpos' (Nat.pos_of_ne_zero hzero)
        omega
  · obtain ⟨args,_,hm⟩ := step_put hc.base h (Nat.le_of_not_lt hq) hq'
    rw [hm.msgQueue_new hc.base.store (Nat.le_of_not_lt hq)]
    exact hpos'.le

/-- In every run whose steps fit, no live queue holds more messages than its limit. -/
theorem size_limit_kept {tr : List Label} {s : Ins} (h : Reaches (fun s l => l.fits s) tr s) :
    ∀ q < s.nextQueue, (s.queues q).freed = false → 0 < (s.queues q).maxSize →
      ((s.queues q).msgQueue.length : Int) ≤ (s.queues q).maxSize := by
  refine (h.invariant (I := fun s => Coherent s ∧ WithinLimit s) ?_ ⟨coherent_init,nofun⟩).2
  rintro s l s' out ⟨hc,hi⟩ hg hs
  exact ⟨step_coherent hc hs,step_withinLimit hc hi hg hs⟩

end Steps

/-- A queue of size 1 that drops from its head, and two messages that stay for good. -/
theorem size_limit_exceeded :
    letI := Rebalance.plain ExpiryNode
    ∃ s, Reaches (fun _ _ => True)
        [⟨0,.put ⟨0,1,0,1,[113]⟩⟩,⟨1,.post [113] (-1) [1]⟩,⟨2,.post [113] (-1) [2]⟩] s ∧
      0 < s.nextQueue ∧ (s.queues 0).freed = false ∧ (s.queues 0).maxSize = 1 ∧ (s.queues 0).msgQueue.length = 2 := by
  let _ := Rebalance.plain ExpiryNode
  obtain ⟨s,hs,hobs⟩ := Option.map_eq_some_iff.mp (show (exec step (fun _ _ => true) .init
      [⟨0,.put ⟨0,1,0,1,[113]⟩⟩,⟨1,.post [113] (-1) [1]⟩,⟨2,.post [113] (-1) [2]⟩]).map
        (fun s => (s.nextQueue,(s.queues 0).freed,(s.queues 0).maxSize,(s.queues 0).msgQueue.length)) =
    some (1,false,1,2) by decide +kernel)
  simp only [Prod.mk.injEq] at hobs
  obtain ⟨hn,hlive,hmax,hlen⟩ := hobs
  exact ⟨s,(Run.of_exec hs).mono fun _ _ _ => trivial,by rw [hn]; decide,hlive,hmax,hlen⟩

/-- Two messages with expiry 0 and no poller: the first has no holder and gives way. -/
theorem size_limit_kept_dropping :
    letI := Rebalance.plain ExpiryNode
    ∃ s, Reaches (fun s l => l.fits s)
        [⟨0,.put ⟨0,1,0,1,[113]⟩⟩,⟨1,.post [113] 0 [1]⟩,⟨2,.post [113] 0 [2]⟩] s ∧
      ((s.queues 0).msgQueue.length : Int) ≤ (s.queues 0).maxSize := by
  let _ := Rebalance.plain ExpiryNode
  obtain ⟨s,hs,hobs⟩ := Option.map_eq_some_iff.mp (show (exec step (fun s l => decide (l.fits s)) .init
      [⟨0,.put ⟨0,1,0,1,[113]⟩⟩,⟨1,.post [113] 0 [1]⟩,⟨2,.post [113] 0 [2]⟩]).map
        (fun s => (s.nextQueue,(s.queues 0).freed,(s.queues 0).maxSize)) = some (1,false,1) by decide +kernel)
  simp only [Prod.mk.injEq] at hobs
  obtain ⟨hn,hlive,hmax⟩ := hobs
  have hr : Reaches (fun s l => l.fits s) _ s := (Run.of_exec hs).mono fun _ _ hg => by simpa using hg
  exact ⟨s,hr,size_limit_kept hr 0 (by rw [hn]; decide) hlive (by rw [hmax]; decide)⟩

end Memqueue
