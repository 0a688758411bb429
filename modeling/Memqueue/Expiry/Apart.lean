import Memqueue.Expiry.Backlinks
import Memqueue.Expiry.Deadlines

/-! Calls of obj_sched_expire that keep queues and consumers apart: no two of them stand at one deadline.
Messages may share theirs, as nothing ever looks at the pointer of a message. -/
namespace Memqueue
open Fallible Expiry

/-- A node lists objects of the type of its tree only. -/
def Expiry.Pure (e : Expiry) : Prop := ∀ type, ∀ n ∈ (e.root type).inorder, ∀ t, t ≠ type → n.objs t = []

/-- The exemption of the message tree. -/
def msgsOnly : ObjType → Ptr → Prop := fun t _ => t = .msg

/-- The index with the pointers of queues and consumers in order. -/
structure Tidy (e : Expiry) : Prop where
  wf : e.Wf NoneExempt
  sound : e.Sound
  pure : e.Pure
  links : Backlinks msgsOnly msgsOnly e

theorem tidy_empty : Tidy .empty where
  wf := wf_empty
  sound := sound_empty
  pure _ _ h := by cases h
  links := backlinks_empty.mono (fun _ _ h => h.elim) fun _ _ h => h.elim

/-- No call for a queue or consumer gets the deadline of another one, in the tree or among the calls. -/
def Apart (now : Nat) (e : Expiry) (cs : List Sched) : Prop :=
  ∀ c ∈ cs, c.type ≠ .msg →
    (∀ n ∈ (e.root c.type).inorder, n.msecs = (now + c.msecs) % 2^32 → ∀ o ∈ n.objs c.type, o = c.obj) ∧
    ∀ c' ∈ cs, c'.type = c.type → (now + c'.msecs) % 2^32 = (now + c.msecs) % 2^32 → c'.obj = c.obj

instance (now : Nat) (e : Expiry) (cs : List Sched) : Decidable (Apart now e cs) :=
  inferInstanceAs (Decidable (∀ c ∈ cs, _))

private theorem Expiry.Pure.mapRoot {e : Expiry} {type : ObjType} {f : ExpiryNode → ExpiryNode} (h : e.Pure)
    (hf : ∀ n, ∀ t, t ≠ type → (f n).objs t = n.objs t) : (e.setRoot type ((e.root type).map f)).Pure := by
  intro u n hn t ht
  by_cases hu : u = type
  · subst hu
    rw [root_setRoot,Tree.inorder_map] at hn
    obtain ⟨m,hm,rfl⟩ := List.mem_map.mp hn
    rw [hf m t ht]
    exact h u m hm t ht
  · rw [root_setRoot_ne e hu] at hn
    exact h u n hn t ht

section Moves
variable [Rebalance ExpiryNode] {now : Nat}

theorem IndexMove.pure {op : IndexOp} {e e' : Expiry} (h : IndexMove now op e e') (hp : e.Pure) : e'.Pure := by
  have hins : ∀ (type : ObjType) (addr obj : Ptr) (n : ExpiryNode), ∀ t, t ≠ type →
      (if n.addr = addr then n.setObjs type (obj :: n.objs type) else n).objs t = n.objs t := by
    intro type addr obj n t ht
    split
    · exact ExpiryNode.objs_setObjs_ne n ht _
    · rfl
  cases h with
  | @sched c _ _ _ h =>
    obtain ⟨b,⟨t,_,ht,rfl⟩ | ⟨n,_,rfl⟩⟩ := objSchedExpire_cases h
    · have hnew : ((e.signalIf b).allocNode.setRoot c.type t).Pure := by
        obtain ⟨l,r,hold,hin⟩ := rbInsert_inorder ht
        intro u n hn k hk
        by_cases hu : u = c.type
        · subst hu
          rw [root_setRoot,hin,List.mem_append,List.mem_cons] at hn
          have hn' : n ∈ (e.root c.type).inorder ∨ n = ⟨e.nextNode,(now + c.msecs) % 2^32,[],[],[]⟩ := by
            rw [hold,List.mem_append]
            tauto
          rcases hn' with hn | rfl
          · exact hp c.type n hn k hk
          · cases k <;> rfl
        · rw [root_setRoot_ne _ hu] at hn
          exact hp u n hn k hk
      exact hnew.mapRoot (hins c.type e.nextNode c.obj)
    · have hsig : (e.signalIf b).Pure := hp
      exact hsig.mapRoot (hins c.type n.addr c.obj)
  | unlink => exact hp.mapRoot fun n t ht => ExpiryNode.objs_setObjs_ne n ht _
  | clear => exact hp
  | @sweep type addr _ _ _ h =>
    obtain ⟨_,_,_,⟨_,_,rfl⟩ | ⟨_,_,rfl⟩⟩ := possiblyNodeFree_cases h
    · intro u n hn t ht
      by_cases hu : u = type
      · subst hu
        rw [root_setRoot,Rebalance.inorder_erase] at hn
        exact hp u n (List.mem_of_mem_filter hn) t ht
      · rw [root_setRoot_ne e hu] at hn
        exact hp u n hn t ht
    · exact hp

variable {P : ObjType → Ptr → Prop} {cs cs' : List Sched} {e e' : Expiry}

theorem IndexTrace.pure (h : IndexTrace now P cs e e') (hs : e.Sound) (hp : e.Pure) : e'.Pure :=
  (h.invariant (I := Expiry.Pure) (fun _ _ _ _ _ hu hm => hm.pure hu) hs hp).2

theorem IndexTrace.sound (h : IndexTrace now P cs e e') (hs : e.Sound) : e'.Sound :=
  (h.invariant (I := fun _ => True) (fun _ _ _ _ _ _ _ => trivial) hs trivial).1

/-- An object stands where it stood, or where a call has put it. -/
theorem IndexTrace.linkedAt (h : IndexTrace now P cs e e') (hs : e.Sound) {type : ObjType} {d : Nat} {o : Ptr}
    (hl : e'.linkedAt type d o) :
    e.linkedAt type d o ∨ ∃ c ∈ cs, c.type = type ∧ c.obj = o ∧ d = (now + c.msecs) % 2^32 := by
  refine (h.invariant (I := fun u => ∀ type d o, u.linkedAt type d o → e.linkedAt type d o ∨
    ∃ c ∈ cs, c.type = type ∧ c.obj = o ∧ d = (now + c.msecs) % 2^32) ?_ hs (fun _ _ _ h => .inl h)).2 type d o hl
  intro op u v hop hu hi hm type d o hl
  rcases hm.linkedAt hu hl with hold | ⟨c,rfl,ht,ho,hd⟩
  · exact hi type d o hold
  · exact .inr ⟨c,hop c rfl,ht,ho,hd⟩

omit [Rebalance ExpiryNode] in
theorem Apart.left (h : Apart now e (cs ++ cs')) : Apart now e cs := by
  intro c hc hm
  obtain ⟨h₁,h₂⟩ := h c (List.mem_append_left _ hc) hm
  exact ⟨h₁,fun c' hc' => h₂ c' (List.mem_append_left _ hc')⟩

/-- What the first calls leave behind is still apart from the others. -/
theorem Apart.right (h : Apart now e (cs ++ cs')) (hs : e.Sound) (htr : IndexTrace now P cs e e') :
    Apart now e' cs' := by
  intro c hc hm
  obtain ⟨h₁,h₂⟩ := h c (List.mem_append_right _ hc) hm
  refine ⟨?_,fun c' hc' => h₂ c' (List.mem_append_right _ hc')⟩
  intro n hn hmsecs o ho
  rcases htr.linkedAt hs ⟨n,hn,hmsecs,ho⟩ with ⟨m,hm',hd,ho'⟩ | ⟨c',hc',ht,hobj,hd⟩
  · exact h₁ m hm' hd o ho'
  · rw [← hobj]
    exact h₂ c' (List.mem_append_left _ hc') ht hd.symm

omit [Rebalance ExpiryNode] in
/-- A node that lists nothing but `obj` is empty without it. -/
private theorem isEmpty_erase {n : ExpiryNode} {type : ObjType} {obj : Ptr} (hp : ∀ t, t ≠ type → n.objs t = [])
    (hn : (n.objs type).Nodup) (ho : ∀ o ∈ n.objs type, o = obj) :
    (n.setObjs type ((n.objs type).erase obj)).isEmpty = true := by
  have hnil : (n.objs type).erase obj = [] := by
    rw [List.eq_nil_iff_forall_not_mem]
    intro o hin
    rw [hn.mem_erase_iff] at hin
    exact hin.1 (ho o hin.2)
  apply @ExpiryNode.isEmpty_of_objs _ type
  · intro t ht
    rw [ExpiryNode.objs_setObjs_ne n ht]
    exact hp t ht
  · rw [ExpiryNode.objs_setObjs]
    exact hnil

/-- The calls made for an object leave it at one of their deadlines. -/
theorem IndexTrace.called (h : IndexTrace now P cs e e') (hs : e.Sound) {c : Sched} (hc : c ∈ cs) {d : Nat}
    (hl : e'.linkedAt c.type d c.obj) : ∃ c' ∈ cs, c'.type = c.type ∧ c'.obj = c.obj ∧ d = (now + c'.msecs) % 2^32 := by
  obtain ⟨ops,htr,rfl,hun⟩ := h
  clear hun
  induction htr with
  | nil => cases hc
  | @cons op ops e t u hop htr ih =>
    have ht := hop.sound hs
    by_cases hlater : c ∈ ops.filterMap IndexOp.call
    · obtain ⟨c',hc',h⟩ := ih ht hl hlater
      exact ⟨c',List.mem_filterMap.mpr (by
        obtain ⟨x,hx,he⟩ := List.mem_filterMap.mp hc'
        exact ⟨x,List.mem_cons_of_mem _ hx,he⟩),h⟩
    · -- the call is this one, and the object is in no list before it
      have hthis : op = .sched c := by
        obtain ⟨x,hx,he⟩ := List.mem_filterMap.mp hc
        rcases List.mem_cons.mp hx with rfl | hx
        · cases x with
          | sched c' => rw [Option.some.inj he]
          | _ => cases he
        · exact absurd (List.mem_filterMap.mpr ⟨x,hx,he⟩) hlater
      subst hthis
      have hrest : IndexTrace now (fun _ _ => True) (ops.filterMap IndexOp.call) t u :=
        ⟨ops,htr,rfl,fun _ _ _ => .inr trivial⟩
      rcases hrest.linkedAt ht hl with hold | ⟨c',hc',h⟩
      · cases hop with
        | sched hout hsched =>
          rcases (IndexMove.sched hout hsched).linkedAt hs hold with hbefore | ⟨c',he,h₁,h₂,hd⟩
          · exact absurd (mem_indexed_iff.mpr ⟨d,hbefore⟩) hout
          · cases he
            exact ⟨c,hc,rfl,rfl,hd⟩
      · refine ⟨c',?_,h⟩
        obtain ⟨x,hx,he⟩ := List.mem_filterMap.mp hc'
        exact List.mem_filterMap.mpr ⟨x,List.mem_cons_of_mem _ hx,he⟩

omit [Rebalance ExpiryNode] in
/-- A change of the message tree alone. -/
theorem Backlinks.msgs {X Y : ObjType → Ptr → Prop} (h : Backlinks X Y e) (hX : ∀ a, X .msg a) (hY : ∀ o, Y .msg o)
    (hsame : ∀ t, t ≠ .msg → e'.root t = e.root t ∧ e'.expiryNode t = e.expiryNode t) : Backlinks X Y e' := by
  refine ⟨?_,?_,?_⟩
  · intro t n hn o ho
    have ht : t ≠ .msg := fun he => ho (he ▸ hY o)
    rw [(hsame t ht).1] at hn
    rw [(hsame t ht).2]
    exact h.agree t n hn o ho
  · intro t o ho hout
    have ht : t ≠ .msg := fun he => ho (he ▸ hY o)
    rw [(hsame t ht).2]
    apply h.unlinked t o ho
    rwa [indexed,(hsame t ht).1] at hout
  · intro t n hn hx
    have ht : t ≠ .msg := fun he => hx (he ▸ hX n.addr)
    rw [(hsame t ht).1] at hn
    exact h.occupied t n hn hx

/-- A call with a deadline of its own, or for a message. -/
theorem Tidy.sched {c : Sched} (h : Tidy e) (hout : c.obj ∉ e.indexed c.type) (ha : Apart now e [c])
    (hs : objSchedExpire e now c.obj c.msecs c.type = .ok e') : Tidy e' := by
  have htr : IndexTrace now (fun _ _ => True) [c] e e' := .sched hout hs
  have hw' := (objSchedExpire_spec h.wf hout hs).1
  by_cases hmsg : c.type = .msg
  · refine ⟨hw',htr.sound h.sound,htr.pure h.sound h.pure,h.links.msgs (fun _ => rfl) (fun _ => rfl) ?_⟩
    intro t ht
    exact objSchedExpire_root_ne (fun he => ht (he.trans hmsg)) hs
  · have hfree := (ha c (List.mem_singleton_self c) hmsg).1
    have hnone : rbSearch (e.root c.type) ((now + c.msecs) % 2^32) = none := by
      cases hfound : rbSearch (e.root c.type) ((now + c.msecs) % 2^32) with
      | none => rfl
      | some n =>
        obtain ⟨hn,hmsecs⟩ := rbSearch_mem hfound
        have hempty : n.objs c.type = [] := by
          rw [List.eq_nil_iff_forall_not_mem]
          intro o ho
          rw [hfree n hn hmsecs o ho] at ho
          exact hout (mem_indexed.mpr ⟨n,hn,ho⟩)
        have hocc := h.links.occupied c.type n hn hmsg
        rw [ExpiryNode.isEmpty_of_objs (h.pure c.type n hn) hempty] at hocc
        cases hocc
    refine ⟨hw',htr.sound h.sound,htr.pure h.sound h.pure,?_⟩
    exact Backlinks.sched h.wf (h.links.mono (fun _ _ hx => hx) fun _ _ hy => .inl hy) hout hnone hs

theorem Tidy.resched {obj expiry : Nat} {type : ObjType} (h : Tidy e) (hmsg : type ≠ .msg)
    (ha : Apart now e (reschedCalls e type obj expiry)) (hs : resched e now obj expiry type = .ok e') : Tidy e' := by
  have htr : IndexTrace now (fun _ _ => True) (reschedCalls e type obj expiry) e e' := resched_index h.wf hs
  refine ⟨(resched_spec h.wf hs).1,htr.sound h.sound,htr.pure h.sound h.pure,?_⟩
  refine h.links.resched h.wf (fun _ => hmsg) hmsg ?_ hs
  cases hnode : e.expiryNode type obj with
  | none => exact .inl hnode
  | some addr =>
    refine .inr ?_
    intro n hn hmsecs
    apply isEmpty_erase (h.pure type n hn) ((List.nodup_flatMap.mp (h.wf.nodup type)).1 n hn)
    exact (ha ⟨type,obj,expiry⟩ (by simp [reschedCalls,hnode]) hmsg).1 n hn hmsecs

omit [Rebalance ExpiryNode] in
/-- A linked queue or consumer is rescheduled when its turn comes. -/
theorem Tidy.reschedCalls {obj : Ptr} {type : ObjType} (h : Tidy e) (hmsg : type ≠ .msg) (hin : obj ∈ e.indexed type)
    (expiry : Nat) : reschedCalls e type obj expiry = [⟨type,obj,expiry⟩] := by
  obtain ⟨n,hn,ho⟩ := mem_indexed.mp hin
  rw [Memqueue.reschedCalls,(h.links.agree type n hn obj hmsg).mp ho]
  rfl

end Moves
end Memqueue
