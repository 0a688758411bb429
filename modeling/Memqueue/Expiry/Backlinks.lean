import Memqueue.Expiry.Membership

/-! The `expiry_node` pointers of the objects against the lists of the nodes, as long as every call of
obj_sched_expire puts up a node of its own. -/
namespace Memqueue
open Fallible Expiry

/-- Pointers and lists agree and no node is empty, with the nodes of `X` and the objects of `Y` left out. -/
structure Backlinks (X Y : ObjType → Ptr → Prop) (e : Expiry) : Prop where
  agree : ∀ type, ∀ n ∈ (e.root type).inorder, ∀ o, ¬ Y type o → (o ∈ n.objs type ↔ e.expiryNode type o = some n.addr)
  unlinked : ∀ type o, ¬ Y type o → o ∉ e.indexed type → e.expiryNode type o = none
  occupied : ∀ type, ∀ n ∈ (e.root type).inorder, ¬ X type n.addr → n.isEmpty = false

theorem backlinks_empty : Backlinks NoneExempt NoneExempt .empty where
  agree _ _ h := by cases h
  unlinked _ _ _ _ := rfl
  occupied _ _ h := by cases h

/-- The exemption of one node or object more. -/
def orAt (X : ObjType → Ptr → Prop) (type : ObjType) (a : Ptr) : ObjType → Ptr → Prop :=
  fun t x => X t x ∨ t = type ∧ x = a

variable {X Y : ObjType → Ptr → Prop} {e e' : Expiry} {type : ObjType}

theorem Backlinks.mono {X' Y' : ObjType → Ptr → Prop} (h : Backlinks X Y e) (hX : ∀ t a, X t a → X' t a)
    (hY : ∀ t o, Y t o → Y' t o) : Backlinks X' Y' e where
  agree t n hn o ho := h.agree t n hn o fun hy => ho (hY t o hy)
  unlinked t o ho hout := h.unlinked t o (fun hy => ho (hY t o hy)) hout
  occupied t n hn hx := h.occupied t n hn fun hx' => hx (hX t n.addr hx')

private theorem setObjs_self (n : ExpiryNode) (type : ObjType) : n.setObjs type (n.objs type) = n := by
  cases type <;> rfl

/-- LIST_REMOVE may leave the node empty that held the object, and the pointer stale. -/
theorem Backlinks.listRemove (h : Backlinks X Y e) {a obj : Ptr}
    (honly : ∀ n ∈ (e.root type).inorder, obj ∈ n.objs type → n.addr = a) :
    Backlinks (orAt X type a) (orAt Y type obj) (listRemove e type obj) := by
  refine ⟨?_,?_,?_⟩
  · intro t n hn o ho
    by_cases ht : t = type
    · subst ht
      simp only [Memqueue.listRemove,root_setRoot,Tree.inorder_map] at hn
      obtain ⟨m,hm,rfl⟩ := List.mem_map.mp hn
      have hne : o ≠ obj := fun he => ho (.inr ⟨rfl,he⟩)
      rw [ExpiryNode.objs_setObjs,ExpiryNode.addr_setObjs,List.mem_erase_of_ne hne]
      exact h.agree t m hm o fun hy => ho (.inl hy)
    · rw [Memqueue.listRemove,root_setRoot_ne e ht] at hn
      exact h.agree t n hn o fun hy => ho (.inl hy)
  · intro t o ho hout
    refine h.unlinked t o (fun hy => ho (.inl hy)) fun hin => hout ?_
    obtain ⟨n,hn,hmem⟩ := mem_indexed.mp hin
    by_cases ht : t = type
    · subst ht
      refine mem_indexed.mpr ⟨n.setObjs t ((n.objs t).erase obj),?_,?_⟩
      · simp only [Memqueue.listRemove,root_setRoot,Tree.inorder_map]
        exact List.mem_map_of_mem hn
      · rw [ExpiryNode.objs_setObjs]
        exact (List.mem_erase_of_ne fun he => ho (.inr ⟨rfl,he⟩)).mpr hmem
    · refine mem_indexed.mpr ⟨n,?_,hmem⟩
      rw [Memqueue.listRemove,root_setRoot_ne e ht]
      exact hn
  · intro t n hn hx
    by_cases ht : t = type
    · subst ht
      simp only [Memqueue.listRemove,root_setRoot,Tree.inorder_map] at hn
      obtain ⟨m,hm,rfl⟩ := List.mem_map.mp hn
      rw [ExpiryNode.addr_setObjs] at hx
      have hout : obj ∉ m.objs t := fun hin => hx (.inr ⟨rfl,honly m hm hin⟩)
      rw [List.erase_of_not_mem hout,setObjs_self]
      exact h.occupied t m hm fun hx' => hx (.inl hx')
    · rw [Memqueue.listRemove,root_setRoot_ne e ht] at hn
      exact h.occupied t n hn fun hx' => hx (.inl hx')

private theorem Backlinks.setNode {obj : Ptr} (h : Backlinks X (orAt Y type obj) e) (v : Option Ptr) :
    Backlinks X (orAt Y type obj) (e.setNode type obj v) := by
  have hsame : ∀ t o, ¬ orAt Y type obj t o → (e.setNode type obj v).expiryNode t o = e.expiryNode t o := by
    intro t o ho
    rw [expiryNode_setNode,if_neg fun he => ho (.inr he)]
  refine ⟨?_,?_,h.occupied⟩
  · intro t n hn o ho
    rw [hsame t o ho]
    exact h.agree t n hn o ho
  · intro t o ho hout
    rw [hsame t o ho]
    exact h.unlinked t o ho hout

/-- objs_expire takes an object out of the node whose list it walks. -/
theorem Backlinks.handOver {Z : ObjType → Ptr → Prop} (hw : e.Wf Z) {a o : Ptr} {t : Nat}
    (h : Backlinks (orAt X type a) Y e) (hY : ¬ Y type o) (hdue : dueAt e type t a o) :
    Backlinks (orAt X type a) (orAt Y type o) (Memqueue.listRemove e type o) ∧
      o ∉ (Memqueue.listRemove e type o).indexed type := by
  have honly : ∀ n ∈ (e.root type).inorder, o ∈ n.objs type → n.addr = a := by
    obtain ⟨m,hm,ha,_,hin⟩ := hdue
    intro n hn hin'
    have h₁ := (h.agree type n hn o hY).mp hin'
    rw [(h.agree type m hm o hY).mp hin] at h₁
    exact (Option.some.inj h₁).symm.trans ha
  refine ⟨(h.listRemove honly).mono (fun _ _ hx => hx.elim id .inr) fun _ _ hy => hy,?_⟩
  rw [(listRemove_spec hw type o).2]
  exact fun hin => hin.2 ⟨rfl,rfl⟩

/-- The pointer of an object in no list is cleared. -/
theorem Backlinks.clear {obj : Ptr} (h : Backlinks X (orAt Y type obj) e) (hout : obj ∉ e.indexed type) :
    Backlinks X Y (e.setNode type obj none) := by
  refine ⟨?_,?_,h.occupied⟩
  · intro t n hn o ho
    rw [expiryNode_setNode]
    split
    · rename_i heq
      obtain ⟨rfl,rfl⟩ := heq
      constructor
      · intro hin
        exact absurd (mem_indexed.mpr ⟨n,hn,hin⟩) hout
      · intro hno
        cases hno
    · rename_i hne
      exact h.agree t n hn o fun hy => hy.elim ho hne
  · intro t o ho hno
    rw [expiryNode_setNode]
    split
    · rfl
    · rename_i hne
      exact h.unlinked t o (fun hy => hy.elim ho hne) hno

theorem Wf.clear {obj : Ptr} (hw : e.Wf (orAt X type obj)) : (e.setNode type obj none).Wf X := by
  refine ⟨hw.addrs,hw.bound,hw.nodup,?_⟩
  intro t o ho
  rw [expiryNode_setNode] at ho
  split at ho
  · cases ho
  · rename_i hne
    rcases hw.linked t o ho with hin | hx
    · exact .inl hin
    · exact .inr (hx.elim id fun he => absurd he hne)

section Rebalanced
variable [Rebalance ExpiryNode]

/-- possibly_node_free settles the one node in question. -/
theorem Backlinks.free {Z : ObjType → Ptr → Prop} {a : Ptr} {f : Bool} (hw : e.Wf Z) (h : Backlinks (orAt X type a) Y e)
    (hf : possiblyNodeFree e type a = .ok (f,e')) : Backlinks X Y e' := by
  have hidx := (possiblyNodeFree_spec hw hf).2.1
  obtain ⟨n,hn,ha,⟨_,_,rfl⟩ | ⟨_,hfull,rfl⟩⟩ := possiblyNodeFree_cases hf
  · have hold : ∀ t, ∀ m ∈ ((e.setRoot type (Rebalance.erase (fun m => m.addr = a) (e.root type))).root t).inorder,
        m ∈ (e.root t).inorder ∧ ¬ (t = type ∧ m.addr = a) := by
      intro t m hm
      by_cases ht : t = type
      · subst ht
        rw [root_setRoot,Rebalance.inorder_erase,List.mem_filter] at hm
        exact ⟨hm.1,fun hx => by simp [hx.2] at hm⟩
      · rw [root_setRoot_ne e ht] at hm
        exact ⟨hm,fun hx => ht hx.1⟩
    refine ⟨?_,?_,?_⟩
    · intro t m hm o ho
      exact h.agree t m (hold t m hm).1 o ho
    · intro t o ho hout
      rw [hidx] at hout
      exact h.unlinked t o ho hout
    · intro t m hm hx
      exact h.occupied t m (hold t m hm).1 fun hy => hy.elim hx (hold t m hm).2
  · refine ⟨h.agree,h.unlinked,?_⟩
    intro t m hm hx
    by_cases hma : t = type ∧ m.addr = a
    · obtain ⟨rfl,hma⟩ := hma
      rw [List.inj_on_of_nodup_map (hw.addrs t) hm hn (hma.trans ha.symm)]
      exact hfull
    · exact h.occupied t m hm fun hy => hy.elim hx hma

private theorem sched_nodes {Z : ObjType → Ptr → Prop} {now obj msecs : Nat} (hw : e.Wf Z)
    (hnone : rbSearch (e.root type) ((now + msecs) % 2^32) = none) (hs : objSchedExpire e now obj msecs type = .ok e') :
    (∀ n ∈ (e'.root type).inorder, n ∈ (e.root type).inorder ∨
      n = (⟨e.nextNode,(now + msecs) % 2^32,[],[],[]⟩ : ExpiryNode).setObjs type [obj]) ∧
    ∀ o, e'.expiryNode type o = if o = obj then some e.nextNode else e.expiryNode type o := by
  obtain ⟨b,⟨t,_,ht,rfl⟩ | ⟨n,hn,_⟩⟩ := objSchedExpire_cases hs
  · obtain ⟨l,r,hold,hnew⟩ := rbInsert_inorder ht
    refine ⟨?_,?_⟩
    · intro n hn
      simp only [root_setNode,listInsertHead,root_setRoot,Tree.inorder_map] at hn
      obtain ⟨m,hm,rfl⟩ := List.mem_map.mp hn
      have hm' : m ∈ (e.root type).inorder ∨ m = ⟨e.nextNode,(now + msecs) % 2^32,[],[],[]⟩ := by
        rw [hnew,List.mem_append,List.mem_cons] at hm
        rw [hold,List.mem_append]
        tauto
      rcases hm' with hm | rfl
      · rw [if_neg (Nat.ne_of_lt (hw.bound type m hm))]
        exact .inl hm
      · refine .inr ?_
        rw [if_pos rfl]
        cases type <;> rfl
    · intro o
      rw [expiryNode_setNode]
      simp only [true_and]
      rfl
  · rw [hnone] at hn
    cases hn

/-- A call that finds no node at its deadline puts up one for the object, whose pointer it sets. -/
theorem Backlinks.sched {Z : ObjType → Ptr → Prop} {now obj msecs : Nat} (hw : e.Wf Z)
    (h : Backlinks X (orAt Y type obj) e) (hout : obj ∉ e.indexed type)
    (hnone : rbSearch (e.root type) ((now + msecs) % 2^32) = none) (hs : objSchedExpire e now obj msecs type = .ok e') :
    Backlinks X Y e' := by
  obtain ⟨hnodes,hptr⟩ := sched_nodes hw hnone hs
  have hidx := (objSchedExpire_spec hw hout hs).2
  have hobj : ∀ o, ¬ Y type o → o ≠ obj → ¬ orAt Y type obj type o := fun o ho hne hy => hy.elim ho fun he => hne he.2
  -- nobody else points at the new node
  have hfresh : ∀ o, ¬ Y type o → o ≠ obj → e.expiryNode type o ≠ some e.nextNode := by
    intro o ho hne hsome
    by_cases hin : o ∈ e.indexed type
    · obtain ⟨m,hm,hmem⟩ := mem_indexed.mp hin
      rw [(h.agree type m hm o (hobj o ho hne)).mp hmem] at hsome
      exact Nat.ne_of_lt (hw.bound type m hm) (Option.some.inj hsome)
    · rw [h.unlinked type o (hobj o ho hne) hin] at hsome
      cases hsome
  refine ⟨?_,?_,?_⟩
  · intro t n hn o ho
    by_cases ht : t = type
    · subst ht
      rw [hptr]
      rcases hnodes n hn with hn | rfl
      · by_cases hne : o = obj
        · subst hne
          rw [if_pos rfl]
          constructor
          · intro hin
            exact absurd (mem_indexed.mpr ⟨n,hn,hin⟩) hout
          · intro he
            exact absurd (Option.some.inj he).symm (Nat.ne_of_lt (hw.bound t n hn))
        · rw [if_neg hne]
          exact h.agree t n hn o (hobj o ho hne)
      · rw [ExpiryNode.objs_setObjs,ExpiryNode.addr_setObjs,List.mem_singleton]
        by_cases hne : o = obj
        · rw [if_pos hne]
          exact ⟨fun _ => rfl,fun _ => hne⟩
        · rw [if_neg hne]
          exact ⟨fun he => absurd he hne,fun he => absurd he (hfresh o ho hne)⟩
    · obtain ⟨hroot,hnode⟩ := objSchedExpire_root_ne ht hs
      rw [hroot] at hn
      rw [hnode]
      exact h.agree t n hn o fun hy => hy.elim ho fun he => ht he.1
  · intro t o ho hno
    by_cases ht : t = type
    · subst ht
      have hne : o ≠ obj := fun he => hno ((hidx t o).mpr (.inr ⟨rfl,he⟩))
      rw [hptr,if_neg hne]
      exact h.unlinked t o (hobj o ho hne) fun hin => hno ((hidx t o).mpr (.inl hin))
    · rw [(objSchedExpire_root_ne ht hs).2]
      exact h.unlinked t o (fun hy => hy.elim ho fun he => ht he.1) fun hin => hno ((hidx t o).mpr (.inl hin))
  · intro t n hn hx
    by_cases ht : t = type
    · subst ht
      rcases hnodes n hn with hn | rfl
      · exact h.occupied t n hn hx
      · cases t <;> rfl
    · rw [(objSchedExpire_root_ne ht hs).1] at hn
      exact h.occupied t n hn hx

/-- The node at the new deadline, if there is one, holds nothing but the object itself, or nothing is done. -/
def reschedClear (e : Expiry) (now : Nat) (obj : Ptr) (expiry : Nat) (type : ObjType) : Prop :=
  e.expiryNode type obj = none ∨ ∀ n ∈ (e.root type).inorder, n.msecs = (now + expiry) % 2^32 →
    (n.setObjs type ((n.objs type).erase obj)).isEmpty = true

instance (e : Expiry) (now : Nat) (obj : Ptr) (expiry : Nat) (type : ObjType) :
    Decidable (reschedClear e now obj expiry type) := inferInstanceAs (Decidable (_ ∨ _))

theorem Backlinks.resched {now obj expiry : Nat} (hw : e.Wf NoneExempt) (h : Backlinks X Y e) (hX : ∀ a, ¬ X type a)
    (hY : ¬ Y type obj) (hclear : reschedClear e now obj expiry type) (hs : resched e now obj expiry type = .ok e') :
    Backlinks X Y e' := by
  obtain ⟨_,rfl⟩ | ⟨addr,f,e₁,hsome,hfree,hsched⟩ := resched_cases hs
  · exact h
  · have honly : ∀ n ∈ (e.root type).inorder, obj ∈ n.objs type → n.addr = addr := by
      intro n hn hin
      have := (h.agree type n hn obj hY).mp hin
      rw [hsome] at this
      exact (Option.some.inj this).symm
    have h₀ := h.listRemove honly
    obtain ⟨hw₀,hidx₀⟩ := listRemove_spec hw type obj
    obtain ⟨hw₁,hidx₁,_⟩ := possiblyNodeFree_spec hw₀ hfree
    have h₁ := h₀.free hw₀ hfree
    have hnode : ∀ n ∈ (e₁.root type).inorder, n.msecs ≠ (now + expiry) % 2^32 := by
      intro n hn hmsecs
      have hn₀ : n ∈ ((Memqueue.listRemove e type obj).root type).inorder := by
        obtain ⟨_,_,_,⟨_,_,rfl⟩ | ⟨_,_,rfl⟩⟩ := possiblyNodeFree_cases hfree
        · rw [root_setRoot,Rebalance.inorder_erase] at hn
          exact List.mem_of_mem_filter hn
        · exact hn
      simp only [Memqueue.listRemove,root_setRoot,Tree.inorder_map] at hn₀
      obtain ⟨m,hm,rfl⟩ := List.mem_map.mp hn₀
      rw [ExpiryNode.msecs_setObjs] at hmsecs
      rcases hclear with hno | hclear
      · rw [hno] at hsome
        cases hsome
      · have := h₁.occupied type _ hn (hX _)
        rw [hclear m hm hmsecs] at this
        cases this
    have hsearch : rbSearch (e₁.root type) ((now + expiry) % 2^32) = none := by
      cases hfound : rbSearch (e₁.root type) ((now + expiry) % 2^32) with
      | none => rfl
      | some n =>
        obtain ⟨hn,hmsecs⟩ := rbSearch_mem hfound
        exact absurd hmsecs (hnode n hn)
    have hout : obj ∉ e₁.indexed type := by
      rw [hidx₁,hidx₀]
      exact fun hin => hin.2 ⟨rfl,rfl⟩
    cases f with
    | false => exact h₁.sched hw₁ hout hsearch hsched
    | true =>
      have hw₂ : (e₁.setNode type obj none).Wf NoneExempt := Wf.clear hw₁
      exact (h₁.setNode none).sched hw₂ hout hsearch hsched

end Rebalanced
end Memqueue
