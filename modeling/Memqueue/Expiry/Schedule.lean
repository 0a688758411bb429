import Memqueue.Expiry.Deadlines

/-! obj_sched_expire as an update of the map from objects to deadlines. -/
namespace Memqueue
open Expiry

namespace Expiry

/-- The tree of one type: nodes at distinct allocated addresses, in the order of distinct deadlines. -/
structure SearchTree (e : Expiry) (type : ObjType) : Prop where
  addrs : ((e.root type).inorder.map ExpiryNode.addr).Nodup
  bound : ∀ n ∈ (e.root type).inorder, n.addr < e.nextNode
  sorted : (e.deadlines type).Pairwise (· < ·)

/-- The object is in the list of the node at `a`, which has the deadline `d`. -/
def heldAt (e : Expiry) (type : ObjType) (a d : Nat) (o : Ptr) : Prop :=
  ∃ n ∈ (e.root type).inorder, n.addr = a ∧ n.msecs = d ∧ o ∈ n.objs type

/-- The object is in one node only, once, and that node has the deadline `d`. -/
def heldOnce (e : Expiry) (type : ObjType) (d : Nat) (o : Ptr) : Prop :=
  ∃ n ∈ (e.root type).inorder, n.msecs = d ∧ (n.objs type).count o = 1 ∧
    ∀ n' ∈ (e.root type).inorder, o ∈ n'.objs type → n' = n

end Expiry

/-- rb_search finds a node if and only if the key is in the tree. -/
theorem rbSearch_iff {t : Tree ExpiryNode} (hs : (t.inorder.map ExpiryNode.msecs).Pairwise (· < ·)) {msecs : Nat} :
    (rbSearch t msecs).isSome = true ↔ msecs ∈ t.inorder.map ExpiryNode.msecs := by
  constructor
  · intro h
    obtain ⟨n,hn⟩ := Option.isSome_iff_exists.mp h
    obtain ⟨hin,rfl⟩ := rbSearch_mem hn
    exact List.mem_map_of_mem hin
  · intro h
    induction t with
    | nil => cases h
    | node c l data r il ir =>
      simp only [Tree.inorder_node,List.map_append,List.map_cons,List.pairwise_append,List.pairwise_cons,
        List.mem_cons] at hs
      obtain ⟨hl,⟨hdata,hr⟩,hcross⟩ := hs
      simp only [Tree.inorder_node,List.map_append,List.map_cons,List.mem_append,List.mem_cons] at h
      simp only [rbSearch]
      split
      · rename_i hlt
        apply il hl
        apply h.resolve_right
        rintro (rfl | h)
        · exact absurd hlt (Nat.lt_irrefl _)
        · exact absurd hlt (Nat.not_lt.mpr (hdata _ h).le)
      · rename_i hge
        split
        · rename_i hgt
          apply ir hr
          refine (h.resolve_left ?_).resolve_left ?_
          · intro h
            exact absurd hgt (Nat.not_lt.mpr (hcross _ h _ (.inl rfl)).le)
          · rintro rfl
            exact absurd hgt (Nat.lt_irrefl _)
        · rfl

section Insert
variable {e : Expiry} {type : ObjType} {obj : Ptr}

private theorem mem_insertHead (addr : Ptr) (n : ExpiryNode) (o : Ptr) :
    o ∈ (if n.addr = addr then n.setObjs type (obj :: n.objs type) else n).objs type ↔
      o ∈ n.objs type ∨ n.addr = addr ∧ o = obj := by
  split
  · rename_i ha
    rw [ExpiryNode.objs_setObjs,List.mem_cons]
    simp only [ha,true_and]
    exact or_comm
  · rename_i ha
    simp only [ha,false_and,or_false]

private theorem listInsertHead_inorder (addr : Ptr) : ((listInsertHead e type addr obj).root type).inorder =
    (e.root type).inorder.map fun n => if n.addr = addr then n.setObjs type (obj :: n.objs type) else n := by
  rw [listInsertHead,root_setRoot,Tree.inorder_map]

private theorem Expiry.SearchTree.insertHead (h : e.SearchTree type) (addr : Ptr) :
    (listInsertHead e type addr obj).SearchTree type := by
  have haddrs : ((listInsertHead e type addr obj).root type).inorder.map ExpiryNode.addr =
      (e.root type).inorder.map ExpiryNode.addr := by
    rw [listInsertHead_inorder,List.map_map]
    exact List.map_congr_left fun n _ => insertHead_addr type addr obj n
  have hmsecs : (listInsertHead e type addr obj).deadlines type = e.deadlines type := by
    rw [deadlines,listInsertHead_inorder,List.map_map]
    exact List.map_congr_left fun n _ => insertHead_msecs type addr obj n
  refine ⟨?_,?_,?_⟩
  · rw [haddrs]
    exact h.addrs
  · intro n hn
    rw [listInsertHead_inorder] at hn
    obtain ⟨m,hm,rfl⟩ := List.mem_map.mp hn
    rw [insertHead_addr]
    exact h.bound m hm
  · rw [hmsecs]
    exact h.sorted

/-- The other objects stay where they are. -/
private theorem heldAt_insertHead (addr : Ptr) {o : Ptr} (ho : o ≠ obj) (a d : Nat) :
    (listInsertHead e type addr obj).heldAt type a d o ↔ e.heldAt type a d o := by
  simp only [heldAt,listInsertHead_inorder,List.mem_map]
  constructor
  · rintro ⟨_,⟨n,hn,rfl⟩,ha,hd,hin⟩
    rw [insertHead_addr] at ha
    rw [insertHead_msecs] at hd
    refine ⟨n,hn,ha,hd,?_⟩
    exact ((mem_insertHead addr n o).mp hin).resolve_right fun he => ho he.2
  · rintro ⟨n,hn,ha,hd,hin⟩
    refine ⟨_,⟨n,hn,rfl⟩,?_,?_,?_⟩
    · rw [insertHead_addr,ha]
    · rw [insertHead_msecs,hd]
    · exact (mem_insertHead addr n o).mpr (.inl hin)

private theorem heldOnce_insertHead (h : e.SearchTree type) (hout : obj ∉ e.indexed type) {n : ExpiryNode}
    (hn : n ∈ (e.root type).inorder) : (listInsertHead e type n.addr obj).heldOnce type n.msecs obj := by
  have habsent : ∀ m ∈ (e.root type).inorder, obj ∉ m.objs type := fun m hm hin => hout (mem_indexed.mpr ⟨m,hm,hin⟩)
  refine ⟨n.setObjs type (obj :: n.objs type),?_,ExpiryNode.msecs_setObjs n type _,?_,?_⟩
  · rw [listInsertHead_inorder]
    exact List.mem_map.mpr ⟨n,hn,if_pos rfl⟩
  · rw [ExpiryNode.objs_setObjs,List.count_cons_self,List.count_eq_zero.mpr (habsent n hn)]
  · intro n' hn' hin
    rw [listInsertHead_inorder] at hn'
    obtain ⟨m,hm,rfl⟩ := List.mem_map.mp hn'
    rcases (mem_insertHead n.addr m obj).mp hin with hin | ⟨ha,_⟩
    · exact absurd hin (habsent m hm)
    · have hmn : m = n := List.inj_on_of_nodup_map h.addrs hm hn ha
      subst hmn
      exact if_pos rfl

end Insert

section Sched
variable [Rebalance ExpiryNode]

/-- A fresh node without objects, in its place. -/
private theorem Expiry.SearchTree.newNode {e : Expiry} {type : ObjType} (h : e.SearchTree type) {t : Tree ExpiryNode}
    {d : Nat} (ht : rbInsert (e.root type) ⟨e.nextNode,d,[],[],[]⟩ = some t) :
    (e.allocNode.setRoot type t).SearchTree type ∧ ⟨e.nextNode,d,[],[],[]⟩ ∈ t.inorder ∧
    (∀ a k o, (e.allocNode.setRoot type t).heldAt type a k o ↔ e.heldAt type a k o) := by
  obtain ⟨l,r,hold,hnew⟩ := rbInsert_inorder ht
  have hmem : ∀ n, n ∈ t.inorder ↔ n ∈ (e.root type).inorder ∨ n = ⟨e.nextNode,d,[],[],[]⟩ := by
    intro n
    rw [hold,hnew]
    simp only [List.mem_append,List.mem_cons]
    tauto
  have hfresh : e.nextNode ∉ (e.root type).inorder.map ExpiryNode.addr := by
    intro hm
    obtain ⟨n,hn,ha⟩ := List.mem_map.mp hm
    exact absurd (h.bound n hn) (Nat.not_lt.mpr (Nat.le_of_eq ha.symm))
  refine ⟨⟨?_,?_,?_⟩,(hmem _).mpr (.inr rfl),?_⟩
  · have haddrs := h.addrs
    rw [hold] at haddrs hfresh
    rw [root_setRoot,hnew]
    simp only [List.map_append,List.map_cons] at haddrs hfresh ⊢
    exact List.nodup_middle.mpr (List.nodup_cons.mpr ⟨hfresh,haddrs⟩)
  · intro n hn
    rw [root_setRoot] at hn
    rcases (hmem n).mp hn with hn | rfl
    · exact (h.bound n hn).trans (Nat.lt_succ_self _)
    · exact Nat.lt_succ_self _
  · rw [deadlines,root_setRoot]
    exact rbInsert_sorted ht h.sorted
  · intro a k o
    simp only [heldAt,root_setRoot,hmem]
    constructor
    · rintro ⟨n,hn | rfl,ha,hk,ho⟩
      · exact ⟨n,hn,ha,hk,ho⟩
      · cases type <;> cases ho
    · rintro ⟨n,hn,hrest⟩
      exact ⟨n,.inl hn,hrest⟩

/-- Scheduling an object that is in no list succeeds, and sets its deadline and nothing else. -/
theorem sched_refines {e : Expiry} {type : ObjType} (h : e.SearchTree type) {obj : Ptr} (hout : obj ∉ e.indexed type)
    (now msecs : Nat) :
    ∃ e', objSchedExpire e now obj msecs type = .ok e' ∧ e'.SearchTree type ∧
      e'.heldOnce type ((now + msecs) % 2^32) obj ∧
      (∀ o, o ≠ obj → ∀ a d, e'.heldAt type a d o ↔ e.heldAt type a d o) ∧
      (∀ t, t ≠ type → e'.root t = e.root t) ∧
      ∀ k, ((rbSearch (e.root type) k).isSome = true ↔ k ∈ e.deadlines type) ∧
        ((rbSearch (e'.root type) k).isSome = true ↔ k ∈ e'.deadlines type) := by
  obtain ⟨e',he⟩ := objSchedExpire_isOk e now obj msecs type
  have hkept : e'.SearchTree type ∧ e'.heldOnce type ((now + msecs) % 2^32) obj ∧
      ∀ o, o ≠ obj → ∀ a d, e'.heldAt type a d o ↔ e.heldAt type a d o := by
    obtain ⟨b,⟨t,_,ht,rfl⟩ | ⟨n,hn,rfl⟩⟩ := objSchedExpire_cases he
    · have hsig : (e.signalIf b).SearchTree type := ⟨h.addrs,h.bound,h.sorted⟩
      obtain ⟨hnew,hin,hheld⟩ := hsig.newNode ht
      have hout' : obj ∉ ((e.signalIf b).allocNode.setRoot type t).indexed type := by
        intro hm
        obtain ⟨n,hn,ho⟩ := mem_indexed.mp hm
        obtain ⟨m,hm,_,_,ho⟩ := (hheld n.addr n.msecs obj).mp ⟨n,hn,rfl,rfl,ho⟩
        exact hout (mem_indexed.mpr ⟨m,hm,ho⟩)
      have hlist := @Expiry.SearchTree.insertHead _ _ obj hnew e.nextNode
      have honce := heldOnce_insertHead hnew hout' (by rw [root_setRoot]; exact hin)
      refine ⟨⟨hlist.addrs,hlist.bound,hlist.sorted⟩,honce,fun o ho a d => ?_⟩
      exact (heldAt_insertHead e.nextNode ho a d).trans (hheld a d o)
    · have hsig : (e.signalIf b).SearchTree type := ⟨h.addrs,h.bound,h.sorted⟩
      obtain ⟨hin,hd⟩ := rbSearch_mem hn
      rw [← hd]
      exact ⟨hsig.insertHead n.addr,heldOnce_insertHead hsig hout hin,fun o ho a d => heldAt_insertHead n.addr ho a d⟩
  obtain ⟨htree,honce,hothers⟩ := hkept
  exact ⟨e',he,htree,honce,hothers,fun t ht => (objSchedExpire_root_ne ht he).1,
    fun k => ⟨rbSearch_iff h.sorted,rbSearch_iff htree.sorted⟩⟩

end Sched

/-- An index with one message due at 10. -/
def oneMessage : Expiry := ⟨fun _ => .node false .nil ⟨0,10,[],[],[7]⟩ .nil,fun _ _ => some 0,1,false⟩

/-- A second message for the same deadline shares the node. -/
theorem sched_refines_shared :
    letI := Rebalance.plain ExpiryNode
    ∃ e', objSchedExpire oneMessage 4 8 6 .msg = .ok e' ∧ e'.heldOnce .msg 10 8 ∧ e'.heldAt .msg 0 10 7 := by
  let _ := Rebalance.plain ExpiryNode
  have htree : oneMessage.SearchTree .msg := ⟨by decide,by decide,by decide⟩
  obtain ⟨e',he,_,honce,hothers,_⟩ := @sched_refines _ _ _ htree 8 (by decide) 4 6
  exact ⟨e',he,honce,(hothers 7 (by decide) 0 10).mpr ⟨_,List.mem_singleton_self _,rfl,rfl,List.mem_singleton_self _⟩⟩

end Memqueue
