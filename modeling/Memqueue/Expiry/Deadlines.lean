import Memqueue.Expiry.Membership

/-! The index as a sequence of elementary changes, and where its deadlines come from.
Only obj_sched_expire makes a deadline; the other changes take objects or empty nodes away. -/
namespace Memqueue
open Fallible Expiry

/-- One call of obj_sched_expire. -/
structure Sched where
  type : ObjType
  obj : Ptr
  msecs : Nat
  deriving DecidableEq, Repr

/-- LIST_REMOVE, a cleared `expiry_node` and possibly_node_free, besides obj_sched_expire. -/
inductive IndexOp where
  | sched (c : Sched)
  | unlink (type : ObjType) (obj : Ptr)
  | clear (type : ObjType) (obj : Ptr)
  | sweep (type : ObjType) (addr : Ptr)
  deriving DecidableEq, Repr

def IndexOp.call : IndexOp → Option Sched
  | .sched c => some c
  | _ => none

section Moves
variable [Rebalance ExpiryNode]

/-- An elementary change at one clock reading. An object is scheduled only while it is in no list. -/
inductive IndexMove (now : Nat) : IndexOp → Expiry → Expiry → Prop
  | sched {c : Sched} {e e' : Expiry} : c.obj ∉ e.indexed c.type →
      objSchedExpire e now c.obj c.msecs c.type = .ok e' → IndexMove now (.sched c) e e'
  | unlink {type : ObjType} {obj : Ptr} {e : Expiry} : IndexMove now (.unlink type obj) e (listRemove e type obj)
  | clear {type : ObjType} {obj : Ptr} {e : Expiry} : IndexMove now (.clear type obj) e (e.setNode type obj none)
  | sweep {type : ObjType} {addr : Ptr} {e e' : Expiry} {f : Bool} : possiblyNodeFree e type addr = .ok (f,e') →
      IndexMove now (.sweep type addr) e e'

/-- Node addresses are distinct and allocated, and the trees are sorted by deadline. -/
structure Expiry.Sound (e : Expiry) : Prop where
  addrs : ∀ type, ((e.root type).inorder.map ExpiryNode.addr).Nodup
  bound : ∀ type, ∀ n ∈ (e.root type).inorder, n.addr < e.nextNode
  sorted : ∀ type, ((e.root type).inorder.map ExpiryNode.msecs).Pairwise (· < ·)

omit [Rebalance ExpiryNode] in
theorem sound_empty : Expiry.empty.Sound where
  addrs _ := List.nodup_nil
  bound _ n h := by cases h
  sorted _ := List.Pairwise.nil

omit [Rebalance ExpiryNode] in
/-- The descent of rb_insert finds the place in the order. -/
private theorem rbLinkNode_sorted {t t' : Tree ExpiryNode} {data : ExpiryNode} (h : rbLinkNode t data = some t')
    (hs : (t.inorder.map ExpiryNode.msecs).Pairwise (· < ·)) : (t'.inorder.map ExpiryNode.msecs).Pairwise (· < ·) := by
  induction t generalizing t' with
  | nil =>
    cases h
    simp
  | node c l this r il ir =>
    simp only [Tree.inorder_node,List.map_append,List.map_cons,List.pairwise_append,List.pairwise_cons,
      List.mem_cons] at hs
    obtain ⟨hl,⟨hthis,hr⟩,hcross⟩ := hs
    simp only [rbLinkNode] at h
    split at h
    · rename_i hlt
      obtain ⟨l',hl',rfl⟩ := Option.map_eq_some_iff.mp h
      obtain ⟨x,y,hx,hy⟩ := rbLinkNode_inorder hl'
      simp only [Tree.inorder_node,List.map_append,List.map_cons,List.pairwise_append,List.pairwise_cons,List.mem_cons]
      refine ⟨il hl' hl,⟨hthis,hr⟩,?_⟩
      intro a ha b hb
      obtain ⟨n,hn,rfl⟩ := List.mem_map.mp ha
      rw [hy,List.mem_append,List.mem_cons] at hn
      have hold : n ∈ l.inorder ∨ n = data := by
        rw [hx,List.mem_append]
        tauto
      rcases hold with hold | rfl
      · exact hcross _ (List.mem_map_of_mem hold) b hb
      · rcases hb with rfl | hb
        · exact hlt
        · exact lt_trans hlt (hthis b hb)
    · split at h
      · rename_i hgt
        obtain ⟨r',hr',rfl⟩ := Option.map_eq_some_iff.mp h
        obtain ⟨x,y,hx,hy⟩ := rbLinkNode_inorder hr'
        have hold : ∀ n ∈ r'.inorder, n ∈ r.inorder ∨ n = data := by
          intro n hn
          rw [hy,List.mem_append,List.mem_cons] at hn
          rw [hx,List.mem_append]
          tauto
        have hthis' : ∀ b ∈ r'.inorder.map ExpiryNode.msecs, this.msecs < b := by
          intro b hb
          obtain ⟨n,hn,rfl⟩ := List.mem_map.mp hb
          rcases hold n hn with hn | rfl
          · exact hthis _ (List.mem_map_of_mem hn)
          · exact hgt
        simp only [Tree.inorder_node,List.map_append,List.map_cons,List.pairwise_append,List.pairwise_cons,
          List.mem_cons]
        refine ⟨hl,⟨hthis',ir hr' hr⟩,?_⟩
        intro a ha b hb
        rcases hb with rfl | hb
        · exact hcross a ha _ (.inl rfl)
        · exact lt_trans (hcross a ha _ (.inl rfl)) (hthis' b hb)
      · cases h

theorem rbInsert_sorted {t t' : Tree ExpiryNode} {data : ExpiryNode} (h : rbInsert t data = some t')
    (hs : (t.inorder.map ExpiryNode.msecs).Pairwise (· < ·)) : (t'.inorder.map ExpiryNode.msecs).Pairwise (· < ·) := by
  obtain ⟨u,hu,rfl⟩ := Option.map_eq_some_iff.mp h
  rw [Rebalance.inorder_insertColor]
  exact rbLinkNode_sorted hu hs

omit [Rebalance ExpiryNode] in
private theorem Expiry.Sound.setRoot {e : Expiry} (hs : e.Sound) {type : ObjType} {t : Tree ExpiryNode}
    (haddrs : (t.inorder.map ExpiryNode.addr).Nodup) (hbound : ∀ n ∈ t.inorder, n.addr < e.nextNode)
    (hsorted : (t.inorder.map ExpiryNode.msecs).Pairwise (· < ·)) : (e.setRoot type t).Sound := by
  refine ⟨?_,?_,?_⟩ <;> intro u
  · by_cases hu : u = type
    · subst hu
      rwa [root_setRoot]
    · rw [root_setRoot_ne e hu]
      exact hs.addrs u
  · by_cases hu : u = type
    · subst hu
      rwa [root_setRoot]
    · rw [root_setRoot_ne e hu]
      exact hs.bound u
  · by_cases hu : u = type
    · subst hu
      rwa [root_setRoot]
    · rw [root_setRoot_ne e hu]
      exact hs.sorted u

omit [Rebalance ExpiryNode] in
/-- Changing the lists of nodes moves no deadline. -/
private theorem Expiry.Sound.mapRoot {e : Expiry} (hs : e.Sound) (type : ObjType) {f : ExpiryNode → ExpiryNode}
    (haddr : ∀ n, (f n).addr = n.addr) (hmsecs : ∀ n, (f n).msecs = n.msecs) :
    (e.setRoot type ((e.root type).map f)).Sound := by
  have haddrs : ((e.root type).inorder.map f).map ExpiryNode.addr = (e.root type).inorder.map ExpiryNode.addr := by
    rw [List.map_map]
    exact List.map_congr_left fun n _ => haddr n
  have hsorted : ((e.root type).inorder.map f).map ExpiryNode.msecs = (e.root type).inorder.map ExpiryNode.msecs := by
    rw [List.map_map]
    exact List.map_congr_left fun n _ => hmsecs n
  apply hs.setRoot
  · rw [Tree.inorder_map,haddrs]
    exact hs.addrs type
  · intro n hn
    rw [Tree.inorder_map] at hn
    obtain ⟨m,hm,rfl⟩ := List.mem_map.mp hn
    rw [haddr]
    exact hs.bound type m hm
  · rw [Tree.inorder_map,hsorted]
    exact hs.sorted type

omit [Rebalance ExpiryNode] in
theorem insertHead_addr (type : ObjType) (addr obj : Ptr) (n : ExpiryNode) :
    (if n.addr = addr then n.setObjs type (obj :: n.objs type) else n).addr = n.addr := by
  split
  · exact ExpiryNode.addr_setObjs _ _ _
  · rfl

omit [Rebalance ExpiryNode] in
theorem insertHead_msecs (type : ObjType) (addr obj : Ptr) (n : ExpiryNode) :
    (if n.addr = addr then n.setObjs type (obj :: n.objs type) else n).msecs = n.msecs := by
  split
  · exact ExpiryNode.msecs_setObjs _ _ _
  · rfl

/-- A fresh node takes its place in the tree. -/
private theorem Expiry.Sound.newNode {e : Expiry} (hs : e.Sound) {type : ObjType} {t : Tree ExpiryNode} {d : Nat}
    (ht : rbInsert (e.root type) ⟨e.nextNode,d,[],[],[]⟩ = some t) : (e.allocNode.setRoot type t).Sound := by
  have halloc : e.allocNode.Sound := ⟨hs.addrs,fun u n hn => (hs.bound u n hn).trans (Nat.lt_succ_self _),hs.sorted⟩
  obtain ⟨l,r,hold,hnew⟩ := rbInsert_inorder ht
  have hfresh : e.nextNode ∉ (e.root type).inorder.map ExpiryNode.addr := by
    intro hm
    obtain ⟨n,hn,ha⟩ := List.mem_map.mp hm
    exact absurd (hs.bound type n hn) (Nat.not_lt.mpr (Nat.le_of_eq ha.symm))
  refine halloc.setRoot ?_ ?_ (rbInsert_sorted ht (hs.sorted type))
  · have haddrs := hs.addrs type
    rw [hold] at haddrs hfresh
    rw [hnew]
    simp only [List.map_append,List.map_cons] at haddrs hfresh ⊢
    exact List.nodup_middle.mpr (List.nodup_cons.mpr ⟨hfresh,haddrs⟩)
  · intro n hn
    rw [hnew,List.mem_append,List.mem_cons] at hn
    have hcases : n ∈ (e.root type).inorder ∨ n = ⟨e.nextNode,d,[],[],[]⟩ := by
      rw [hold,List.mem_append]
      tauto
    rcases hcases with hm | rfl
    · exact halloc.bound type n hm
    · exact Nat.lt_succ_self _

theorem IndexMove.sound {now : Nat} {op : IndexOp} {e e' : Expiry} (h : IndexMove now op e e') (hs : e.Sound) :
    e'.Sound := by
  cases h with
  | @sched c _ _ _ h =>
    obtain ⟨b,⟨t,_,ht,rfl⟩ | ⟨n,_,rfl⟩⟩ := objSchedExpire_cases h
    · have hnew : ((e.signalIf b).allocNode.setRoot c.type t).Sound :=
        Expiry.Sound.newNode (e := e.signalIf b) ⟨hs.addrs,hs.bound,hs.sorted⟩ ht
      have hlist := hnew.mapRoot c.type (insertHead_addr c.type e.nextNode c.obj)
          (insertHead_msecs c.type e.nextNode c.obj)
      exact ⟨hlist.addrs,hlist.bound,hlist.sorted⟩
    · have hsig : (e.signalIf b).Sound := ⟨hs.addrs,hs.bound,hs.sorted⟩
      exact hsig.mapRoot c.type (insertHead_addr c.type n.addr c.obj) (insertHead_msecs c.type n.addr c.obj)
  | unlink => exact hs.mapRoot _ (fun n => ExpiryNode.addr_setObjs _ _ _) (fun n => ExpiryNode.msecs_setObjs _ _ _)
  | clear => exact ⟨hs.addrs,hs.bound,hs.sorted⟩
  | @sweep type addr _ _ f h =>
    obtain ⟨n,_,_,⟨_,_,rfl⟩ | ⟨_,_,rfl⟩⟩ := possiblyNodeFree_cases h
    · have hsub := Rebalance.inorder_erase (fun m : ExpiryNode => decide (m.addr = addr)) (e.root type)
      apply hs.setRoot
      · rw [hsub]
        exact (hs.addrs type).sublist (List.filter_sublist.map _)
      · intro m hm
        rw [hsub] at hm
        exact hs.bound type m (List.mem_of_mem_filter hm)
      · rw [hsub]
        exact (hs.sorted type).sublist (List.filter_sublist.map _)
    · exact hs

/-- The object is in the list of a node with this deadline. -/
def Expiry.linkedAt (e : Expiry) (type : ObjType) (d : Nat) (o : Ptr) : Prop :=
  ∃ n ∈ (e.root type).inorder, n.msecs = d ∧ o ∈ n.objs type

def Expiry.deadlines (e : Expiry) (type : ObjType) : List Nat := (e.root type).inorder.map ExpiryNode.msecs

omit [Rebalance ExpiryNode] in
theorem dueIn_iff {e : Expiry} {type : ObjType} {t : Nat} {o : Ptr} :
    dueIn e type t o ↔ ∃ d ≤ t, e.linkedAt type d o := by
  constructor
  · rintro ⟨n,hn,hle,ho⟩
    exact ⟨n.msecs,hle,n,hn,rfl,ho⟩
  · rintro ⟨d,hle,n,hn,rfl,ho⟩
    exact ⟨n,hn,hle,ho⟩

omit [Rebalance ExpiryNode] in
theorem mem_indexed_iff {e : Expiry} {type : ObjType} {o : Ptr} : o ∈ e.indexed type ↔ ∃ d, e.linkedAt type d o := by
  rw [mem_indexed]
  constructor
  · rintro ⟨n,hn,ho⟩
    exact ⟨n.msecs,n,hn,rfl,ho⟩
  · rintro ⟨d,n,hn,_,ho⟩
    exact ⟨n,hn,ho⟩

omit [Rebalance ExpiryNode] in
private theorem insertHead_origin {e : Expiry} {type u : ObjType} {addr obj : Ptr} {n' : ExpiryNode}
    (h : n' ∈ ((listInsertHead e type addr obj).root u).inorder) :
    ∃ n ∈ (e.root u).inorder, n.msecs = n'.msecs ∧
      ∀ o ∈ n'.objs u, o ∈ n.objs u ∨ u = type ∧ n.addr = addr ∧ o = obj := by
  by_cases hu : u = type
  · subst hu
    rw [listInsertHead,root_setRoot,Tree.inorder_map] at h
    obtain ⟨n,hn,rfl⟩ := List.mem_map.mp h
    refine ⟨n,hn,(insertHead_msecs u addr obj n).symm,?_⟩
    intro o ho
    split at ho
    · rename_i ha
      rw [ExpiryNode.objs_setObjs] at ho
      rcases List.mem_cons.mp ho with rfl | ho
      · exact .inr ⟨rfl,ha,rfl⟩
      · exact .inl ho
    · exact .inl ho
  · rw [listInsertHead,root_setRoot_ne e hu] at h
    exact ⟨n',h,rfl,fun o ho => .inl ho⟩

/-- Every node after a change was there with its deadline, or was made for the object just scheduled. -/
theorem IndexMove.origin {now : Nat} {op : IndexOp} {e e' : Expiry} (h : IndexMove now op e e') (hs : e.Sound)
    {type : ObjType} {n' : ExpiryNode} (hn' : n' ∈ (e'.root type).inorder) :
    ((∃ n ∈ (e.root type).inorder, n.msecs = n'.msecs ∧ ∀ o ∈ n'.objs type, o ∈ n.objs type ∨
        ∃ c, op = .sched c ∧ c.type = type ∧ c.obj = o ∧ n'.msecs = (now + c.msecs) % 2^32)) ∨
      ∃ c, op = .sched c ∧ c.type = type ∧ n'.msecs = (now + c.msecs) % 2^32 ∧ ∀ o ∈ n'.objs type, o = c.obj := by
  cases h with
  | @sched c _ _ _ h =>
    obtain ⟨b,⟨t,_,ht,rfl⟩ | ⟨n₀,hn₀,rfl⟩⟩ := objSchedExpire_cases h
    · obtain ⟨n,hn,hm,hobjs⟩ := insertHead_origin (e := (e.signalIf b).allocNode.setRoot c.type t) hn'
      by_cases hu : type = c.type
      · subst hu
        rw [root_setRoot] at hn
        obtain ⟨l,r,hold,hnew⟩ := rbInsert_inorder ht
        rw [hnew,List.mem_append,List.mem_cons] at hn
        have hcases : n ∈ (e.root c.type).inorder ∨ n = ⟨e.nextNode,(now + c.msecs) % 2^32,[],[],[]⟩ := by
          rw [hold,List.mem_append]
          tauto
        rcases hcases with hn | rfl
        · refine .inl ⟨n,hn,hm,?_⟩
          intro o ho
          rcases hobjs o ho with ho | ⟨_,ha,_⟩
          · exact .inl ho
          · exact absurd (hs.bound c.type n hn) (Nat.not_lt.mpr (Nat.le_of_eq ha.symm))
        · refine .inr ⟨c,rfl,rfl,hm.symm,?_⟩
          intro o ho
          rcases hobjs o ho with ho | ⟨_,_,ho⟩
          · cases hc : c.type <;> rw [hc] at ho <;> cases ho
          · exact ho
      · rw [root_setRoot_ne _ hu] at hn
        refine .inl ⟨n,hn,hm,?_⟩
        intro o ho
        rcases hobjs o ho with ho | ⟨hu',_⟩
        · exact .inl ho
        · exact absurd hu' hu
    · obtain ⟨n,hn,hm,hobjs⟩ := insertHead_origin (e := e.signalIf b) hn'
      refine .inl ⟨n,hn,hm,?_⟩
      intro o ho
      rcases hobjs o ho with ho | ⟨rfl,ha,rfl⟩
      · exact .inl ho
      · obtain ⟨hmem,hmsecs⟩ := rbSearch_mem hn₀
        have heq : n = n₀ := List.inj_on_of_nodup_map (hs.addrs c.type) hn hmem ha
        exact .inr ⟨c,rfl,rfl,rfl,by rw [← hm,heq,hmsecs]⟩
  | @unlink u obj _ =>
    refine .inl ?_
    by_cases hu : type = u
    · subst hu
      rw [listRemove,root_setRoot,Tree.inorder_map] at hn'
      obtain ⟨n,hn,rfl⟩ := List.mem_map.mp hn'
      refine ⟨n,hn,(ExpiryNode.msecs_setObjs _ _ _).symm,?_⟩
      intro o ho
      rw [ExpiryNode.objs_setObjs] at ho
      exact .inl (List.mem_of_mem_erase ho)
    · rw [listRemove,root_setRoot_ne e hu] at hn'
      exact ⟨n',hn',rfl,fun o ho => .inl ho⟩
  | clear => exact .inl ⟨n',hn',rfl,fun o ho => .inl ho⟩
  | @sweep u addr _ _ f h =>
    refine .inl ⟨n',?_,rfl,fun o ho => .inl ho⟩
    obtain ⟨n,_,_,⟨_,_,rfl⟩ | ⟨_,_,rfl⟩⟩ := possiblyNodeFree_cases h
    · by_cases hu : type = u
      · subst hu
        rw [root_setRoot,Rebalance.inorder_erase] at hn'
        exact List.mem_of_mem_filter hn'
      · rwa [root_setRoot_ne e hu] at hn'
    · exact hn'

theorem IndexMove.linkedAt {now : Nat} {op : IndexOp} {e e' : Expiry} (h : IndexMove now op e e') (hs : e.Sound)
    {type : ObjType} {d : Nat} {o : Ptr} (hl : e'.linkedAt type d o) :
    e.linkedAt type d o ∨ ∃ c, op = .sched c ∧ c.type = type ∧ c.obj = o ∧ d = (now + c.msecs) % 2^32 := by
  obtain ⟨n',hn',rfl,ho⟩ := hl
  rcases h.origin hs hn' with ⟨n,hn,hm,hobjs⟩ | ⟨c,hop,htype,hm,hobjs⟩
  · rcases hobjs o ho with ho | ⟨c,hop,htype,hobj,hd⟩
    · exact .inl ⟨n,hn,hm,ho⟩
    · exact .inr ⟨c,hop,htype,hobj,hd⟩
  · exact .inr ⟨c,hop,htype,(hobjs o ho).symm,hm⟩

theorem IndexMove.deadlines {now : Nat} {op : IndexOp} {e e' : Expiry} (h : IndexMove now op e e') (hs : e.Sound)
    {type : ObjType} {d : Nat} (hd : d ∈ e'.deadlines type) :
    d ∈ e.deadlines type ∨ ∃ c, op = .sched c ∧ c.type = type ∧ d = (now + c.msecs) % 2^32 := by
  obtain ⟨n',hn',rfl⟩ := List.mem_map.mp hd
  rcases h.origin hs hn' with ⟨n,hn,hm,_⟩ | ⟨c,hop,htype,hm,_⟩
  · exact .inl (hm ▸ List.mem_map_of_mem hn)
  · exact .inr ⟨c,hop,htype,hm⟩

end Moves

section MinTimeout

private theorem minTimeoutOver_zero {t : Nat} : ∀ {ts : List (Tree ExpiryNode)} {m : Nat}, minTimeoutOver t ts m = 0 →
    m = 0 ∧ ∀ u ∈ ts, u.leftmost = none := by
  intro ts
  induction ts with
  | nil => exact fun h => ⟨h,by simp⟩
  | cons u ts ih =>
    intro m h
    rw [minTimeoutOver] at h
    split at h
    · rename_i hnone
      obtain ⟨hm,hts⟩ := ih h
      exact ⟨hm,List.forall_mem_cons.mpr ⟨hnone,hts⟩⟩
    · split at h
      · rename_i data _ hgt
        obtain ⟨hm,_⟩ := ih h
        split at hm <;> omega
      · cases h

private theorem minTimeoutOver_upper {t : Nat} : ∀ {ts : List (Tree ExpiryNode)} {m : Nat}, minTimeoutOver t ts m ≠ 0 →
    (m ≠ 0 ∧ minTimeoutOver t ts m = m) ∨
      ∃ u ∈ ts, ∃ data, u.leftmost = some data ∧ data.msecs ≤ t + minTimeoutOver t ts m := by
  intro ts
  induction ts with
  | nil => exact fun h => .inl ⟨h,rfl⟩
  | cons u ts ih =>
    intro m h
    rw [minTimeoutOver] at h ⊢
    split at h
    · rename_i hnone
      rcases ih h with hm | ⟨v,hv,data,hdata⟩
      · exact .inl hm
      · exact .inr ⟨v,List.mem_cons_of_mem _ hv,data,hdata⟩
    · rename_i data hdata
      split at h
      · rename_i hgt
        rw [if_pos hgt]
        rcases ih h with ⟨_,heq⟩ | ⟨v,hv,data',hdata'⟩
        · rw [heq]
          split
          · exact .inr ⟨u,List.mem_cons_self,data,hdata,by omega⟩
          · rename_i hkeep
            exact .inl ⟨by omega,rfl⟩
        · exact .inr ⟨v,List.mem_cons_of_mem _ hv,data',hdata'⟩
      · rename_i hdue
        rw [if_neg hdue]
        exact .inr ⟨u,List.mem_cons_self,data,hdata,by omega⟩

/-- A node that is due answers 1, whichever tree it is in and whatever the trees before it hold. -/
private theorem minTimeoutOver_due {t : Nat} {ts : List (Tree ExpiryNode)} {u : Tree ExpiryNode} (hu : u ∈ ts)
    {data : ExpiryNode} (hdata : u.leftmost = some data) (hdue : data.msecs ≤ t) (m : Nat) :
    minTimeoutOver t ts m = 1 := by
  induction ts generalizing m with
  | nil => cases hu
  | cons v ts ih =>
    rw [minTimeoutOver]
    rcases List.mem_cons.mp hu with rfl | hu
    · rw [hdata]
      exact if_neg (by omega)
    · split
      · exact ih hu m
      · split
        · exact ih hu _
        · rfl

private theorem minTimeoutOver_lower {t : Nat} {ts : List (Tree ExpiryNode)}
    (hdue : ∀ u ∈ ts, ∀ data, u.leftmost = some data → t < data.msecs) (m : Nat) :
    (m ≠ 0 → minTimeoutOver t ts m ≤ m) ∧
      ∀ u ∈ ts, ∀ data, u.leftmost = some data → t + minTimeoutOver t ts m ≤ data.msecs := by
  induction ts generalizing m with
  | nil => exact ⟨fun _ => le_rfl,by simp⟩
  | cons u ts ih =>
    obtain ⟨hu,hrest⟩ := List.forall_mem_cons.mp hdue
    rw [minTimeoutOver]
    split
    · rename_i hnone
      obtain ⟨hm,hts⟩ := ih hrest m
      refine ⟨hm,List.forall_mem_cons.mpr ⟨?_,hts⟩⟩
      intro data hdata
      cases hnone.symm.trans hdata
    · rename_i data hdata
      have hgt := hu data hdata
      rw [if_pos hgt]
      obtain ⟨hm,hts⟩ := ih hrest (if m > data.msecs - t ∨ m = 0 then data.msecs - t else m)
      have hpos : (if m > data.msecs - t ∨ m = 0 then data.msecs - t else m) ≠ 0 := by split <;> omega
      have hle := hm hpos
      refine ⟨?_,List.forall_mem_cons.mpr ⟨?_,hts⟩⟩
      · intro _
        apply hle.trans
        split <;> omega
      · intro data' hdata'
        cases hdata.symm.trans hdata'
        have : (if m > data.msecs - t ∨ m = 0 then data.msecs - t else m) ≤ data.msecs - t := by split <;> omega
        omega

private theorem leftmost_le {t : Tree ExpiryNode} (hs : (t.inorder.map ExpiryNode.msecs).Pairwise (· ≤ ·))
    {n : ExpiryNode} (hn : n ∈ t.inorder) : ∃ data, t.leftmost = some data ∧ data.msecs ≤ n.msecs := by
  induction t with
  | nil => cases hn
  | node c l a r il _ =>
    simp only [Tree.inorder_node,List.map_append,List.map_cons,List.pairwise_append,List.pairwise_cons,
      List.mem_cons] at hs
    obtain ⟨hl,⟨ha,_⟩,hcross⟩ := hs
    simp only [Tree.leftmost]
    cases hleft : l.leftmost with
    | some data =>
      refine ⟨data,rfl,?_⟩
      have hdata := Tree.mem_of_leftmost hleft
      rw [Tree.inorder_node,List.mem_append] at hn
      rcases hn with hn | hn
      · obtain ⟨data',hd',hle⟩ := il hl hn
        cases hleft.symm.trans hd'
        exact hle
      · have := hcross _ (List.mem_map_of_mem hdata) n.msecs (by
          rcases List.mem_cons.mp hn with rfl | hn
          · exact .inl rfl
          · exact .inr (List.mem_map_of_mem hn))
        exact this
    | none =>
      refine ⟨a,rfl,?_⟩
      rw [Tree.inorder_node,List.mem_append,List.mem_cons] at hn
      rcases hn with hn | rfl | hn
      · obtain ⟨data',hd',_⟩ := il hl hn
        cases hleft.symm.trans hd'
      · exact le_rfl
      · exact ha _ (List.mem_map_of_mem hn)

private theorem mem_roots {e : Expiry} {u : Tree ExpiryNode} :
    u ∈ [e.root .msg,e.root .memqueue,e.root .consumer] ↔ ∃ type, u = e.root type := by
  simp only [List.mem_cons,List.not_mem_nil,or_false]
  constructor
  · rintro (rfl | rfl | rfl)
    · exact ⟨.msg,rfl⟩
    · exact ⟨.memqueue,rfl⟩
    · exact ⟨.consumer,rfl⟩
  · rintro ⟨type,rfl⟩
    cases type
    · exact .inl rfl
    · exact .inr (.inl rfl)
    · exact .inr (.inr rfl)

/-- The answer 0 means that nothing is scheduled. -/
theorem schedGetMinTimeout_zero {e : Expiry} (hs : e.Sound) {now : Nat} (h : schedGetMinTimeout e now = 0)
    (type : ObjType) : e.deadlines type = [] := by
  have hnone := (minTimeoutOver_zero h).2 (e.root type) (mem_roots.mpr ⟨type,rfl⟩)
  rw [List.eq_nil_iff_forall_not_mem]
  intro d hd
  obtain ⟨n,hn,_⟩ := List.mem_map.mp hd
  obtain ⟨data,hdata,_⟩ := leftmost_le ((hs.sorted type).imp le_of_lt) hn
  cases hnone.symm.trans hdata

/-- Any other answer is no sooner than some deadline. -/
theorem schedGetMinTimeout_reaches {e : Expiry} {now : Nat} (h : schedGetMinTimeout e now ≠ 0) :
    ∃ type, ∃ d ∈ e.deadlines type, d ≤ now % 2^32 + schedGetMinTimeout e now := by
  rcases minTimeoutOver_upper h with ⟨hne,_⟩ | ⟨u,hu,data,hdata,hle⟩
  · exact absurd rfl hne
  · obtain ⟨type,rfl⟩ := mem_roots.mp hu
    exact ⟨type,data.msecs,List.mem_map_of_mem (Tree.mem_of_leftmost hdata),hle⟩

/-- An answer that lets the cleaner sleep is no later than any deadline. -/
theorem schedGetMinTimeout_le {e : Expiry} (hs : e.Sound) {now : Nat} (h : schedGetMinTimeout e now ≠ 1)
    (type : ObjType) {d : Nat} (hd : d ∈ e.deadlines type) : now % 2^32 + schedGetMinTimeout e now ≤ d := by
  obtain ⟨n,hn,rfl⟩ := List.mem_map.mp hd
  obtain ⟨data,hdata,hle⟩ := leftmost_le ((hs.sorted type).imp le_of_lt) hn
  have hlater : ∀ u ∈ [e.root .msg,e.root .memqueue,e.root .consumer], ∀ data, u.leftmost = some data →
      now % 2^32 < data.msecs := by
    intro u hu data hdata
    by_contra hdue
    exact h (minTimeoutOver_due hu hdata (by omega) 0)
  have := (minTimeoutOver_lower hlater 0).2 (e.root type) (mem_roots.mpr ⟨type,rfl⟩) data hdata
  exact this.trans hle

/-- The operands of the unsigned subtractions of sched_get_min_timeout: one in the test, one in the assignment. -/
def minTimeoutSubs (tDiffMsecs : Nat) : List (Tree ExpiryNode) → Nat → List (Nat × Nat)
  | [], _ => []
  | t :: ts, min =>
    match t.leftmost with
    | none => minTimeoutSubs tDiffMsecs ts min
    | some data =>
      if data.msecs > tDiffMsecs then
        if min > data.msecs - tDiffMsecs ∨ min = 0 then
          (data.msecs,tDiffMsecs) :: (data.msecs,tDiffMsecs) :: minTimeoutSubs tDiffMsecs ts (data.msecs - tDiffMsecs)
        else (data.msecs,tDiffMsecs) :: minTimeoutSubs tDiffMsecs ts min
      else []

def schedGetMinTimeoutSubs (e : Expiry) (now : Nat) : List (Nat × Nat) :=
  minTimeoutSubs (now % 2^32) [e.root .msg,e.root .memqueue,e.root .consumer] 0

private theorem minTimeoutSubs_lt {t : Nat} {ts : List (Tree ExpiryNode)} {m : Nat} {p : Nat × Nat}
    (h : p ∈ minTimeoutSubs t ts m) : p.2 < p.1 := by
  induction ts generalizing m with
  | nil => cases h
  | cons u ts ih =>
    rw [minTimeoutSubs] at h
    split at h
    · exact ih h
    · rename_i data hdata
      split at h
      · rename_i hgt
        split at h
        · rcases List.mem_cons.mp h with rfl | h
          · exact hgt
          rcases List.mem_cons.mp h with rfl | h
          · exact hgt
          · exact ih h
        · rcases List.mem_cons.mp h with rfl | h
          · exact hgt
          · exact ih h
      · cases h

private theorem leftmost_none {t : Tree ExpiryNode} (h : t.leftmost = none) : t = .nil := by
  cases t with
  | nil => rfl
  | node c l a r =>
    rw [Tree.leftmost,Option.or_eq_none_iff] at h
    cases h.2

/-- sched_get_min_timeout over any three search trees: 0 if there is no node at all, 1 if one is due, and the
distance to the smallest deadline of all otherwise. No subtraction it makes goes below zero. -/
theorem schedGetMinTimeout_least {e : Expiry} (hs : ∀ type, (e.deadlines type).Pairwise (· ≤ ·)) (now : Nat) :
    (schedGetMinTimeout e now = 0 ↔ ∀ type, e.root type = .nil) ∧
    ((∃ type, ∃ d ∈ e.deadlines type, d ≤ now % 2^32) → schedGetMinTimeout e now = 1) ∧
    ((∀ type, ∀ d ∈ e.deadlines type, now % 2^32 < d) → (∃ type, e.root type ≠ .nil) →
      ∃ least, IsLeast { d | ∃ type, d ∈ e.deadlines type } least ∧ schedGetMinTimeout e now = least - now % 2^32) ∧
    ∀ p ∈ schedGetMinTimeoutSubs e now, p.2 < p.1 := by
  have hroots : ∀ type, e.root type ∈ [e.root .msg,e.root .memqueue,e.root .consumer] :=
    fun type => mem_roots.mpr ⟨type,rfl⟩
  have hzero : schedGetMinTimeout e now = 0 ↔ ∀ type, e.root type = .nil := by
    constructor
    · intro h type
      exact leftmost_none ((minTimeoutOver_zero h).2 _ (hroots type))
    · intro h
      rw [schedGetMinTimeout,h,h,h]
      rfl
  refine ⟨hzero,?_,?_,fun p hp => minTimeoutSubs_lt hp⟩
  · rintro ⟨type,d,hd,hdue⟩
    obtain ⟨n,hn,rfl⟩ := List.mem_map.mp hd
    obtain ⟨data,hdata,hle⟩ := leftmost_le (hs type) hn
    exact minTimeoutOver_due (hroots type) hdata (hle.trans hdue) 0
  · rintro hlater ⟨type,hne⟩
    have hanswer : schedGetMinTimeout e now ≠ 0 := fun h => hne (hzero.mp h type)
    have hleft : ∀ u ∈ [e.root .msg,e.root .memqueue,e.root .consumer], ∀ data, u.leftmost = some data →
        now % 2^32 < data.msecs := by
      intro u hu data hdata
      obtain ⟨type,rfl⟩ := mem_roots.mp hu
      exact hlater type _ (List.mem_map_of_mem (Tree.mem_of_leftmost hdata))
    have hbelow : ∀ type, ∀ d ∈ e.deadlines type, now % 2^32 + schedGetMinTimeout e now ≤ d := by
      intro type d hd
      obtain ⟨n,hn,rfl⟩ := List.mem_map.mp hd
      obtain ⟨data,hdata,hle⟩ := leftmost_le (hs type) hn
      exact ((minTimeoutOver_lower hleft 0).2 _ (hroots type) data hdata).trans hle
    obtain ⟨type',d,hd,hle⟩ := schedGetMinTimeout_reaches hanswer
    refine ⟨d,⟨⟨type',hd⟩,?_⟩,?_⟩
    · rintro d' ⟨type'',hd'⟩
      exact hle.trans (hbelow type'' d' hd')
    · have := hbelow type' d hd
      omega

/-- A message deadline at 9 and a consumer deadline at 7. -/
def twoDeadlines : Expiry :=
  (Expiry.empty.setRoot .msg (.node false .nil ⟨0,9,[],[],[]⟩ .nil)).setRoot .consumer
    (.node false .nil ⟨1,7,[],[],[]⟩ .nil)

/-- The first tree is not due yet, the last one is. -/
theorem schedGetMinTimeout_last : (∀ type, (twoDeadlines.deadlines type).Pairwise (· ≤ ·)) ∧
    schedGetMinTimeout twoDeadlines 7 = 1 := by
  have hs : ∀ type, (twoDeadlines.deadlines type).Pairwise (· ≤ ·) := by
    intro type
    cases type
    all_goals decide
  exact ⟨hs,(schedGetMinTimeout_least hs 7).2.1 ⟨.consumer,7,by decide,by decide⟩⟩

end MinTimeout

section Traces
variable [Rebalance ExpiryNode] {now : Nat} {P : ObjType → Ptr → Prop}

/-- Changes of the index that make the calls `cs` in this order. An object is unlinked for one of these calls,
or because `P` allows it. -/
def IndexTrace (now : Nat) (P : ObjType → Ptr → Prop) (cs : List Sched) (e e' : Expiry) : Prop :=
  ∃ ops, Trace (IndexMove now) ops e e' ∧ ops.filterMap IndexOp.call = cs ∧
    ∀ type o, .unlink type o ∈ ops → (∃ c ∈ cs, c.type = type ∧ c.obj = o) ∨ P type o

theorem IndexTrace.refl (e : Expiry) : IndexTrace now P [] e e := ⟨[],.nil e,rfl,fun _ _ h => by cases h⟩

theorem IndexTrace.append {cs cs' : List Sched} {e e' e'' : Expiry} (h : IndexTrace now P cs e e')
    (h' : IndexTrace now P cs' e' e'') : IndexTrace now P (cs ++ cs') e e'' := by
  obtain ⟨ops,ht,rfl,hun⟩ := h
  obtain ⟨ops',ht',rfl,hun'⟩ := h'
  refine ⟨ops ++ ops',ht.append ht',List.filterMap_append,?_⟩
  intro type o ho
  rcases List.mem_append.mp ho with ho | ho
  · rcases hun type o ho with ⟨c,hc,heq⟩ | hp
    · exact .inl ⟨c,List.mem_append_left _ hc,heq⟩
    · exact .inr hp
  · rcases hun' type o ho with ⟨c,hc,heq⟩ | hp
    · exact .inl ⟨c,List.mem_append_right _ hc,heq⟩
    · exact .inr hp

theorem IndexTrace.sched {c : Sched} {e e' : Expiry} (hnew : c.obj ∉ e.indexed c.type)
    (h : objSchedExpire e now c.obj c.msecs c.type = .ok e') : IndexTrace now P [c] e e' := by
  refine ⟨[.sched c],.single (.sched hnew h),rfl,?_⟩
  intro type o ho
  cases List.mem_singleton.mp ho

theorem IndexTrace.sweep {type : ObjType} {addr : Ptr} {e e' : Expiry} {f : Bool}
    (h : possiblyNodeFree e type addr = .ok (f,e')) : IndexTrace now P [] e e' := by
  refine ⟨[.sweep type addr],.single (.sweep h),rfl,?_⟩
  intro type o ho
  cases List.mem_singleton.mp ho

theorem IndexTrace.clear (e : Expiry) (type : ObjType) (o : Ptr) : IndexTrace now P [] e (e.setNode type o none) := by
  refine ⟨[.clear type o],.single .clear,rfl,?_⟩
  intro type o ho
  cases List.mem_singleton.mp ho

theorem IndexTrace.unlink {type : ObjType} {o : Ptr} (e : Expiry) (hp : P type o) :
    IndexTrace now P [] e (listRemove e type o) := by
  refine ⟨[.unlink type o],.single .unlink,rfl,?_⟩
  intro type' o' ho
  cases List.mem_singleton.mp ho
  exact .inr hp

/-- The call a resched makes, if the object has a node. -/
def reschedCalls (e : Expiry) (type : ObjType) (obj : Ptr) (expiry : Nat) : List Sched :=
  if (e.expiryNode type obj).isSome then [⟨type,obj,expiry⟩] else []

theorem resched_index {e e' : Expiry} {obj expiry : Nat} {type : ObjType} (hw : e.Wf NoneExempt)
    (h : resched e now obj expiry type = .ok e') : IndexTrace now P (reschedCalls e type obj expiry) e e' := by
  rcases resched_cases h with ⟨hnone,rfl⟩ | ⟨addr,f,e₁,hsome,hfree,hsched⟩
  · rw [reschedCalls,hnone]
    exact .refl e'
  · rw [reschedCalls,hsome,Option.isSome_some,if_pos rfl]
    have hout : obj ∉ (if f then e₁.setNode type obj none else e₁).indexed type := by
      have hidx : (if f then e₁.setNode type obj none else e₁).indexed type = (listRemove e type obj).indexed type := by
        rw [← (possiblyNodeFree_spec (listRemove_spec hw type obj).1 hfree).2.1 type]
        split <;> rfl
      rw [hidx,((listRemove_spec hw type obj).2 type obj)]
      exact fun hm => hm.2 ⟨rfl,rfl⟩
    have hmid : Trace (IndexMove now) (if f then [.clear type obj] else []) e₁ (if f then e₁.setNode type obj none
        else e₁) := by
      split
      · exact .single .clear
      · exact .nil e₁
    refine ⟨.unlink type obj :: .sweep type addr :: ((if f then [.clear type obj] else []) ++
      [.sched ⟨type,obj,expiry⟩]),
      .cons .unlink (.cons (.sweep hfree) (hmid.append (.single (.sched hout hsched)))),?_,?_⟩
    · cases f <;> rfl
    · intro type' o ho
      refine .inl ⟨_,List.mem_singleton_self _,?_⟩
      have heq : IndexOp.unlink type' o = .unlink type obj := by
        rcases List.mem_cons.mp ho with ho | ho
        · exact ho
        · cases f <;> simp at ho
      cases heq
      exact ⟨rfl,rfl⟩

/-- What every change preserves under the calls made, the trace preserves. -/
theorem IndexTrace.invariant {cs : List Sched} {e e' : Expiry} (h : IndexTrace now P cs e e') {I : Expiry → Prop}
    (hmove : ∀ op u v, (∀ c, op = .sched c → c ∈ cs) → u.Sound → I u → IndexMove now op u v → I v) (hs : e.Sound)
    (hi : I e) : e'.Sound ∧ I e' := by
  obtain ⟨ops,ht,rfl,_⟩ := h
  refine ht.invariant (I := fun u => u.Sound ∧ I u) ?_ ⟨hs,hi⟩
  rintro op u v hop ⟨hsu,hiu⟩ hm
  refine ⟨hm.sound hsu,hmove op u v ?_ hsu hiu hm⟩
  rintro c rfl
  exact List.mem_filterMap.mpr ⟨_,hop,rfl⟩

end Traces

section Latest
variable [Rebalance ExpiryNode] {now : Nat}

/-- Every linked object stands at the deadline of its latest call, and calls are in `log` with their time. -/
def Expiry.Latest (e : Expiry) (log : List (Nat × Sched)) : Prop :=
  ∀ type d o, e.linkedAt type d o → ∃ p ∈ log, p.2.type = type ∧ p.2.obj = o ∧ d = (p.1 + p.2.msecs) % 2^32 ∧
    ∀ p' ∈ log, p'.2.type = type → p'.2.obj = o → p'.1 ≤ p.1

/-- An object that is scheduled stands nowhere else. -/
theorem IndexMove.latest {op : IndexOp} {e e' : Expiry} {log : List (Nat × Sched)} (h : IndexMove now op e e')
    (hs : e.Sound) (hpast : ∀ p ∈ log, p.1 ≤ now) (hl : e.Latest log) :
    e'.Latest (op.call.toList.map (fun c => (now,c)) ++ log) := by
  intro type d o hd
  rcases h.linkedAt hs hd with hold | ⟨c,rfl,rfl,rfl,rfl⟩
  · obtain ⟨p,hp,htype,hobj,hdue,hlast⟩ := hl type d o hold
    refine ⟨p,List.mem_append_right _ hp,htype,hobj,hdue,?_⟩
    intro p' hp' htype' hobj'
    rcases List.mem_append.mp hp' with hp' | hp'
    · cases h with
      | @sched c _ _ hnew hc =>
        cases List.mem_singleton.mp hp'
        subst htype'
        subst hobj'
        exact absurd (mem_indexed_iff.mpr ⟨d,hold⟩) hnew
      | _ => cases hp'
    · exact hlast p' hp' htype' hobj'
  · refine ⟨(now,c),by simp [IndexOp.call],rfl,rfl,rfl,?_⟩
    intro p' hp' _ _
    rcases List.mem_append.mp hp' with hp' | hp'
    · cases List.mem_singleton.mp hp'
      exact le_rfl
    · exact hpast p' hp'

theorem IndexTrace.latest {P : ObjType → Ptr → Prop} {cs : List Sched} {e e' : Expiry} {log : List (Nat × Sched)}
    (h : IndexTrace now P cs e e') (hs : e.Sound) (hpast : ∀ p ∈ log, p.1 ≤ now) (hl : e.Latest log) :
    e'.Latest (cs.map (fun c => (now,c)) ++ log) := by
  obtain ⟨ops,ht,rfl,-⟩ := h
  induction ht generalizing log with
  | nil => exact hl
  | @cons op ops e u e' hm _ ih =>
    have hmem : ∀ p, p ∈ (ops.filterMap IndexOp.call).map (fun c => (now,c)) ++
        (op.call.toList.map (fun c => (now,c)) ++ log) ↔
        p ∈ ((op :: ops).filterMap IndexOp.call).map (fun c => (now,c)) ++ log := by
      intro p
      cases hc : op.call with
      | none => simp [hc]
      | some c =>
        simp only [List.filterMap_cons,hc,Option.toList_some,List.map_cons,List.map_nil,List.mem_append,List.mem_cons,
          List.not_mem_nil,or_false]
        tauto
    have hpast' : ∀ p ∈ op.call.toList.map (fun c => (now,c)) ++ log, p.1 ≤ now := by
      intro p hp
      rcases List.mem_append.mp hp with hp | hp
      · obtain ⟨c,_,rfl⟩ := List.mem_map.mp hp
        exact le_rfl
      · exact hpast p hp
    have hrest := ih (hm.sound hs) hpast' (hm.latest hs hpast hl)
    intro type d o hd
    obtain ⟨p,hp,htype,hobj,hdue,hlast⟩ := hrest type d o hd
    exact ⟨p,(hmem p).mp hp,htype,hobj,hdue,fun p' hp' => hlast p' ((hmem p').mpr hp')⟩

omit [Rebalance ExpiryNode] in
/-- A deadline that did not wrap is met only after the whole delay. -/
theorem not_before {t T m d : Nat} (hfits : t % 2^32 + m < 2^32) (hd : d = (t + m) % 2^32) (hle : t ≤ T)
    (hdue : d ≤ T % 2^32) : t + m ≤ T := by
  omega

end Latest

section Watched
variable [Rebalance ExpiryNode] {now : Nat}

/-- Unless it has been signalled, a sleeper wakes no later than any deadline; without a wake-up time there is none. -/
def Expiry.Watched (e : Expiry) (wake : Option Nat) : Prop :=
  e.signalled = true ∨ ∀ type, ∀ d ∈ e.deadlines type, ∃ w ∈ wake, w ≤ d

theorem objSchedExpire_signalled {e e' : Expiry} {obj msecs : Nat} {type : ObjType}
    (h : objSchedExpire e now obj msecs type = .ok e') :
    e'.signalled = (e.signalled || decide (schedGetMinTimeout e now = 0 ∨ schedGetMinTimeout e now > msecs)) := by
  simp only [objSchedExpire] at h
  split at h
  · split at h
    · cases h
    · cases h
      rfl
  · cases h
    rfl

/-- A new deadline that is not signalled lies behind one the sleeper already wakes for. -/
theorem IndexMove.watched {op : IndexOp} {e e' : Expiry} {wake : Option Nat} (h : IndexMove now op e e') (hs : e.Sound)
    (hfits : ∀ c, op = .sched c → now + c.msecs < 2^32) (hw : e.Watched wake) : e'.Watched wake := by
  have hold : e'.signalled = e.signalled → (∀ c, op ≠ .sched c) → e'.Watched wake := by
    intro hsig hop
    rcases hw with hw | hw
    · exact .inl (hsig.trans hw)
    · refine .inr ?_
      intro type d hd
      rcases h.deadlines hs hd with hd | ⟨c,hc,_⟩
      · exact hw type d hd
      · exact absurd hc (hop c)
  cases h with
  | @sched c _ _ hnew hc =>
    have hsig := objSchedExpire_signalled hc
    by_cases hquiet : e.signalled = true ∨ schedGetMinTimeout e now = 0 ∨ schedGetMinTimeout e now > c.msecs
    · refine .inl ?_
      rw [hsig,Bool.or_eq_true,decide_eq_true_eq]
      exact hquiet
    · rw [not_or,not_or] at hquiet
      obtain ⟨hunsig,hne,hle⟩ := hquiet
      have hnow := hfits c rfl
      rcases hw with hw | hw
      · exact absurd hw hunsig
      · refine .inr ?_
        intro type d hd
        rcases (IndexMove.sched hnew hc).deadlines hs hd with hd | ⟨c',hc',_,rfl⟩
        · exact hw type d hd
        · cases hc'
          obtain ⟨type',d',hd',hle'⟩ := schedGetMinTimeout_reaches hne
          obtain ⟨w,hwake,hwd⟩ := hw type' d' hd'
          refine ⟨w,hwake,?_⟩
          rw [Nat.mod_eq_of_lt hnow]
          rw [Nat.mod_eq_of_lt (by omega)] at hle'
          omega
  | unlink => exact hold rfl (by intro c hc; cases hc)
  | clear => exact hold rfl (by intro c hc; cases hc)
  | sweep hf =>
    refine hold ?_ (by intro c hc; cases hc)
    obtain ⟨n,_,_,⟨_,_,rfl⟩ | ⟨_,_,rfl⟩⟩ := possiblyNodeFree_cases hf <;> rfl

theorem IndexTrace.watched {P : ObjType → Ptr → Prop} {cs : List Sched} {e e' : Expiry} {wake : Option Nat}
    (h : IndexTrace now P cs e e') (hs : e.Sound) (hfits : ∀ c ∈ cs, now + c.msecs < 2^32) (hw : e.Watched wake) :
    e'.Sound ∧ e'.Watched wake := by
  refine h.invariant (I := fun u => u.Watched wake) ?_ hs hw
  intro op u v hop hsu hwu hm
  exact hm.watched hsu (fun c hc => hfits c (hop c hc)) hwu

end Watched

end Memqueue
