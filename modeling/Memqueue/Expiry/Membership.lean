import Memqueue.Expiry.Index

/-! Which objects the index holds, operation by operation, and the loop rule of objs_expire. -/
namespace Memqueue
open Fallible

@[simp] theorem ExpiryNode.objs_setObjs (n : ExpiryNode) (type : ObjType) (os : List Ptr) :
    (n.setObjs type os).objs type = os := by cases type <;> rfl

@[simp] theorem ExpiryNode.addr_setObjs (n : ExpiryNode) (type : ObjType) (os : List Ptr) :
    (n.setObjs type os).addr = n.addr := by cases type <;> rfl

@[simp] theorem ExpiryNode.msecs_setObjs (n : ExpiryNode) (type : ObjType) (os : List Ptr) :
    (n.setObjs type os).msecs = n.msecs := by cases type <;> rfl

theorem ExpiryNode.objs_of_isEmpty {n : ExpiryNode} (h : n.isEmpty = true) (type : ObjType) :
    n.objs type = [] := by
  simp only [isEmpty,Bool.and_eq_true,List.isEmpty_iff] at h
  cases type
  · exact h.1.2
  · exact h.1.1
  · exact h.2

@[simp] theorem ExpiryNode.setObjs_objs (n : ExpiryNode) (type : ObjType) : n.setObjs type (n.objs type) = n := by
  cases type <;> rfl

theorem ExpiryNode.objs_setObjs_ne (n : ExpiryNode) {type t : ObjType} (h : t ≠ type) (os : List Ptr) :
    (n.setObjs type os).objs t = n.objs t := by
  cases type <;> cases t <;> first | rfl | exact absurd rfl h

theorem ExpiryNode.isEmpty_of_objs {n : ExpiryNode} {type : ObjType} (hp : ∀ t, t ≠ type → n.objs t = [])
    (ho : n.objs type = []) : n.isEmpty = true := by
  have hall : ∀ t, n.objs t = [] := by
    intro t
    by_cases ht : t = type
    · rw [ht,ho]
    · exact hp t ht
  have h₁ : n.memqueueObjs = [] := hall .memqueue
  have h₂ : n.msgObjs = [] := hall .msg
  have h₃ : n.consumerObjs = [] := hall .consumer
  simp [isEmpty,h₁,h₂,h₃]

namespace Expiry

@[simp] theorem root_setRoot (e : Expiry) (type : ObjType) (t : Tree ExpiryNode) :
    (e.setRoot type t).root type = t := by simp [setRoot]

theorem root_setRoot_ne (e : Expiry) {type type' : ObjType} (h : type' ≠ type) (t : Tree ExpiryNode) :
    (e.setRoot type t).root type' = e.root type' := by simp [setRoot,h]

@[simp] theorem expiryNode_setRoot (e : Expiry) (type : ObjType) (t : Tree ExpiryNode) :
    (e.setRoot type t).expiryNode = e.expiryNode := rfl

@[simp] theorem nextNode_setRoot (e : Expiry) (type : ObjType) (t : Tree ExpiryNode) :
    (e.setRoot type t).nextNode = e.nextNode := rfl

@[simp] theorem root_setNode (e : Expiry) (type : ObjType) (o : Ptr) (n : Option Ptr) :
    (e.setNode type o n).root = e.root := rfl

@[simp] theorem nextNode_setNode (e : Expiry) (type : ObjType) (o : Ptr) (n : Option Ptr) :
    (e.setNode type o n).nextNode = e.nextNode := rfl

theorem expiryNode_setNode (e : Expiry) (type type' : ObjType) (o o' : Ptr) (n : Option Ptr) :
    (e.setNode type o n).expiryNode type' o' =
      if type' = type ∧ o' = o then n else e.expiryNode type' o' := by
  by_cases ht : type' = type
  · subst ht
    by_cases ho : o' = o
    · subst ho; simp [setNode]
    · simp [setNode,ho]
  · simp [setNode,ht]

theorem mem_indexed {e : Expiry} {type : ObjType} {o : Ptr} :
    o ∈ e.indexed type ↔ ∃ n ∈ (e.root type).inorder, o ∈ n.objs type := by
  simp [indexed]

/-- The index is a set of linked objects with distinct node addresses, and a back-pointer is
only ever set on a linked object. Objects in `X` are exempt from the last point. -/
structure Wf (X : ObjType → Ptr → Prop) (e : Expiry) : Prop where
  addrs : ∀ type, ((e.root type).inorder.map ExpiryNode.addr).Nodup
  bound : ∀ type, ∀ n ∈ (e.root type).inorder, n.addr < e.nextNode
  nodup : ∀ type, (e.indexed type).Nodup
  linked : ∀ type o, (e.expiryNode type o).isSome → o ∈ e.indexed type ∨ X type o

/-- No object is exempt. -/
abbrev NoneExempt : ObjType → Ptr → Prop := fun _ _ => False

theorem wf_empty : empty.Wf NoneExempt where
  addrs _ := List.nodup_nil
  bound _ _ h := by cases h
  nodup _ := List.nodup_nil
  linked _ _ h := by cases h

theorem Wf.signalIf {X : ObjType → Ptr → Prop} {e : Expiry} (h : e.Wf X) (b : Bool) :
    (e.signalIf b).Wf X :=
  ⟨h.addrs,h.bound,h.nodup,h.linked⟩

end Expiry

open Expiry

private theorem flatMap_insertHead (type : ObjType) {addr : Ptr} (obj : Ptr) (L : List ExpiryNode)
    (hn : (L.map ExpiryNode.addr).Nodup) (ha : addr ∈ L.map ExpiryNode.addr) :
    ((L.map fun n => if n.addr = addr then n.setObjs type (obj :: n.objs type) else n).flatMap
      fun n => n.objs type).Perm (obj :: L.flatMap fun n => n.objs type) := by
  induction L with
  | nil => cases ha
  | cons n L ih =>
    rw [List.map_cons,List.nodup_cons] at hn
    by_cases h : n.addr = addr
    · have hrest : (L.map fun n => if n.addr = addr then n.setObjs type (obj :: n.objs type) else n) = L := by
        rw [List.map_congr_left (g := id),List.map_id]
        intro m hm
        have hne : m.addr ≠ addr := by
          intro he
          exact hn.1 (List.mem_map.mpr ⟨m,hm,by rw [he,h]⟩)
        simp [hne]
      rw [List.map_cons,if_pos h,hrest]
      simp
    · have ha' : addr ∈ L.map ExpiryNode.addr := by
        rcases List.mem_cons.mp ha with he | ht
        · exact absurd he.symm h
        · exact ht
      rw [List.map_cons,if_neg h,List.flatMap_cons,List.flatMap_cons]
      exact ((ih hn.2 ha').append_left _).trans List.perm_middle

theorem indexed_listInsertHead {e : Expiry} {type : ObjType} {addr : Ptr} (obj : Ptr)
    (hn : ((e.root type).inorder.map ExpiryNode.addr).Nodup)
    (ha : addr ∈ (e.root type).inorder.map ExpiryNode.addr) :
    ((listInsertHead e type addr obj).indexed type).Perm (obj :: e.indexed type) := by
  simpa [indexed,listInsertHead] using flatMap_insertHead type obj _ hn ha

theorem indexed_listRemove {e : Expiry} {type : ObjType} (obj : Ptr) (hn : (e.indexed type).Nodup) :
    (listRemove e type obj).indexed type = (e.indexed type).filter (fun o => o ≠ obj) := by
  simp only [indexed,listRemove,root_setRoot,Tree.inorder_map,List.flatMap_map,
    ExpiryNode.objs_setObjs,List.filter_flatMap]
  apply List.flatMap_congr
  intro n hm
  have hd : (n.objs type).Nodup := (List.nodup_flatMap.mp hn).1 n hm
  rw [hd.erase_eq_filter]
  apply List.filter_congr
  intro o _
  by_cases h : o = obj <;> simp [h]

private theorem flatMap_filter_empty {type : ObjType} {p : ExpiryNode → Bool} (L : List ExpiryNode)
    (h : ∀ n ∈ L, p n = true → n.objs type = []) :
    (L.filter fun n => !p n).flatMap (fun n => n.objs type) = L.flatMap fun n => n.objs type := by
  induction L with
  | nil => rfl
  | cons n L ih =>
    have ih := ih (fun m hm => h m (List.mem_cons_of_mem _ hm))
    by_cases hp : p n = true
    · rw [List.filter_cons_of_neg (by simp [hp]),ih,List.flatMap_cons,
        h n List.mem_cons_self hp,List.nil_append]
    · rw [List.filter_cons_of_pos (by simp [hp]),List.flatMap_cons,List.flatMap_cons,ih]

/-- rb_link_node puts one new leaf somewhere into the in-order sequence. -/
theorem rbLinkNode_inorder {t t' : Tree ExpiryNode} {data : ExpiryNode}
    (h : rbLinkNode t data = some t') :
    ∃ l r, t.inorder = l ++ r ∧ t'.inorder = l ++ data :: r := by
  induction t generalizing t' with
  | nil =>
    cases h
    exact ⟨[],[],rfl,rfl⟩
  | node c l this r il ir =>
    simp only [rbLinkNode] at h
    split at h
    · obtain ⟨l',hl,rfl⟩ := Option.map_eq_some_iff.mp h
      obtain ⟨x,y,hx,hy⟩ := il hl
      exact ⟨x,y ++ this :: r.inorder,by simp [hx],by simp [hy]⟩
    · split at h
      · obtain ⟨r',hr,rfl⟩ := Option.map_eq_some_iff.mp h
        obtain ⟨x,y,hx,hy⟩ := ir hr
        exact ⟨l.inorder ++ this :: x,y,by simp [hx],by simp [hy]⟩
      · cases h

theorem rbSearch_mem {t : Tree ExpiryNode} {msecs : Nat} {n : ExpiryNode}
    (h : rbSearch t msecs = some n) : n ∈ t.inorder ∧ n.msecs = msecs := by
  induction t with
  | nil => cases h
  | node c l data r il ir =>
    simp only [rbSearch] at h
    split at h
    · exact ⟨by simp [(il h).1],(il h).2⟩
    · split at h
      · exact ⟨by simp [(ir h).1],(ir h).2⟩
      · cases h
        exact ⟨by simp,by omega⟩

/-- rb_insert takes the path rb_search took, so its assertion cannot fail after a failed search. -/
theorem rbLinkNode_of_rbSearch {t : Tree ExpiryNode} {data : ExpiryNode}
    (h : rbSearch t data.msecs = none) : ∃ t', rbLinkNode t data = some t' := by
  induction t with
  | nil => exact ⟨_,rfl⟩
  | node c l this r il ir =>
    simp only [rbSearch] at h
    simp only [rbLinkNode]
    by_cases hlt : data.msecs < this.msecs
    · rw [if_pos hlt] at h ⊢
      obtain ⟨l',hl⟩ := il h
      exact ⟨_,by rw [hl]; rfl⟩
    · rw [if_neg hlt] at h ⊢
      by_cases hgt : this.msecs < data.msecs
      · rw [if_pos hgt] at h ⊢
        obtain ⟨r',hr⟩ := ir h
        exact ⟨_,by rw [hr]; rfl⟩
      · rw [if_neg hgt] at h
        cases h

section Specs
variable {X : ObjType → Ptr → Prop}

private theorem wf_listInsertHead {e : Expiry} {type : ObjType} {obj : Ptr} (addr : Ptr) (hw : e.Wf X)
    (ha : addr ∈ (e.root type).inorder.map ExpiryNode.addr) (ho : obj ∉ e.indexed type) :
    (listInsertHead e type addr obj).Wf X ∧
    (∀ t o, o ∈ (listInsertHead e type addr obj).indexed t ↔ o ∈ e.indexed t ∨ t = type ∧ o = obj) := by
  have hp := indexed_listInsertHead obj (hw.addrs type) ha
  have hroot : ∀ t, t ≠ type → (listInsertHead e type addr obj).root t = e.root t :=
    fun t ht => root_setRoot_ne e ht _
  have hmem : ∀ t o, o ∈ (listInsertHead e type addr obj).indexed t ↔
      o ∈ e.indexed t ∨ t = type ∧ o = obj := by
    intro t o
    by_cases ht : t = type
    · subst ht
      rw [hp.mem_iff,List.mem_cons]
      tauto
    · simp only [indexed,hroot t ht]
      tauto
  have haddr : ∀ t, ((listInsertHead e type addr obj).root t).inorder.map ExpiryNode.addr =
      (e.root t).inorder.map ExpiryNode.addr := by
    intro t
    by_cases ht : t = type
    · subst ht
      simp only [listInsertHead,root_setRoot,Tree.inorder_map,List.map_map]
      apply List.map_congr_left
      intro n _
      simp only [Function.comp]
      split <;> simp
    · rw [hroot t ht]
  refine ⟨⟨fun t => by rw [haddr t]; exact hw.addrs t,?_,?_,?_⟩,hmem⟩
  · intro t n hn
    have : n.addr ∈ (e.root t).inorder.map ExpiryNode.addr := by
      rw [← haddr t]
      exact List.mem_map_of_mem hn
    obtain ⟨m,hm,he⟩ := List.mem_map.mp this
    rw [← he]
    exact hw.bound t m hm
  · intro t
    by_cases ht : t = type
    · subst ht
      exact hp.nodup_iff.mpr (List.nodup_cons.mpr ⟨ho,hw.nodup t⟩)
    · simp only [indexed,hroot t ht]
      exact hw.nodup t
  · intro t o h
    exact (hw.linked t o h).imp_left fun hi => (hmem t o).mpr (.inl hi)

theorem listRemove_spec {e : Expiry} (hw : e.Wf X) (type : ObjType) (obj : Ptr) :
    (listRemove e type obj).Wf (fun t o => X t o ∨ t = type ∧ o = obj) ∧
    ∀ t o, o ∈ (listRemove e type obj).indexed t ↔ o ∈ e.indexed t ∧ ¬ (t = type ∧ o = obj) := by
  have hi := indexed_listRemove obj (hw.nodup type)
  have hroot : ∀ t, t ≠ type → (listRemove e type obj).root t = e.root t :=
    fun t ht => root_setRoot_ne e ht _
  have hmem : ∀ t o, o ∈ (listRemove e type obj).indexed t ↔
      o ∈ e.indexed t ∧ ¬ (t = type ∧ o = obj) := by
    intro t o
    by_cases ht : t = type
    · subst ht
      simp [hi]
    · simp [indexed,hroot t ht,ht]
  have haddr : ∀ t, ((listRemove e type obj).root t).inorder.map ExpiryNode.addr =
      (e.root t).inorder.map ExpiryNode.addr := by
    intro t
    by_cases ht : t = type
    · subst ht
      simp [listRemove,Function.comp_def]
    · rw [hroot t ht]
  refine ⟨⟨fun t => by rw [haddr t]; exact hw.addrs t,?_,?_,?_⟩,hmem⟩
  · intro t n hn
    have : n.addr ∈ (e.root t).inorder.map ExpiryNode.addr := by
      rw [← haddr t]
      exact List.mem_map_of_mem hn
    obtain ⟨m,hm,he⟩ := List.mem_map.mp this
    rw [← he]
    exact hw.bound t m hm
  · intro t
    by_cases ht : t = type
    · subst ht
      rw [hi]
      exact (hw.nodup t).filter _
    · simp only [indexed,hroot t ht]
      exact hw.nodup t
  · intro t o h
    rcases hw.linked t o h with hl | hx
    · by_cases hto : t = type ∧ o = obj
      · exact .inr (.inr hto)
      · exact .inl ((hmem t o).mpr ⟨hl,hto⟩)
    · exact .inr (.inl hx)

private theorem unique_addr {L : List ExpiryNode} (hn : (L.map ExpiryNode.addr).Nodup) {n m : ExpiryNode}
    (hnl : n ∈ L) (hml : m ∈ L) (h : n.addr = m.addr) : n = m :=
  List.inj_on_of_nodup_map hn hnl hml h

variable [Rebalance ExpiryNode]

theorem rbInsert_inorder {t t' : Tree ExpiryNode} {data : ExpiryNode} (h : rbInsert t data = some t') :
    ∃ l r, t.inorder = l ++ r ∧ t'.inorder = l ++ data :: r := by
  obtain ⟨u,hu,rfl⟩ := Option.map_eq_some_iff.mp h
  rw [Rebalance.inorder_insertColor]
  exact rbLinkNode_inorder hu

/-- The two ways obj_sched_expire can end: a new node of its own, or an existing one. -/
theorem objSchedExpire_cases {e e' : Expiry} {now obj msecs : Nat} {type : ObjType}
    (h : objSchedExpire e now obj msecs type = .ok e') :
    ∃ b, (∃ t, rbSearch (e.root type) ((now + msecs) % 2^32) = none ∧
        rbInsert (e.root type) ⟨e.nextNode,(now + msecs) % 2^32,[],[],[]⟩ = some t ∧
        e' = (listInsertHead ((e.signalIf b).allocNode.setRoot type t) type e.nextNode obj).setNode
          type obj (some e.nextNode)) ∨
      (∃ n, rbSearch (e.root type) ((now + msecs) % 2^32) = some n ∧
        e' = listInsertHead (e.signalIf b) type n.addr obj) := by
  simp only [objSchedExpire] at h
  refine ⟨schedGetMinTimeout e now = 0 ∨ schedGetMinTimeout e now > msecs,?_⟩
  split at h
  · rename_i hnone
    split at h
    · cases h
    · rename_i t ht
      cases h
      exact .inl ⟨t,hnone,ht,rfl⟩
  · rename_i n hsome
    cases h
    exact .inr ⟨n,hsome,rfl⟩

/-- Scheduling always succeeds. -/
theorem objSchedExpire_isOk (e : Expiry) (now obj msecs : Nat) (type : ObjType) :
    ∃ e', objSchedExpire e now obj msecs type = .ok e' := by
  simp only [objSchedExpire]
  split
  · rename_i hnone
    obtain ⟨t,ht⟩ : ∃ t, rbLinkNode (e.root type) ⟨e.nextNode,(now + msecs) % 2^32,[],[],[]⟩ = some t :=
      rbLinkNode_of_rbSearch hnone
    have hi : rbInsert (e.root type) ⟨e.nextNode,(now + msecs) % 2^32,[],[],[]⟩ =
        some (Rebalance.insertColor t) := by rw [rbInsert,ht]; rfl
    simp only [signalIf,hi]
    exact ⟨_,rfl⟩
  · exact ⟨_,rfl⟩

theorem objSchedExpire_fault {e : Expiry} {now obj msecs : Nat} {type : ObjType} {f : Fault} :
    objSchedExpire e now obj msecs type ≠ .error f := by
  intro h
  obtain ⟨e',he⟩ := objSchedExpire_isOk e now obj msecs type
  rw [he] at h
  cases h

private theorem wf_newNode {e : Expiry} {type : ObjType} {t : Tree ExpiryNode} {d : Nat} (hw : e.Wf X)
    (ht : rbInsert (e.root type) ⟨e.nextNode,d,[],[],[]⟩ = some t) :
    (e.allocNode.setRoot type t).Wf X ∧ e.nextNode ∈ t.inorder.map ExpiryNode.addr ∧
    ∀ u, (e.allocNode.setRoot type t).indexed u = e.indexed u := by
  obtain ⟨l,r,hl,hr⟩ := rbInsert_inorder ht
  have hidx : ∀ u, (e.allocNode.setRoot type t).indexed u = e.indexed u := by
    intro u
    by_cases hu : u = type
    · subst hu
      have hempty : (⟨e.nextNode,d,[],[],[]⟩ : ExpiryNode).objs u = [] := by cases u <;> rfl
      simp [indexed,setRoot,hl,hr,hempty]
    · simp [indexed,setRoot,hu,allocNode]
  have hnew : e.nextNode ∉ (e.root type).inorder.map ExpiryNode.addr := by
    intro hm
    obtain ⟨n,hn,he⟩ := List.mem_map.mp hm
    exact absurd he (Nat.ne_of_lt (hw.bound type n hn))
  refine ⟨⟨?_,?_,fun u => by rw [hidx u]; exact hw.nodup u,
    fun u o h => by rw [hidx u]; exact hw.linked u o h⟩,by simp [hr],hidx⟩
  · intro u
    by_cases hu : u = type
    · subst hu
      have hp : ((l ++ ⟨e.nextNode,d,[],[],[]⟩ :: r).map ExpiryNode.addr).Perm
          (e.nextNode :: (l ++ r).map ExpiryNode.addr) := by simp
      simp only [root_setRoot,hr]
      rw [hp.nodup_iff,List.nodup_cons,← hl]
      exact ⟨hnew,hw.addrs u⟩
    · simp only [root_setRoot_ne _ hu]
      exact hw.addrs u
  · intro u n hn
    by_cases hu : u = type
    · subst hu
      simp only [root_setRoot,hr,List.mem_append,List.mem_cons] at hn
      rcases hn with hn | rfl | hn
      · exact Nat.lt_succ_of_lt (hw.bound u n (by rw [hl]; simp [hn]))
      · exact Nat.lt_succ_self _
      · exact Nat.lt_succ_of_lt (hw.bound u n (by rw [hl]; simp [hn]))
    · simp only [root_setRoot_ne _ hu] at hn
      exact Nat.lt_succ_of_lt (hw.bound u n hn)

/-- Scheduling adds exactly the given object, whichever path it takes. -/
theorem objSchedExpire_spec {e e' : Expiry} {now obj msecs : Nat} {type : ObjType} (hw : e.Wf X)
    (ho : obj ∉ e.indexed type) (h : objSchedExpire e now obj msecs type = .ok e') :
    e'.Wf X ∧ ∀ t o, o ∈ e'.indexed t ↔ o ∈ e.indexed t ∨ t = type ∧ o = obj := by
  obtain ⟨b,⟨t,_,ht,rfl⟩ | ⟨n,hn,rfl⟩⟩ := objSchedExpire_cases h
  · obtain ⟨hw',hin,hidx⟩ := wf_newNode (hw.signalIf b) ht
    have ho' : obj ∉ ((e.signalIf b).allocNode.setRoot type t).indexed type := by
      rw [hidx type]
      exact ho
    obtain ⟨hw'',hmem⟩ := wf_listInsertHead e.nextNode hw' (by rw [root_setRoot]; exact hin) ho'
    refine ⟨⟨hw''.addrs,hw''.bound,hw''.nodup,?_⟩,fun u o => (hmem u o).trans (by rw [hidx u]; rfl)⟩
    intro u o hs
    simp only [expiryNode_setNode] at hs
    split at hs
    · rename_i hu
      exact .inl ((hmem u o).mpr (.inr hu))
    · exact hw''.linked u o hs
  · obtain ⟨hm,_⟩ := rbSearch_mem hn
    exact wf_listInsertHead n.addr (hw.signalIf b) (List.mem_map_of_mem hm) ho

theorem objSchedExpire_root_ne {e e' : Expiry} {now obj msecs : Nat} {type t : ObjType} (ht : t ≠ type)
    (h : objSchedExpire e now obj msecs type = .ok e') :
    e'.root t = e.root t ∧ e'.expiryNode t = e.expiryNode t := by
  obtain ⟨b,⟨u,_,_,rfl⟩ | ⟨n,_,rfl⟩⟩ := objSchedExpire_cases h
  · refine ⟨?_,?_⟩
    · simp [listInsertHead,setRoot,setNode,allocNode,signalIf,ht]
    · funext o
      simp [listInsertHead,setRoot,setNode,allocNode,signalIf,ht]
  · exact ⟨by simp [listInsertHead,setRoot,signalIf,ht],rfl⟩

theorem possiblyNodeFree_cases {e e' : Expiry} {type : ObjType} {addr : Ptr} {f : Bool}
    (h : possiblyNodeFree e type addr = .ok (f,e')) :
    ∃ n ∈ (e.root type).inorder, n.addr = addr ∧
      (f = true ∧ n.isEmpty = true ∧
        e' = e.setRoot type (Rebalance.erase (fun m => m.addr = addr) (e.root type)) ∨
      f = false ∧ n.isEmpty = false ∧ e' = e) := by
  simp only [possiblyNodeFree] at h
  split at h
  · cases h
  · rename_i n hn
    have hm := List.mem_of_find?_eq_some hn
    have ha : n.addr = addr := by simpa using List.find?_some hn
    split at h
    · rename_i hempty
      cases h
      exact ⟨n,hm,ha,.inl ⟨rfl,hempty,rfl⟩⟩
    · rename_i hne
      cases h
      exact ⟨n,hm,ha,.inr ⟨rfl,by simpa using hne,rfl⟩⟩

/-- Freeing an empty node changes neither what is indexed nor any back-pointer. -/
theorem possiblyNodeFree_spec {e e' : Expiry} {type : ObjType} {addr : Ptr} {f : Bool} (hw : e.Wf X)
    (h : possiblyNodeFree e type addr = .ok (f,e')) :
    e'.Wf X ∧ (∀ t, e'.indexed t = e.indexed t) ∧ e'.expiryNode = e.expiryNode := by
  obtain ⟨n,hm,ha,⟨_,hempty,rfl⟩ | ⟨_,_,rfl⟩⟩ := possiblyNodeFree_cases h
  · have hidx : ∀ t, (e.setRoot type (Rebalance.erase (fun m => m.addr = addr) (e.root type))).indexed t =
        e.indexed t := by
      intro t
      by_cases ht : t = type
      · subst ht
        simp only [indexed,root_setRoot,Rebalance.inorder_erase]
        apply flatMap_filter_empty
        intro m hml hma
        have : m = n := unique_addr (hw.addrs t) hml hm (by simpa [ha] using hma)
        rw [this]
        exact ExpiryNode.objs_of_isEmpty hempty t
      · simp only [indexed,root_setRoot_ne e ht]
    refine ⟨⟨?_,?_,fun t => by rw [hidx t]; exact hw.nodup t,
      fun t o h => by rw [hidx t]; exact hw.linked t o h⟩,hidx,rfl⟩
    · intro t
      by_cases ht : t = type
      · subst ht
        simp only [root_setRoot,Rebalance.inorder_erase]
        exact (hw.addrs t).sublist (List.filter_sublist.map _)
      · simp only [root_setRoot_ne e ht]
        exact hw.addrs t
    · intro t m hml
      by_cases ht : t = type
      · subst ht
        simp only [root_setRoot,Rebalance.inorder_erase] at hml
        exact hw.bound t m (List.mem_of_mem_filter hml)
      · simp only [root_setRoot_ne e ht] at hml
        exact hw.bound t m hml
  · exact ⟨hw,fun _ => rfl,rfl⟩

theorem possiblyNodeFree_root_ne {e e' : Expiry} {type t : ObjType} {addr : Ptr} {f : Bool}
    (ht : t ≠ type) (h : possiblyNodeFree e type addr = .ok (f,e')) : e'.root t = e.root t := by
  obtain ⟨n,_,_,⟨_,_,rfl⟩ | ⟨_,_,rfl⟩⟩ := possiblyNodeFree_cases h
  · exact root_setRoot_ne e ht _
  · rfl

/-- The ways a reschedule can end: not scheduled here, or taken out, its old node freed when that
emptied it, and scheduled again. -/
theorem resched_cases {e e' : Expiry} {now obj expiry : Nat} {type : ObjType}
    (h : resched e now obj expiry type = .ok e') :
    (e.expiryNode type obj = none ∧ e' = e) ∨
    ∃ addr f e₁, e.expiryNode type obj = some addr ∧
      possiblyNodeFree (listRemove e type obj) type addr = .ok (f,e₁) ∧
      objSchedExpire (if f then e₁.setNode type obj none else e₁) now obj expiry type = .ok e' := by
  simp only [resched] at h
  split at h
  · rename_i hn
    cases h
    exact .inl ⟨hn,rfl⟩
  · rename_i addr ha
    obtain ⟨⟨f,e₁⟩,hf,hs⟩ := bind_ok h
    exact .inr ⟨addr,f,e₁,ha,hf,hs⟩

/-- Only a back-pointer to a freed node makes a reschedule fail. -/
theorem resched_fault {e : Expiry} {now obj expiry : Nat} {type : ObjType} {f : Fault}
    (h : resched e now obj expiry type = .error f) : f = .freedNode := by
  simp only [resched] at h
  split at h
  · cases h
  · rcases bind_error h with hp | ⟨_,_,hs⟩
    · simp only [possiblyNodeFree] at hp
      split at hp
      · cases hp
        rfl
      · split at hp <;> cases hp
    · exact absurd hs objSchedExpire_fault

/-- Rescheduling leaves the set of indexed objects as it was. -/
theorem resched_spec {e e' : Expiry} {now obj expiry : Nat} {type : ObjType} (hw : e.Wf NoneExempt)
    (h : resched e now obj expiry type = .ok e') :
    e'.Wf NoneExempt ∧ ∀ t o, o ∈ e'.indexed t ↔ o ∈ e.indexed t := by
  rcases resched_cases h with ⟨_,rfl⟩ | ⟨addr,f,e₁,ha,hf,hs⟩
  · exact ⟨hw,fun _ _ => Iff.rfl⟩
  have hin : obj ∈ e.indexed type := by
    have := hw.linked type obj (by rw [ha]; rfl)
    simpa using this
  obtain ⟨hw₁,hmem₁⟩ := listRemove_spec hw type obj
  obtain ⟨hw₂,hidx₂,_⟩ := possiblyNodeFree_spec hw₁ hf
  have hout : ∀ e₂ : Expiry, e₂.root = e₁.root → e₂.nextNode = e₁.nextNode →
      (∀ t o, (e₂.expiryNode t o).isSome → (e₁.expiryNode t o).isSome) →
      e₂.Wf (fun t o => t = type ∧ o = obj) ∧
      ∀ t o, o ∈ e₂.indexed t ↔ o ∈ e.indexed t ∧ ¬ (t = type ∧ o = obj) := by
    intro e₂ hr hnx hb
    have hidx : ∀ t, e₂.indexed t = e₁.indexed t := fun t => by simp only [indexed,hr]
    refine ⟨⟨fun t => by rw [hr]; exact hw₂.addrs t,fun t => by rw [hr,hnx]; exact hw₂.bound t,
      fun t => by rw [hidx]; exact hw₂.nodup t,?_⟩,fun t o => by rw [hidx,hidx₂]; exact hmem₁ t o⟩
    intro t o ho
    rw [hidx]
    rcases hw₂.linked t o (hb t o ho) with hl | hx
    · exact .inl hl
    · exact .inr (by simpa using hx)
  have hmid : ∃ e₂, e₂ = (if f then e₁.setNode type obj none else e₁) ∧
      e₂.Wf (fun t o => t = type ∧ o = obj) ∧
      ∀ t o, o ∈ e₂.indexed t ↔ o ∈ e.indexed t ∧ ¬ (t = type ∧ o = obj) := by
    refine ⟨_,rfl,?_⟩
    cases f with
    | false => exact hout _ rfl rfl fun _ _ h => h
    | true =>
      refine hout _ rfl rfl ?_
      intro t o ho
      simp only [if_true,expiryNode_setNode] at ho
      split at ho
      · cases ho
      · exact ho
  obtain ⟨e₂,he₂,hw₃,hmem₃⟩ := hmid
  rw [← he₂] at hs
  obtain ⟨hw',hmem'⟩ := objSchedExpire_spec hw₃ (fun hi => ((hmem₃ type obj).mp hi).2 ⟨rfl,rfl⟩) hs
  have hmem : ∀ t o, o ∈ e'.indexed t ↔ o ∈ e.indexed t := by
    intro t o
    rw [hmem',hmem₃]
    constructor
    · rintro (⟨hi,_⟩ | ⟨rfl,rfl⟩)
      · exact hi
      · exact hin
    · intro hi
      by_cases hto : t = type ∧ o = obj
      · exact .inr hto
      · exact .inl ⟨hi,hto⟩
  refine ⟨⟨hw'.addrs,hw'.bound,hw'.nodup,?_⟩,hmem⟩
  intro t o ho
  rcases hw'.linked t o ho with hl | ⟨rfl,rfl⟩
  · exact .inl hl
  · exact .inl ((hmem _ _).mpr hin)

end Specs

private theorem leftmost_map {f : ExpiryNode → ExpiryNode} (t : Tree ExpiryNode) :
    (t.map f).leftmost = t.leftmost.map f := by
  induction t with
  | nil => rfl
  | node c l a r il _ =>
    simp only [Tree.map,Tree.leftmost,il]
    cases l.leftmost <;> rfl

private theorem minTimeoutOver_congr {d : Nat} : ∀ {ts us : List (Tree ExpiryNode)} (m : Nat),
    ts.map (fun t => t.leftmost.map ExpiryNode.msecs) = us.map (fun t => t.leftmost.map ExpiryNode.msecs) →
    minTimeoutOver d ts m = minTimeoutOver d us m := by
  intro ts
  induction ts with
  | nil =>
    intro us m h
    rw [List.map_eq_nil_iff.mp h.symm]
  | cons t ts ih =>
    intro us m h
    cases us with
    | nil => cases h
    | cons u us =>
      rw [List.map_cons,List.map_cons,List.cons.injEq] at h
      simp only [minTimeoutOver]
      cases ht : t.leftmost with
      | none =>
        rw [ht] at h
        rw [Option.map_eq_none_iff.mp h.1.symm]
        exact ih m h.2
      | some a =>
        rw [ht] at h
        obtain ⟨b,hb,hab⟩ := Option.map_eq_some_iff.mp h.1.symm
        rw [hb]
        simp only [hab]
        split
        · exact ih _ h.2
        · rfl

private theorem schedGetMinTimeout_listRemove (e : Expiry) (now : Nat) (type : ObjType) (o : Ptr) :
    schedGetMinTimeout (listRemove e type o) now = schedGetMinTimeout e now := by
  apply minTimeoutOver_congr
  have h : ∀ t, ((listRemove e type o).root t).leftmost.map ExpiryNode.msecs =
      ((e.root t).leftmost).map ExpiryNode.msecs := by
    intro t
    by_cases ht : t = type
    · subst ht
      simp only [listRemove,root_setRoot,leftmost_map,Option.map_map]
      congr 1
      funext n
      simp
    · rw [listRemove,root_setRoot_ne e ht]
  simp only [List.map_cons,List.map_nil,h]

/-- Scheduling in one tree does not see an unlinking in another. -/
theorem objSchedExpire_listRemove [Rebalance ExpiryNode] {e e' : Expiry} {now obj msecs : Nat} {type type' : ObjType}
    {o : Ptr} (hne : type' ≠ type) (h : objSchedExpire e now obj msecs type = .ok e') :
    objSchedExpire (listRemove e type' o) now obj msecs type = .ok (listRemove e' type' o) := by
  have hroot : (listRemove e type' o).root type = e.root type := root_setRoot_ne e hne.symm _
  simp only [objSchedExpire,schedGetMinTimeout_listRemove,hroot] at h ⊢
  split at h
  · rename_i hnone
    simp only [signalIf] at h ⊢
    rw [hroot]
    split at h
    · cases h
    · rename_i t ht
      have ht' : rbInsert (e.root type)
          ⟨(listRemove e type' o).nextNode,(now + msecs) % 2^32,[],[],[]⟩ = some t := ht
      rw [ht']
      cases h
      simp [listInsertHead,listRemove,setRoot,setNode,allocNode,hne,hne.symm,Function.update_comm hne]
      rfl
  · rename_i n hsome
    simp only [signalIf] at h ⊢
    cases h
    simp [listInsertHead,listRemove,setRoot,hne,hne.symm,Function.update_comm hne]

/-- Unlinking an object and clearing its back-pointer takes exactly it out of the index. -/
theorem unlink_spec {e : Expiry} (hw : e.Wf NoneExempt) (type : ObjType) (obj : Ptr) :
    ((listRemove e type obj).setNode type obj none).Wf NoneExempt ∧
    ∀ t o, o ∈ ((listRemove e type obj).setNode type obj none).indexed t ↔
      o ∈ e.indexed t ∧ ¬ (t = type ∧ o = obj) := by
  obtain ⟨hw',hmem⟩ := listRemove_spec hw type obj
  refine ⟨⟨hw'.addrs,hw'.bound,hw'.nodup,?_⟩,hmem⟩
  intro t o ho
  rw [expiryNode_setNode] at ho
  split at ho
  · cases ho
  · rename_i hne
    rcases hw'.linked t o ho with hl | hx | hx
    · exact .inl hl
    · exact hx.elim
    · exact absurd hx hne

/-- The object sits in a node of its tree whose deadline has come. -/
def dueIn (e : Expiry) (type : ObjType) (tDiffMsecs : Nat) (o : Ptr) : Prop :=
  ∃ n ∈ (e.root type).inorder, n.msecs ≤ tDiffMsecs ∧ o ∈ n.objs type

instance (e : Expiry) (type : ObjType) (t : Nat) (o : Ptr) : Decidable (dueIn e type t o) :=
  inferInstanceAs (Decidable (∃ n ∈ _, _ ∧ _))

theorem dueIn.mem {e : Expiry} {type : ObjType} {t : Nat} {o : Ptr} (h : dueIn e type t o) :
    o ∈ e.indexed type := by
  obtain ⟨n,hn,_,ho⟩ := h
  exact mem_indexed.mpr ⟨n,hn,ho⟩

theorem dueIn_of_listRemove {e e' : Expiry} {type : ObjType} {t : Nat} {o o' : Ptr}
    (hr : e'.root type = (listRemove e type o).root type) (h : dueIn e' type t o') : dueIn e type t o' := by
  obtain ⟨n,hn,ht,ho⟩ := h
  rw [hr] at hn
  simp only [listRemove,root_setRoot,Tree.inorder_map] at hn
  obtain ⟨n',hn',rfl⟩ := List.mem_map.mp hn
  exact ⟨n',hn',by simpa using ht,List.mem_of_mem_erase (by simpa using ho)⟩

section Loop
variable {σ : Type} {host : Host σ} {type : ObjType}

theorem expireObj_root (hframe : ∀ s o s', host.release type s o = .ok s' →
      (host.index s').root type = (host.index s).root type)
    {s s' : σ} {o : Ptr} (h : expireObj host type s o = .ok s') :
    (host.index s').root type = (listRemove (host.index s) type o).root type := by
  obtain ⟨s₁,h₁,h₂⟩ := bind_ok h
  cases h₂
  rw [host.index_setIndex,root_setNode,hframe _ _ _ h₁,host.index_setIndex]

/-- The object sits in the due node at `a`. -/
def dueAt (e : Expiry) (type : ObjType) (tDiffMsecs : Nat) (a o : Ptr) : Prop :=
  ∃ n ∈ (e.root type).inorder, n.addr = a ∧ n.msecs ≤ tDiffMsecs ∧ o ∈ n.objs type

theorem dueAt.dueIn {e : Expiry} {t : Nat} {a o : Ptr} (h : dueAt e type t a o) : dueIn e type t o := by
  obtain ⟨n,hn,_,ht,ho⟩ := h
  exact ⟨n,hn,ht,ho⟩

private theorem dueAt_listRemove {e e' : Expiry} {t : Nat} {a o o' : Ptr}
    (hr : e'.root type = (listRemove e type o).root type) (hne : o' ≠ o) (h : dueAt e type t a o') :
    dueAt e' type t a o' := by
  obtain ⟨n,hn,ha,ht,ho⟩ := h
  refine ⟨n.setObjs type ((n.objs type).erase o),?_,by simpa using ha,by simpa using ht,?_⟩
  · rw [hr]
    simp only [listRemove,root_setRoot,Tree.inorder_map]
    exact List.mem_map_of_mem hn
  · simpa using (List.mem_erase_of_ne hne).mpr ho

variable [Rebalance ExpiryNode]

theorem dueIn_of_free {e e' : Expiry} {a o : Ptr} {f : Bool} {t : Nat} (h : possiblyNodeFree e type a = .ok (f,e'))
    (hd : dueIn e' type t o) : dueIn e type t o := by
  obtain ⟨n,hn,ht,ho⟩ := hd
  obtain ⟨_,_,_,⟨_,_,rfl⟩ | ⟨_,_,rfl⟩⟩ := possiblyNodeFree_cases h
  · rw [root_setRoot,Rebalance.inorder_erase] at hn
    exact ⟨n,List.mem_of_mem_filter hn,ht,ho⟩
  · exact ⟨n,hn,ht,ho⟩

/-- Loop rule of objs_expire, with `J a` for the time the objects of the node at `a` are handed over. -/
theorem objsExpire_walk (I : σ → Prop) (J : Ptr → σ → Prop) {E : Fault → Prop} {now : Nat}
    (hframe : ∀ s o s', host.release type s o = .ok s' →
      (host.index s').root type = (host.index s).root type)
    (hnodup : ∀ s, I s → ((host.index s).indexed type).Nodup)
    (hopen : ∀ s a, I s → J a s)
    (hobj : ∀ s a o, J a s → dueAt (host.index s) type (now % 2^32) a o →
      Ensures (expireObj host type s o) (J a) E)
    (hfree : ∀ s a f e, J a s → possiblyNodeFree (host.index s) type a = .ok (f,e) →
      I (host.setIndex s e))
    (hE : E .freedNode) {s : σ} (hs : I s) : Ensures (objsExpire host now type s) I E := by
  have hloop : ∀ (a : Ptr) (os : List Ptr) (s : σ), J a s ∧ os.Nodup ∧
      (∀ o ∈ os, dueAt (host.index s) type (now % 2^32) a o) →
      Ensures (os.foldlM (expireObj host type) s) (J a) E := by
    intro a os s h
    refine (foldlM_ensures (fun os s => J a s ∧ os.Nodup ∧
      ∀ o ∈ os, dueAt (host.index s) type (now % 2^32) a o) ?_ os s h).mono (fun _ h => h.1) (fun _ h => h)
    rintro o os s ⟨hi,hn,hd⟩
    rw [List.nodup_cons] at hn
    have ho := hobj s a o hi (hd o List.mem_cons_self)
    cases hx : expireObj host type s o with
    | error f => rw [hx] at ho; exact ho
    | ok s' =>
      rw [hx] at ho
      refine ⟨ho,hn.2,fun o' ho' => ?_⟩
      have hne : o' ≠ o := fun h => hn.1 (h ▸ ho')
      exact dueAt_listRemove (expireObj_root hframe hx) hne (hd o' (List.mem_cons_of_mem _ ho'))
  have hwalk : ∀ (fuel : Nat) (c : Option Ptr) (s : σ), I s →
      Ensures (objsExpireFrom host type (now % 2^32) fuel c s) I E := by
    intro fuel
    induction fuel with
    | zero => intro c s hi; cases c <;> exact hi
    | succ fuel ih =>
      intro c s hi
      cases c with
      | none => exact hi
      | some a =>
        simp only [objsExpireFrom]
        split
        · exact hE
        · rename_i t ht
          split
          · exact hE
          · rename_i data hdata
            obtain ⟨⟨top,htop,haddr⟩,hsub⟩ := Tree.subtree?_spec ht
            have hin := hsub data (Tree.mem_of_top hdata)
            rw [hdata] at htop
            cases htop
            split
            · rename_i hdue
              have hnd : (data.objs type).Nodup := (List.nodup_flatMap.mp (hnodup s hi)).1 data hin
              refine (hloop a _ s ⟨hopen s a hi,hnd,fun o ho => ⟨data,hin,by simpa using haddr,hdue,ho⟩⟩).bind ?_
              intro s₁ hi₁
              cases hp : possiblyNodeFree (host.index s₁) type a with
              | error f =>
                simp only [possiblyNodeFree] at hp
                split at hp
                · cases hp
                  exact hE
                · split at hp <;> cases hp
              | ok fe =>
                obtain ⟨f,e⟩ := fe
                exact ih _ _ (hfree s₁ a f e hi₁ hp)
            · exact ih _ _ hi
  exact hwalk _ _ _ hs

/-- The same for what does not depend on the node: the walk hands over only objects of due nodes that are
still linked; what one hand-over and one node removal preserve, the pass preserves. -/
theorem objsExpire_ensures (I : σ → Prop) {E : Fault → Prop} {now : Nat}
    (hframe : ∀ s o s', host.release type s o = .ok s' →
      (host.index s').root type = (host.index s).root type)
    (hnodup : ∀ s, I s → ((host.index s).indexed type).Nodup)
    (hobj : ∀ s o, I s → dueIn (host.index s) type (now % 2^32) o →
      Ensures (expireObj host type s o) I E)
    (hfree : ∀ s a f e, I s → possiblyNodeFree (host.index s) type a = .ok (f,e) →
      I (host.setIndex s e))
    (hE : E .freedNode) {s : σ} (hs : I s) : Ensures (objsExpire host now type s) I E :=
  objsExpire_walk I (fun _ => I) hframe hnodup (fun _ _ hi => hi) (fun s _ o hi hd => hobj s o hi hd.dueIn) hfree hE hs

end Loop
end Memqueue
