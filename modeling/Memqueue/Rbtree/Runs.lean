import Memqueue.Expiry.Deadlines
import Memqueue.Rbtree.Index

/-! Every heap that calls of rb_insert and rb_erase lead to, whatever the rest of the program writes
elsewhere, is a balanced search tree of the nodes inserted and not erased. -/
namespace Memqueue.RbHeap
open Memqueue.Tree

/-- A loop that comes to an end: every sufficient number of turns gives the same result. -/
def Returns {β : Type} (f : Nat → Option β) (b : β) : Prop := ∃ n, ∀ fuel, n ≤ fuel → f fuel = some b

/-- The heaps reached from RB_ROOT, with the msecs of all addresses and the nodes linked. -/
inductive TreeRun : RbHeap Ptr → (Ptr → Nat) → Finset Ptr → Prop
  | root {h : RbHeap Ptr} {key : Ptr → Nat} : h.root = none → TreeRun h key ∅
  | insert {h h' : RbHeap Ptr} {key : Ptr → Nat} {s : Finset Ptr} {a : Ptr} : TreeRun h key s → a ∉ s →
      Returns (fun fuel => rbInsert key fuel h a) (some h') → TreeRun h' key (insert a s)
  | erase {h h' : RbHeap Ptr} {key : Ptr → Nat} {s : Finset Ptr} {a : Ptr} : TreeRun h key s → a ∈ s →
      Returns (fun fuel => rbErase fuel h a) h' → TreeRun h' key (s.erase a)
  | elsewhere {h h' : RbHeap Ptr} {key key' : Ptr → Nat} {s : Finset Ptr} : TreeRun h key s → h'.root = h.root →
      (∀ q ∈ s, Same h h' q ∧ key' q = key q) → TreeRun h' key' s

/-- The heap holds a balanced search tree of exactly these nodes. -/
def Indexes (h : RbHeap Ptr) (key : Ptr → Nat) (s : Finset Ptr) (t : Tree ExpiryNode) : Prop :=
  h.Represents key t ∧ t.Balanced ∧ (t.inorder.map ExpiryNode.msecs).Pairwise (· < ·) ∧
    ∀ a, a ∈ s ↔ a ∈ t.inorder.map ExpiryNode.addr

section Steps
variable {h h' : RbHeap Ptr} {key key' : Ptr → Nat} {s : Finset Ptr} {t : Tree ExpiryNode} {a fuel : Nat}

theorem Indexes.height_le (hi : h.Indexes key s t) : t.height ≤ 2 * Nat.log 2 (s.card + 1) := by
  obtain ⟨hr,hb,-,hs⟩ := hi
  have hn := hr.1.2.2
  rw [inorder_map] at hn
  have hcard : s.card = t.inorder.length := by
    rw [← List.length_map ExpiryNode.addr,← List.toFinset_card_of_nodup hn]
    congr 1
    ext b
    rw [hs,List.mem_toFinset]
  rw [hcard]
  exact hb.height_le

theorem Indexes.root (hroot : h.root = none) : h.Indexes key ∅ .nil :=
  ⟨⟨⟨hroot,trivial,List.nodup_nil⟩,by simp⟩,⟨rfl,0,.nil⟩,List.Pairwise.nil,by simp⟩

theorem Indexes.elsewhere (hi : h.Indexes key s t) (hroot : h'.root = h.root)
    (hsame : ∀ q ∈ s, Same h h' q ∧ key' q = key q) : h'.Indexes key' s t := by
  obtain ⟨hr,hb,ho,hs⟩ := hi
  refine ⟨⟨hr.1.frame hroot fun q hq => ?_,fun n hn => ?_⟩,hb,ho,hs⟩
  · rw [inorder_map,← hs] at hq
    exact (hsame q hq).1
  · rw [(hsame n.addr ((hs _).mpr (List.mem_map_of_mem hn))).2]
    exact hr.2 n hn

/-- With enough turns for the height, rb_insert either asserts on a deadline that is there or links the node. -/
theorem Indexes.insert (hi : h.Indexes key s t) (ha : a ∉ s) (hfuel : t.height + 2 ≤ fuel) :
    (rbInsert key fuel h a = some none ∧ ∃ b ∈ s, key b = key a) ∨
      (∀ b ∈ s, key b ≠ key a) ∧ ∃ h' t', rbInsert key fuel h a = some (some h') ∧ h'.Indexes key (insert a s) t' := by
  obtain ⟨hr,hb,ho,hs⟩ := hi
  have hfresh : ∀ n ∈ t.inorder, n.addr ≠ a := fun n hn he => ha ((hs a).mpr (he ▸ List.mem_map_of_mem hn))
  have hspec := @rbInsert_spec h key t fuel ⟨a,key a,[],[],[]⟩ hr hb rfl hfresh hfuel
  cases hins : @Memqueue.rbInsert (Rebalance.rbtree ExpiryNode) t ⟨a,key a,[],[],[]⟩ with
  | none =>
    rw [hins] at hspec
    refine .inl ⟨hspec,?_⟩
    cases hfind : Memqueue.rbSearch t (key a) with
    | none =>
      obtain ⟨t',ht'⟩ := @rbLinkNode_of_rbSearch t ⟨a,key a,[],[],[]⟩ hfind
      unfold Memqueue.rbInsert at hins
      rw [ht'] at hins
      cases hins
    | some n =>
      obtain ⟨hn,hkey⟩ := rbSearch_mem hfind
      exact ⟨n.addr,(hs _).mpr (List.mem_map_of_mem hn),(hr.2 n hn).trans hkey⟩
  | some t' =>
    rw [hins] at hspec
    obtain ⟨hb',h',hrun,hr'⟩ := hspec
    have ho' := @rbInsert_sorted (Rebalance.rbtree ExpiryNode) _ _ _ hins ho
    obtain ⟨l,r,hl,hlr⟩ := @rbInsert_inorder (Rebalance.rbtree ExpiryNode) _ _ _ hins
    refine .inr ⟨fun b hb => ?_,h',t',hrun,hr',hb',ho',fun b => ?_⟩
    · obtain ⟨n,hn,rfl⟩ := List.mem_map.mp ((hs b).mp hb)
      rw [hr.2 n hn]
      rw [hlr,List.map_append,List.map_cons,List.pairwise_append,List.pairwise_cons] at ho'
      rw [hl,List.mem_append] at hn
      rcases hn with hn | hn
      · exact (ho'.2.2 _ (List.mem_map_of_mem hn) _ List.mem_cons_self).ne
      · exact (ho'.2.1.1 _ (List.mem_map_of_mem hn)).ne'
    · rw [Finset.mem_insert,hs,hl,hlr]
      simp only [List.map_append,List.map_cons,List.mem_append,List.mem_cons]
      tauto

theorem Indexes.erase (hi : h.Indexes key s t) (ha : a ∈ s) (hfuel : t.height < fuel) :
    ∃ h' t', rbErase fuel h a = some h' ∧ h'.Indexes key (s.erase a) t' := by
  obtain ⟨hr,hb,ho,hs⟩ := hi
  obtain ⟨n,hn,hna⟩ := List.mem_map.mp ((hs a).mp ha)
  obtain ⟨hb',h',hrun,hr'⟩ := rbErase_index hr hb ⟨n,hn,hna⟩ hfuel
  refine ⟨h',_,hrun,hr',hb',?_,?_⟩
  · rw [@Rebalance.inorder_erase _ (Rebalance.rbtree ExpiryNode)]
    exact ho.sublist (List.filter_sublist.map _)
  · intro b
    rw [@Rebalance.inorder_erase _ (Rebalance.rbtree ExpiryNode),Finset.mem_erase,hs,List.mem_map,List.mem_map]
    constructor
    · rintro ⟨hne,m,hm,rfl⟩
      exact ⟨m,List.mem_filter.mpr ⟨hm,by simpa using hne⟩,rfl⟩
    · rintro ⟨m,hm,rfl⟩
      obtain ⟨hm,hne⟩ := List.mem_filter.mp hm
      exact ⟨by simpa using hne,m,hm,rfl⟩

/-- In a search tree the search finds exactly the nodes with the deadline asked for. -/
private theorem rbSearch_complete (ho : (t.inorder.map ExpiryNode.msecs).Pairwise (· < ·)) {n : ExpiryNode}
    (hn : n ∈ t.inorder) : Memqueue.rbSearch t n.msecs = some n := by
  induction t with
  | nil => cases hn
  | node c l m r il ir =>
    simp only [inorder_node,List.map_append,List.map_cons,List.pairwise_append,List.pairwise_cons,List.mem_cons] at ho
    obtain ⟨hl,⟨hm,hr⟩,hcross⟩ := ho
    rw [inorder_node,List.mem_append,List.mem_cons] at hn
    rw [Memqueue.rbSearch]
    rcases hn with hn | rfl | hn
    · rw [if_pos (hcross _ (List.mem_map_of_mem hn) _ (.inl rfl))]
      exact il hl hn
    · rw [if_neg (lt_irrefl _),if_neg (lt_irrefl _)]
    · have hlt := hm _ (List.mem_map_of_mem hn)
      rw [if_neg hlt.asymm,if_pos hlt]
      exact ir hr hn

theorem Indexes.search (hi : h.Indexes key s t) (msecs : Nat) (hfuel : t.height < fuel) :
    ∃ r, rbSearch key fuel h msecs = some r ∧ ∀ a, r = some a ↔ a ∈ s ∧ key a = msecs := by
  obtain ⟨hr,hb,ho,hs⟩ := hi
  refine ⟨_,rbSearch_spec hr msecs hfuel,fun a => ⟨fun h => ?_,fun h => ?_⟩⟩
  · obtain ⟨n,hn,rfl⟩ := Option.map_eq_some_iff.mp h
    obtain ⟨hmem,hkey⟩ := rbSearch_mem hn
    exact ⟨(hs _).mpr (List.mem_map_of_mem hmem),(hr.2 n hmem).trans hkey⟩
  · obtain ⟨n,hn,rfl⟩ := List.mem_map.mp ((hs a).mp h.1)
    rw [← h.2,hr.2 n hn,rbSearch_complete ho hn]
    rfl

private theorem leftmost_eq_head (t : Tree ExpiryNode) : t.leftmost = t.inorder.head? := by
  induction t with
  | nil => rfl
  | node c l n r il _ =>
    rw [leftmost,il,inorder_node,List.head?_append]
    rfl

theorem Indexes.first (hi : h.Indexes key s t) (hfuel : t.height ≤ fuel) :
    ∃ r, firstNode fuel h = some r ∧ (r = none → s = ∅) ∧ ∀ a, r = some a → a ∈ s ∧ ∀ b ∈ s, key a ≤ key b := by
  obtain ⟨hr,hb,ho,hs⟩ := hi
  refine ⟨_,firstNode_spec hr hfuel,fun h => ?_,fun a h => ?_⟩
  · rw [Option.map_eq_none_iff,leftmost_eq_head,List.head?_eq_none_iff] at h
    refine Finset.eq_empty_of_forall_notMem fun a ha => ?_
    rw [hs,h] at ha
    cases ha
  · obtain ⟨n,hn,rfl⟩ := Option.map_eq_some_iff.mp h
    rw [leftmost_eq_head] at hn
    obtain ⟨ns,hns⟩ := List.head?_eq_some_iff.mp hn
    have hmem : n ∈ t.inorder := by rw [hns]; exact List.mem_cons_self
    refine ⟨(hs _).mpr (List.mem_map_of_mem hmem),fun b hb => ?_⟩
    obtain ⟨m,hm,rfl⟩ := List.mem_map.mp ((hs b).mp hb)
    rw [hr.2 n hmem,hr.2 m hm]
    rw [hns,List.mem_cons] at hm
    rw [hns,List.map_cons,List.pairwise_cons] at ho
    rcases hm with rfl | hm
    · exact le_rfl
    · exact (ho.1 _ (List.mem_map_of_mem hm)).le

end Steps

section Runs
variable {h h' : RbHeap Ptr} {key : Ptr → Nat} {s : Finset Ptr}

/-- Whatever the order of calls, the linked nodes form one balanced search tree, never higher than
twice the logarithm of their number. -/
theorem treeRun_balanced (hrun : TreeRun h key s) :
    ∃ t, h.Indexes key s t ∧ t.height ≤ 2 * Nat.log 2 (s.card + 1) := by
  have hsome : ∃ t, h.Indexes key s t := by
    induction hrun with
    | root hroot => exact ⟨_,Indexes.root hroot⟩
    | insert _ ha hret ih =>
      obtain ⟨t,hi⟩ := ih
      obtain ⟨n,hret⟩ := hret
      have hdone := hret (max n (t.height + 2)) (le_max_left _ _)
      rcases hi.insert ha (le_max_right n (t.height + 2)) with ⟨hnone,-⟩ | ⟨-,h',t',hsome,hi'⟩
      · cases hdone.symm.trans hnone
      · cases hdone.symm.trans hsome
        exact ⟨t',hi'⟩
    | erase _ ha hret ih =>
      obtain ⟨t,hi⟩ := ih
      obtain ⟨n,hret⟩ := hret
      have hdone := hret (max n (t.height + 1)) (le_max_left _ _)
      obtain ⟨h',t',hsome,hi'⟩ := hi.erase ha (le_max_right n (t.height + 1))
      cases hdone.symm.trans hsome
      exact ⟨t',hi'⟩
    | elsewhere _ hroot hsame ih =>
      obtain ⟨t,hi⟩ := ih
      exact ⟨t,hi.elsewhere hroot hsame⟩
  obtain ⟨t,hi⟩ := hsome
  exact ⟨t,hi,hi.height_le⟩

private theorem treeRun_three : ∃ h : RbHeap Ptr, TreeRun h id {1,2,3} ∧ h.root = some 2 := by
  have h1 := @TreeRun.insert ⟨none,fun _ => none,fun _ => false,fun _ _ => none⟩ _ id ∅ 3 (.root rfl) (by simp)
    ⟨3,fun fuel hf => by obtain ⟨k,rfl⟩ := Nat.exists_eq_add_of_le' hf; rfl⟩
  have h2 := @TreeRun.insert _ _ id _ 2 h1 (by simp)
    ⟨3,fun fuel hf => by obtain ⟨k,rfl⟩ := Nat.exists_eq_add_of_le' hf; rfl⟩
  have h3 := @TreeRun.insert _ _ id _ 1 h2 (by simp)
    ⟨4,fun fuel hf => by obtain ⟨k,rfl⟩ := Nat.exists_eq_add_of_le' hf; rfl⟩
  exact ⟨_,h3,rfl⟩

/-- Three deadlines inserted from the latest to the earliest end up below the middle one. -/
theorem treeRun_balanced_three : ∃ h : RbHeap Ptr, h.root = some 2 ∧
    ∃ t, h.Indexes id {1,2,3} t ∧ t.height ≤ 2 * Nat.log 2 (({1,2,3} : Finset Ptr).card + 1) := by
  obtain ⟨h,hrun,hroot⟩ := treeRun_three
  exact ⟨h,hroot,treeRun_balanced hrun⟩

/-- On every heap reached, no call runs through NULL and each loop is over after twice the logarithm of
the number of nodes: the search finds exactly the linked node with the deadline, the walk to the left
a node with the earliest one, rb_insert asserts exactly when the deadline is there. -/
theorem treeRun_calls {fuel : Nat} (hrun : TreeRun h key s) (hfuel : 2 * Nat.log 2 (s.card + 1) + 2 ≤ fuel) :
    (∀ msecs, ∃ r, rbSearch key fuel h msecs = some r ∧ ∀ a, r = some a ↔ a ∈ s ∧ key a = msecs) ∧
    (∃ r, firstNode fuel h = some r ∧ (r = none → s = ∅) ∧ ∀ a, r = some a → a ∈ s ∧ ∀ b ∈ s, key a ≤ key b) ∧
    (∀ a ∉ s, (∃ b ∈ s, key b = key a) → rbInsert key fuel h a = some none) ∧
    (∀ a ∉ s, (∀ b ∈ s, key b ≠ key a) → ∃ h', rbInsert key fuel h a = some (some h')) ∧
    ∀ a ∈ s, ∃ h', rbErase fuel h a = some h' := by
  obtain ⟨t,hi,hlow⟩ := treeRun_balanced hrun
  refine ⟨fun msecs => hi.search msecs (by omega),hi.first (by omega),fun a ha hb => ?_,fun a ha hb => ?_,
    fun a ha => ?_⟩
  · rcases hi.insert ha (show t.height + 2 ≤ fuel by omega) with ⟨hnone,-⟩ | ⟨hne,-⟩
    · exact hnone
    · obtain ⟨b,hb,he⟩ := hb
      exact absurd he (hne b hb)
  · rcases hi.insert ha (show t.height + 2 ≤ fuel by omega) with ⟨-,b,hb',he⟩ | ⟨-,h',t',hsome,-⟩
    · exact absurd he (hb b hb')
    · exact ⟨h',hsome⟩
  · obtain ⟨h',t',hsome,-⟩ := hi.erase ha (show t.height < fuel by omega)
    exact ⟨h',hsome⟩

theorem treeRun_calls_three : ∃ h : RbHeap Ptr, h.root = some 2 ∧ (∃ h', rbErase 6 h 2 = some h') ∧
    rbInsert (Function.update id 4 1) 6 h 4 = some none := by
  obtain ⟨h,hrun,hroot⟩ := treeRun_three
  have hcard : ({1,2,3} : Finset Ptr).card = 3 := rfl
  have hlog : Nat.log 2 4 = 2 := by decide +kernel
  have hkeys : TreeRun h (Function.update id 4 1) {1,2,3} :=
    .elsewhere hrun rfl fun q hq => ⟨⟨rfl,rfl,rfl⟩,Function.update_of_ne (by rintro rfl; simp at hq) _ _⟩
  obtain ⟨-,-,hins,-,her⟩ := @treeRun_calls h _ {1,2,3} 6 hkeys (by rw [hcard,hlog])
  exact ⟨h,hroot,her 2 (by simp),hins 4 (by simp) ⟨1,by simp,rfl⟩⟩

end Runs

end Memqueue.RbHeap
