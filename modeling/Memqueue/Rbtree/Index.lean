import Memqueue.Expiry.Index
import Memqueue.Rbtree.Erase
import Memqueue.Rbtree.Insert
import Memqueue.Rbtree.Instance

/-! The tree code of memqueue_expiry.c on pointers, and the trees of the expiry index that it keeps.
The msecs field of a node is a map from addresses like the fields of rbtree.c. -/
namespace Memqueue.RbHeap

section Code
variable {α : Type} [DecidableEq α] (key : α → Nat)

/-- The loop of rb_search. -/
def searchLoop (msecs : Nat) : Nat → RbHeap α → Option α → Option (Option α)
  | _, _, none => some none
  | 0, _, some _ => none
  | fuel + 1, h, some node =>
    if msecs < key node then searchLoop msecs fuel h (h.child node .left)
    else if msecs > key node then searchLoop msecs fuel h (h.child node .right)
    else some (some node)

def rbSearch (fuel : Nat) (h : RbHeap α) (msecs : Nat) : Option (Option α) := searchLoop key msecs fuel h h.root

/-- What a struct rb_node ** points at: the root's link, or the link of a node to one side. -/
def deref (h : RbHeap α) : Option (α × Side) → Option α
  | none => h.root
  | some (q,s) => h.child q s

/-- The loop of rb_insert; `some none` is the assert(0). -/
def linkLoop (msecs : Nat) : Nat → RbHeap α → Option α → Option (α × Side) →
    Option (Option (Option α × Option (α × Side)))
  | 0, _, _, _ => none
  | fuel + 1, h, parent, new =>
    match h.deref new with
    | none => some (some (parent,new))
    | some this =>
      if key this > msecs then linkLoop msecs fuel h (some this) (some (this,.left))
      else if key this < msecs then linkLoop msecs fuel h (some this) (some (this,.right))
      else some none

def rbInsert (fuel : Nat) (h : RbHeap α) (data : α) : Option (Option (RbHeap α)) := do
  match ← linkLoop key (key data) fuel h none none with
  | some (parent,new) => (rbInsertColor fuel (h.rbLinkNode data parent new) data).map some
  | none => some none

/-- The walk to the left of sched_get_min_timeout. -/
def firstNode (fuel : Nat) (h : RbHeap α) : Option (Option α) :=
  match h.root with
  | some node => (leftmostFrom fuel h node).map some
  | none => some none

end Code

open Memqueue.Tree

section Link
variable {α : Type} [DecidableEq α] {h : RbHeap α} {a : α} {p : Path α}

/-- The link a path's lower end hangs on. -/
def slot : Path α → Option (α × Side)
  | [] => none
  | f :: _ => some (f.val,f.side)

/-- rb_link_node hangs a red leaf on the link of an empty place. -/
theorem holds_rbLinkNode (hh : h.Holds (plug p .nil)) (ha : a ∉ (plug p .nil).inorder) :
    (h.rbLinkNode a (above p) (slot p)).Holds (plug p (.node true .nil a .nil)) := by
  obtain ⟨hp,-,hn⟩ := holds_plug.mp hh
  rw [(inorder_plug_perm p _).mem_iff] at ha
  simp only [inorder_nil,List.nil_append] at ha hn
  set k := (((h.setParent a (above p)).setRed a true).setChild a .left none).setChild a .right none with hk
  have hsame (q : α) (hq : q ≠ a) : Same h k q :=
    (((same_setParent hq).trans (same_setRed hq)).trans (same_setChild hq)).trans (same_setChild hq)
  have hkp : k.HasPath p none := hp.frame rfl fun q hq => hsame q fun he => ha (he ▸ hq)
  have hleaf : k.parent a = above p ∧ k.red a = true ∧ k.child a .left = none ∧ k.child a .right = none := by
    simp [hk,setChild]
  have hnodup : ((node true .nil a .nil).inorder ++ nodes p).Nodup := by
    simpa [inorder_node] using ⟨ha,hn⟩
  cases p with
  | nil =>
    obtain ⟨h1,h2,h3,h4⟩ := hleaf
    exact holds_plug.mpr ⟨rfl,⟨h1,h2,h3,h4,trivial,trivial⟩,hnodup⟩
  | cons f p =>
    obtain ⟨⟨hpar,hred,hc,ho,hu⟩,hup⟩ := hkp
    have hfa : a ≠ f.val := fun he => ha (he ▸ List.mem_cons_self)
    rw [nodes,List.nodup_cons,List.mem_append,not_or] at hn
    obtain ⟨h1,h2,h3⟩ := same_setChild (h := k) (s := f.side) (r := some a) hfa
    refine holds_plug.mpr ⟨⟨⟨hpar,hred,setChild_self _ _ _ _,?_,hu.frame ?_⟩,hup.frame rfl ?_⟩,
      ⟨?_,?_,?_,?_,trivial,trivial⟩,hnodup⟩
    · exact (setChild_other _ _ _ _).trans ho
    · exact fun q hq => same_setChild fun he => hn.1.1 (he ▸ hq)
    · exact fun q hq => same_setChild fun he => hn.1.2 (he ▸ hq)
    · exact h1.trans hleaf.1
    · exact h2.trans hleaf.2.1
    · exact (congrFun h3 _).trans hleaf.2.2.1
    · exact (congrFun h3 _).trans hleaf.2.2.2

end Link

section Refinement
variable {h : RbHeap Ptr} {key : Ptr → Nat} {t : Tree ExpiryNode} {p : Path ExpiryNode} {fuel : Nat} {data : ExpiryNode}

/-- The heap holds the tree's nodes at their addresses, with their deadlines. -/
def Represents (h : RbHeap Ptr) (key : Ptr → Nat) (t : Tree ExpiryNode) : Prop :=
  h.Holds (t.map ExpiryNode.addr) ∧ ∀ n ∈ t.inorder, key n.addr = n.msecs

theorem top_map (t : Tree ExpiryNode) : (t.map ExpiryNode.addr).top = t.top.map ExpiryNode.addr := by
  cases t <;> rfl

private theorem searchLoop_spec (hh : h.Holds ((plug p t).map ExpiryNode.addr))
    (hk : ∀ n ∈ t.inorder, key n.addr = n.msecs) (msecs : Nat) (hfuel : t.height < fuel) :
    searchLoop key msecs fuel h (t.top.map ExpiryNode.addr) =
      some ((Memqueue.rbSearch t msecs).map ExpiryNode.addr) := by
  induction t generalizing p fuel with
  | nil => cases fuel <;> rfl
  | node c l n r il ir =>
    obtain ⟨fuel,rfl⟩ : ∃ k, fuel = k + 1 := ⟨fuel - 1,by omega⟩
    have hread := hh
    rw [map_plug,Tree.map] at hread
    obtain ⟨-,-,hl,hr⟩ := Holds.read (s := .left) hread
    rw [height] at hfuel
    have hkey := hk n (by simp)
    have hgoleft := il (p := ⟨.left,c,n,r⟩ :: p) hh (fun m hm => hk m (by simp [hm])) (show l.height < fuel by omega)
    have hgoright := ir (p := ⟨.right,c,n,l⟩ :: p) hh (fun m hm => hk m (by simp [hm])) (show r.height < fuel by omega)
    replace hr : h.child n.addr .right = (r.map ExpiryNode.addr).top := hr
    rw [top_map] at hl hr
    simp only [top,Option.map_some,searchLoop,hkey,hl,hr,Memqueue.rbSearch]
    split
    · exact hgoleft
    · split
      · exact hgoright
      · rfl

/-- rb_search on the heap finds what the search of the tree finds. -/
theorem rbSearch_spec (hh : h.Represents key t) (msecs : Nat) (hfuel : t.height < fuel) :
    rbSearch key fuel h msecs = some ((Memqueue.rbSearch t msecs).map ExpiryNode.addr) := by
  rw [rbSearch,hh.1.1,top_map]
  exact searchLoop_spec (p := []) hh.1 hh.2 msecs hfuel

private theorem deref_slot (hh : h.Holds ((plug p t).map ExpiryNode.addr)) :
    h.deref (slot (p.map (Frame.map ExpiryNode.addr))) = t.top.map ExpiryNode.addr := by
  rw [map_plug] at hh
  rw [← top_map]
  cases p with
  | nil => exact hh.1
  | cons f p => exact (Holds.read (p := p.map (Frame.map ExpiryNode.addr)) hh).2.2.1

/-- The descent of rb_insert ends at the empty place where the tree's insertion hangs its leaf. -/
private theorem linkLoop_spec (hh : h.Holds ((plug p t).map ExpiryNode.addr))
    (hk : ∀ n ∈ t.inorder, key n.addr = n.msecs) (hfuel : t.height < fuel) :
    match Memqueue.rbLinkNode t data with
    | none => linkLoop key data.msecs fuel h (above (p.map (Frame.map ExpiryNode.addr)))
        (slot (p.map (Frame.map ExpiryNode.addr))) = some none
    | some t' => ∃ q, t = plug q .nil ∧ t' = plug q (.node true .nil data .nil) ∧
        linkLoop key data.msecs fuel h (above (p.map (Frame.map ExpiryNode.addr)))
          (slot (p.map (Frame.map ExpiryNode.addr))) =
          some (some (above ((q ++ p).map (Frame.map ExpiryNode.addr)),
            slot ((q ++ p).map (Frame.map ExpiryNode.addr)))) := by
  induction t generalizing p fuel with
  | nil =>
    obtain ⟨fuel,rfl⟩ : ∃ k, fuel = k + 1 := ⟨fuel - 1,by omega⟩
    refine ⟨[],rfl,rfl,?_⟩
    rw [linkLoop,deref_slot hh]
    rfl
  | node c l n r il ir =>
    obtain ⟨fuel,rfl⟩ : ∃ k, fuel = k + 1 := ⟨fuel - 1,by omega⟩
    rw [height] at hfuel
    have hgoleft := @il (⟨.left,c,n,r⟩ :: p) fuel hh (fun m hm => hk m (by simp [hm])) (by omega)
    have hgoright := @ir (⟨.right,c,n,l⟩ :: p) fuel hh (fun m hm => hk m (by simp [hm])) (by omega)
    rw [linkLoop,deref_slot hh]
    simp only [top,Option.map_some,hk n (by simp),Memqueue.rbLinkNode]
    by_cases hgt : n.msecs > data.msecs
    · simp only [if_pos hgt]
      cases hl : Memqueue.rbLinkNode l data with
      | none =>
        rw [hl] at hgoleft
        exact hgoleft
      | some l' =>
        rw [hl] at hgoleft
        obtain ⟨q,rfl,rfl,hloop⟩ := hgoleft
        exact ⟨q ++ [⟨.left,c,n,r⟩],by rw [plug_append]; rfl,by rw [plug_append]; rfl,
          by rw [List.append_assoc]; exact hloop⟩
    · by_cases hlt : n.msecs < data.msecs
      · simp only [if_neg hgt,if_pos hlt]
        cases hr : Memqueue.rbLinkNode r data with
        | none =>
          rw [hr] at hgoright
          exact hgoright
        | some r' =>
          rw [hr] at hgoright
          obtain ⟨q,rfl,rfl,hloop⟩ := hgoright
          exact ⟨q ++ [⟨.right,c,n,l⟩],by rw [plug_append]; rfl,by rw [plug_append]; rfl,
            by rw [List.append_assoc]; exact hloop⟩
      · simp only [if_neg hgt,if_neg hlt]

/-- rb_insert links and balances as the index does, and asserts where the index does. -/
theorem rbInsert_spec (hh : h.Represents key t) (hb : t.Balanced) (hkey : key data.addr = data.msecs)
    (hfresh : ∀ n ∈ t.inorder, n.addr ≠ data.addr) (hfuel : t.height + 2 ≤ fuel) :
    match @Memqueue.rbInsert (Rebalance.rbtree ExpiryNode) t data with
    | none => rbInsert key fuel h data.addr = some none
    | some t' => t'.Balanced ∧ ∃ h', rbInsert key fuel h data.addr = some (some h') ∧ h'.Represents key t' := by
  have hloop := @linkLoop_spec h key t [] fuel data hh.1 hh.2 (show t.height < fuel by omega)
  rw [← hkey] at hloop
  unfold Memqueue.rbInsert
  cases hlink : Memqueue.rbLinkNode t data with
  | none =>
    rw [hlink] at hloop
    replace hloop : linkLoop key (key data.addr) fuel h none none = some none := hloop
    simp [rbInsert,hloop]
  | some t' =>
    rw [hlink] at hloop
    obtain ⟨q,rfl,rfl,hloop⟩ := hloop
    rw [List.append_nil] at hloop
    replace hloop : linkLoop key (key data.addr) fuel h none none = _ := hloop
    rw [Option.map_some]
    refine ⟨balanced_fixInserted hb,?_⟩
    have hplace := hh.1
    have hbm := hb.map ExpiryNode.addr
    rw [map_plug] at hplace hbm
    have hout : data.addr ∉ (plug (q.map (Frame.map ExpiryNode.addr)) (Tree.map ExpiryNode.addr .nil)).inorder := by
      rw [← map_plug,inorder_map]
      intro hmem
      obtain ⟨n,hn,he⟩ := List.mem_map.mp hmem
      exact hfresh n hn he
    have hleaf := holds_rbLinkNode hplace hout
    obtain ⟨n,hp,hnil,-⟩ := balanced_plug.mp hbm
    cases hnil
    have hlen := length_add_height q (.nil : Tree ExpiryNode)
    obtain ⟨h',hcolor,hh'⟩ := rbInsertColor_spec hleaf rfl rfl hp
      (show (q.map (Frame.map ExpiryNode.addr)).length + 2 ≤ fuel by rw [List.length_map]; omega)
    refine ⟨h',by simp [rbInsert,hloop,hcolor],?_,?_⟩
    · change h'.Holds ((fixInserted (plug q (.node true .nil data .nil))).map ExpiryNode.addr)
      rw [fixInserted_link hb,map_insertFix]
      exact hh'
    · intro m hm
      change m ∈ (fixInserted (plug q (.node true .nil data .nil))).inorder at hm
      rw [inorder_fixInserted,inorder_plug] at hm
      have hold : m ∈ (plug q (.nil : Tree ExpiryNode)).inorder ∨ m = data := by
        rw [inorder_plug]
        simp only [inorder_node,inorder_nil,List.mem_append,List.mem_cons] at hm ⊢
        tauto
      rcases hold with hold | rfl
      · exact hh.2 m hold
      · exact hkey

private theorem subtree_place {sel : ExpiryNode → Bool} {u : Tree ExpiryNode} (hu : t.subtree? sel = some u) :
    ∃ p, plug p u = t := by
  induction t with
  | nil => cases hu
  | node c l n r il ir =>
    rw [subtree?] at hu
    split at hu
    · cases hu
      exact ⟨[],rfl⟩
    · rcases Option.or_eq_some_iff.mp hu with hu | ⟨-,hu⟩
      · obtain ⟨p,hp⟩ := il hu
        exact ⟨p ++ [⟨.left,c,n,r⟩],by rw [plug_append,hp]; rfl⟩
      · obtain ⟨p,hp⟩ := ir hu
        exact ⟨p ++ [⟨.right,c,n,l⟩],by rw [plug_append,hp]; rfl⟩

/-- `node = node->rb_left` on the heap and in the tree. -/
theorem left_spec {a : Ptr} {u : Tree ExpiryNode} (hh : h.Represents key t)
    (hu : t.subtree? (fun n => n.addr = a) = some u) : h.child a .left = u.left.top.map ExpiryNode.addr := by
  obtain ⟨p,rfl⟩ := subtree_place hu
  obtain ⟨⟨n,hn,ha⟩,-⟩ := subtree?_spec hu
  have hplace := hh.1
  rw [map_plug] at hplace
  cases u with
  | nil => cases hn
  | node c l m r =>
    cases hn
    obtain ⟨-,-,hl,-⟩ := Holds.read (s := .left) hplace
    rw [show a = n.addr by simpa using (of_decide_eq_true ha).symm,hl,top_map]
    rfl

private theorem countP_addr {a : Ptr} (hn : (t.map ExpiryNode.addr).inorder.Nodup) (ha : ∃ n ∈ t.inorder, n.addr = a) :
    t.inorder.countP (fun n => n.addr = a) = 1 := by
  rw [inorder_map] at hn
  obtain ⟨n,hmem,rfl⟩ := ha
  have hcount := List.count_eq_one_of_mem hn (List.mem_map_of_mem hmem)
  rw [List.count,List.countP_map] at hcount
  rw [← hcount]
  exact List.countP_congr fun m _ => by simp

/-- rb_erase takes the node out as the index does. -/
theorem rbErase_index {a : Ptr} (hh : h.Represents key t) (hb : t.Balanced) (ha : ∃ n ∈ t.inorder, n.addr = a)
    (hfuel : t.height < fuel) :
    (@Rebalance.erase _ (Rebalance.rbtree ExpiryNode) (fun n => n.addr = a) t).Balanced ∧
      ∃ h', rbErase fuel h a = some h' ∧
        h'.Represents key (@Rebalance.erase _ (Rebalance.rbtree ExpiryNode) (fun n => n.addr = a) t) := by
  change (eraseWhere _ t).Balanced ∧ ∃ h', rbErase fuel h a = some h' ∧ h'.Represents key (eraseWhere _ t)
  have hone := countP_addr hh.1.2.2 ha
  refine ⟨balanced_eraseWhere hb hone.le,?_⟩
  have hkeys (n : ExpiryNode) (hn : n ∈ (eraseWhere (fun n => n.addr = a) t).inorder) : key n.addr = n.msecs := by
    rw [inorder_eraseWhere] at hn
    exact hh.2 n (List.mem_filter.mp hn).1
  rw [eraseWhere,if_pos hone] at hkeys ⊢
  cases hplace : place (fun n : ExpiryNode => n.addr = a) [] t with
  | none =>
    rw [place_eq_none hplace] at hone
    cases hone
  | some found =>
    obtain ⟨p,u⟩ := found
    obtain ⟨hp,c,l,n,r,rfl,hn⟩ := place_spec hplace
    rw [plug] at hp
    subst hp
    rw [hplace] at hkeys
    have hholds := hh.1
    have hbm := hb.map ExpiryNode.addr
    rw [map_plug,Tree.map] at hholds hbm
    have hlow : (plug (p.map (Frame.map ExpiryNode.addr)) (Tree.map ExpiryNode.addr (.node c l n r))).height <
        fuel := by
      rw [← map_plug,height_map]
      exact hfuel
    obtain ⟨h',herase,hh'⟩ := rbErase_spec hholds hbm hlow
    refine ⟨h',?_,?_,hkeys⟩
    · rw [← show n.addr = a by simpa using hn]
      exact herase
    · rw [map_eraseAt]
      exact hh'

private theorem leftmostFrom_tree {a : ExpiryNode} (hh : h.Holds ((plug p t).map ExpiryNode.addr)) (ha : t.top = some a)
    (hfuel : t.height ≤ fuel) : leftmostFrom fuel h a.addr = t.leftmost.map ExpiryNode.addr := by
  induction t generalizing p fuel a with
  | nil => cases ha
  | node c l n r il _ =>
    cases ha
    rw [height] at hfuel
    obtain ⟨fuel,rfl⟩ : ∃ k, fuel = k + 1 := ⟨fuel - 1,by omega⟩
    have hread := hh
    rw [map_plug,Tree.map] at hread
    obtain ⟨-,-,hl,-⟩ := Holds.read (s := .left) hread
    rw [top_map] at hl
    rw [leftmostFrom,hl,leftmost]
    cases hlt : l.top with
    | none =>
      cases l with
      | nil => rfl
      | node => cases hlt
    | some m =>
      have hleft : l.leftmost ≠ none := by
        cases l with
        | nil => cases hlt
        | node => simp [leftmost]
      obtain ⟨k,hk⟩ := Option.ne_none_iff_exists'.mp hleft
      have hstep := @il (⟨.left,c,n,r⟩ :: p) fuel m hh hlt (by omega)
      rw [hk] at hstep ⊢
      exact hstep

/-- The walk to the left ends at the node with the earliest deadline. -/
theorem firstNode_spec (hh : h.Represents key t) (hfuel : t.height ≤ fuel) :
    firstNode fuel h = some (t.leftmost.map ExpiryNode.addr) := by
  rw [firstNode,hh.1.1,top_map]
  cases ht : t.top with
  | none =>
    cases t with
    | nil => rfl
    | node => cases ht
  | some a =>
    have hwalk := leftmostFrom_tree (p := []) hh.1 ht hfuel
    obtain ⟨b,hb⟩ : ∃ b, t.leftmost = some b := by
      cases t with
      | nil => cases ht
      | node c l n r =>
        cases hl : l.leftmost with
        | none => exact ⟨n,by rw [leftmost,hl]; rfl⟩
        | some b => exact ⟨b,by rw [leftmost,hl]; rfl⟩
    simp only [Option.map_some,hwalk,hb]

/-- On a heap that holds a tree of the index, the tree code of memqueue_expiry.c and rbtree.c computes what the
index computes on the tree: searches, the walk to the earliest deadline, the step of objs_expire to a left child,
rb_insert and rb_erase. -/
theorem represents_calls (hh : h.Represents key t) (hb : t.Balanced) (hfuel : t.height + 2 ≤ fuel) :
    (∀ msecs, rbSearch key fuel h msecs = some ((Memqueue.rbSearch t msecs).map ExpiryNode.addr)) ∧
    firstNode fuel h = some (t.leftmost.map ExpiryNode.addr) ∧
    (∀ (a : Ptr) (u : Tree ExpiryNode), t.subtree? (fun n => n.addr = a) = some u →
      h.child a .left = u.left.top.map ExpiryNode.addr) ∧
    (∀ data : ExpiryNode, key data.addr = data.msecs → (∀ n ∈ t.inorder, n.addr ≠ data.addr) →
      match @Memqueue.rbInsert (Rebalance.rbtree ExpiryNode) t data with
      | none => rbInsert key fuel h data.addr = some none
      | some t' => t'.Balanced ∧ ∃ h', rbInsert key fuel h data.addr = some (some h') ∧ h'.Represents key t') ∧
    ∀ n ∈ t.inorder, ∃ h', rbErase fuel h n.addr = some h' ∧
      h'.Represents key (@Rebalance.erase _ (Rebalance.rbtree ExpiryNode) (fun m => m.addr = n.addr) t) :=
  ⟨fun msecs => rbSearch_spec hh msecs (by omega),firstNode_spec hh (by omega),fun _ _ hu => left_spec hh hu,
    fun _ hkey hfresh => rbInsert_spec hh hb hkey hfresh hfuel,
    fun n hn => (rbErase_index hh hb ⟨n,hn,rfl⟩ (by omega)).2⟩

/-- Search, insertion and erasure on a heap of three nodes: 3 is found, 4 goes below it, and erasing 2 puts 3 in its
place. -/
theorem represents_calls_three :
    let n : Ptr → ExpiryNode := fun a => ⟨a,a,[],[],[]⟩
    let h : RbHeap Ptr := ⟨some 2,fun a => if a = 2 then none else some 2,fun a => a ≠ 2,fun a s =>
      if a ≠ 2 then none else if s = .left then some 1 else some 3⟩
    rbSearch id 4 h 3 = some (some 3) ∧ rbSearch id 4 h 5 = some none ∧ firstNode 4 h = some (some 1) ∧
    h.child 2 .left = some 1 ∧
    (∃ h', rbInsert id 4 h 4 = some (some h') ∧ h'.Represents id
      (.node false (.node false .nil (n 1) .nil) (n 2) (.node false .nil (n 3) (.node true .nil (n 4) .nil)))) ∧
    ∃ h', rbErase 4 h 2 = some h' ∧ h'.Represents id (.node false (.node true .nil (n 1) .nil) (n 3) .nil) := by
  intro n h
  let t : Tree ExpiryNode := .node false (.node true .nil (n 1) .nil) (n 2) (.node true .nil (n 3) .nil)
  have hh : h.Represents id t := by
    refine ⟨⟨rfl,?_,by simp [t,n,Tree.map]⟩,by simp [t,n]⟩
    simp [Has,t,n,h,Tree.map,Tree.top]
  have hb : t.Balanced := ⟨rfl,1,.black (.red .nil .nil rfl rfl) (.red .nil .nil rfl rfl)⟩
  obtain ⟨hsearch,hfirst,hleft,hinsert,herase⟩ := @represents_calls h id t 4 hh hb (by decide)
  refine ⟨(hsearch 3).trans rfl,(hsearch 5).trans rfl,hfirst,hleft 2 t rfl,?_,?_⟩
  · exact (hinsert (n 4) rfl (by simp [t,n])).2
  · exact herase (n 2) (by simp [t])

end Refinement

end Memqueue.RbHeap
