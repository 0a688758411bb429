import Memqueue.Expiry.Membership

/-! One walk of objs_expire over a tree that is reshaped under it: what it hands over, what it leaves behind,
and that it ends and gets somewhere. -/
namespace Memqueue
open Fallible Expiry

/-- The in-order nodes of a search tree on msecs for one type, in which every object is linked once. -/
structure Orderly (type : ObjType) (L : List ExpiryNode) : Prop where
  addrs : (L.map ExpiryNode.addr).Nodup
  sorted : (L.map ExpiryNode.msecs).Pairwise (· < ·)
  pure : ∀ n ∈ L, ∀ t, t ≠ type → n.objs t = []
  once : (L.flatMap fun n => n.objs type).Nodup

/-- A pass at `t` erased the due nodes `erased`, handing over what they held, and left the other nodes as they were. -/
structure Swept (type : ObjType) (t : Nat) (old new erased : List ExpiryNode) (released : List Ptr) : Prop where
  due : ∀ n ∈ erased, n ∈ old ∧ n.msecs ≤ t
  nodup : erased.Nodup
  left : new = old.filter fun n => n ∉ erased
  released : released = erased.flatMap fun n => n.objs type

section Lists
variable {type : ObjType} {L L' : List ExpiryNode} {t : Nat}

theorem Orderly.sublist (h : Orderly type L) (hsub : L'.Sublist L) : Orderly type L' where
  addrs := h.addrs.sublist (hsub.map _)
  sorted := h.sorted.sublist (hsub.map _)
  pure n hn := h.pure n (hsub.subset hn)
  once := by
    have honce := List.nodup_flatMap.mp h.once
    exact List.nodup_flatMap.mpr ⟨fun n hn => honce.1 n (hsub.subset hn),honce.2.sublist hsub⟩

theorem Orderly.nodup (h : Orderly type L) : L.Nodup := .of_map _ h.addrs

theorem Orderly.addr_inj (h : Orderly type L) {n m : ExpiryNode} (hn : n ∈ L) (hm : m ∈ L) (he : n.addr = m.addr) :
    n = m :=
  List.inj_on_of_nodup_map h.addrs hn hm he

/-- No object is in two nodes. -/
theorem Orderly.apart (h : Orderly type L) {n m : ExpiryNode} (hn : n ∈ L) (hm : m ∈ L) (hne : n ≠ m) :
    (n.objs type).Disjoint (m.objs type) := by
  have : Std.Symm (Function.onFun List.Disjoint fun n : ExpiryNode => n.objs type) := ⟨fun _ _ hd => hd.symm⟩
  exact (List.nodup_flatMap.mp h.once).2.forall hn hm hne

theorem Swept.refl : Swept type t L L [] [] where
  due _ h := by cases h
  nodup := .nil
  left := by simp
  released := rfl

/-- One node after the other. -/
theorem Swept.cons {n : ExpiryNode} {erased : List ExpiryNode} {rel : List Ptr} (ho : Orderly type L) (hn : n ∈ L)
    (hdue : n.msecs ≤ t) (h : Swept type t (L.filter fun m => m.addr ≠ n.addr) L' erased rel) :
    Swept type t L L' (n :: erased) (n.objs type ++ rel) where
  due := by
    intro m hm
    rcases List.mem_cons.mp hm with rfl | hm
    · exact ⟨hn,hdue⟩
    · obtain ⟨hin,ht⟩ := h.due m hm
      exact ⟨List.mem_of_mem_filter hin,ht⟩
  nodup := by
    refine List.nodup_cons.mpr ⟨fun hin => ?_,h.nodup⟩
    have := List.of_mem_filter (h.due n hin).1
    simp at this
  left := by
    rw [h.left,List.filter_filter]
    apply List.filter_congr
    intro m hm
    have haddr : m.addr = n.addr ↔ m = n := ⟨ho.addr_inj hm hn,fun he => by rw [he]⟩
    simp only [ne_eq,haddr,List.mem_cons]
    by_cases hmn : m = n <;> simp [hmn]
  released := by rw [h.released,List.flatMap_cons]

theorem Swept.perm {erased : List ExpiryNode} {rel : List Ptr} (ho : Orderly type L)
    (h : Swept type t L L' erased rel) : L.Perm (erased ++ L') := by
  have hdisj : erased.Disjoint L' := by
    intro n hn hn'
    rw [h.left] at hn'
    simpa [hn] using List.of_mem_filter hn'
  have hn' : L'.Nodup := h.left ▸ ho.nodup.filter _
  apply (List.perm_ext_iff_of_nodup ho.nodup (h.nodup.append hn' hdisj)).mpr
  intro n
  rw [List.mem_append,h.left,List.mem_filter]
  by_cases hn : n ∈ erased
  · simp [hn,(h.due n hn).1]
  · simp [hn]

/-- Every object is handed over once. -/
theorem Swept.once {erased : List ExpiryNode} {rel : List Ptr} (ho : Orderly type L)
    (h : Swept type t L L' erased rel) : rel.Nodup := by
  have hall : ((erased ++ L').flatMap fun n => n.objs type).Nodup :=
    ((h.perm ho).flatMap_right _).nodup_iff.mp ho.once
  rw [List.flatMap_append,← h.released] at hall
  exact (List.nodup_append.mp hall).1

end Lists

/-- The host that also writes down every object it hands over. -/
def Host.logged {σ : Type} (host : Host σ) : Host (σ × List Ptr) where
  index s := host.index s.1
  setIndex s e := (host.setIndex s.1 e,s.2)
  index_setIndex s e := host.index_setIndex s.1 e
  release type s o := (host.release type s.1 o).map fun s' => (s',s.2 ++ [o])

section Logged
variable {σ : Type} (host : Host σ) (type : ObjType)

theorem expireObj_logged (s : σ) (l : List Ptr) (o : Ptr) :
    expireObj host.logged type (s,l) o = (expireObj host type s o).map fun s' => (s',l ++ [o]) := by
  simp only [expireObj,Host.logged]
  cases host.release type (host.setIndex s (listRemove (host.index s) type o)) o with
  | error f => rfl
  | ok s' => rfl

private theorem expireObjs_logged (os : List Ptr) (s : σ) (l : List Ptr) :
    os.foldlM (expireObj host.logged type) (s,l) =
      (os.foldlM (expireObj host type) s).map fun s' => (s',l ++ os) := by
  induction os generalizing s l with
  | nil => simp [Except.map]; rfl
  | cons o os ih =>
    rw [List.foldlM_cons,List.foldlM_cons,expireObj_logged]
    cases expireObj host type s o with
    | error f => rfl
    | ok s' =>
      show os.foldlM (expireObj host.logged type) (s',l ++ [o]) = _
      rw [ih,List.append_assoc]
      rfl

variable [Rebalance ExpiryNode]

private theorem objsExpireFrom_logged (t fuel : Nat) (c : Option Ptr) (s : σ) (l : List Ptr) :
    (objsExpireFrom host.logged type t fuel c (s,l)).map Prod.fst = objsExpireFrom host type t fuel c s := by
  induction fuel generalizing c s l with
  | zero => cases c <;> rfl
  | succ fuel ih =>
    cases c with
    | none => rfl
    | some a =>
      have hidx : host.logged.index (s,l) = host.index s := rfl
      simp only [objsExpireFrom,hidx]
      cases ((host.index s).root type).subtree? fun n => n.addr = a with
      | none => rfl
      | some u =>
        cases hdata : u.top with
        | none => simp only [hdata]; rfl
        | some data =>
          simp only [hdata,expireObjs_logged]
          split
          · cases (data.objs type).foldlM (expireObj host type) s with
            | error f => rfl
            | ok s' =>
              show Except.map _ (possiblyNodeFree (host.index s') type a >>= _) =
                (possiblyNodeFree (host.index s') type a >>= _)
              cases possiblyNodeFree (host.index s') type a with
              | error f => rfl
              | ok fe => exact ih _ _ _
          · exact ih _ _ _

/-- The log is only looked at. -/
theorem objsExpire_logged (now : Nat) (s : σ) (l : List Ptr) :
    (objsExpire host.logged now type (s,l)).map Prod.fst = objsExpire host now type s :=
  objsExpireFrom_logged host type _ _ _ s l

variable {host type}

theorem exists_log {now : Nat} {s s' : σ} (h : objsExpire host now type s = .ok s') (l : List Ptr) :
    ∃ l', objsExpire host.logged now type (s,l) = .ok (s',l') := by
  rw [← objsExpire_logged host type now s l] at h
  obtain ⟨⟨_,l'⟩,hl,rfl⟩ := map_ok h
  exact ⟨l',hl⟩

end Logged

/-- The walk has ended, or stands at a node of the tree with at most `fuel` nodes up to it. -/
def Ahead (L : List ExpiryNode) (fuel : Nat) (c : Option Ptr) : Prop :=
  ∀ a, c = some a → ∃ n ∈ L, n.addr = a ∧ (L.countP fun m => m.msecs ≤ n.msecs) ≤ fuel

/-- With no turn left the walk has ended. -/
private theorem Ahead.ended {L : List ExpiryNode} {c : Option Ptr} (h : Ahead L 0 c) : c = none := by
  refine Option.eq_none_iff_forall_ne_some.mpr fun a ha => ?_
  obtain ⟨n,hn,_,hcount⟩ := h a ha
  have hpos : 0 < L.countP fun m => m.msecs ≤ n.msecs := List.countP_pos_iff.mpr ⟨n,hn,by simp⟩
  exact Nat.lt_irrefl 0 (hpos.trans_le hcount)

section Walk
variable {type : ObjType} {T u : Tree ExpiryNode} {L' : List ExpiryNode} {a : Ptr} {t fuel : Nat}

private theorem countP_lt {L : List ExpiryNode} {n b : ExpiryNode} (hn : n ∈ L) (hlt : b.msecs < n.msecs) :
    (L.countP fun m => m.msecs ≤ b.msecs) < L.countP fun m => m.msecs ≤ n.msecs := by
  have hlow : ((L.filter fun m => m.msecs ≤ n.msecs).countP fun m => m.msecs ≤ b.msecs) <
      (L.filter fun m => m.msecs ≤ n.msecs).length :=
    List.countP_lt_length_iff.mpr ⟨n,List.mem_filter.mpr ⟨hn,by simp⟩,by simpa using hlt⟩
  rw [← List.countP_eq_length_filter,List.countP_filter] at hlow
  refine Nat.lt_of_le_of_lt (List.countP_mono_left ?_) hlow
  intro m _ hm
  simp only [decide_eq_true_eq,Bool.and_eq_true] at hm ⊢
  omega

/-- The node the walk stands at, in its tree. -/
private theorem walk_node (ho : Orderly type T.inorder) (h : Ahead T.inorder fuel (some a)) :
    ∃ u data, T.subtree? (fun n => n.addr = a) = some u ∧ u.top = some data ∧ data ∈ T.inorder ∧ data.addr = a ∧
      (T.inorder.countP fun m => m.msecs ≤ data.msecs) ≤ fuel := by
  obtain ⟨n,hn,ha,hcount⟩ := h a rfl
  obtain ⟨u,hu⟩ := Tree.subtree?_isSome (p := fun m => m.addr = a) hn (by simpa using ha)
  obtain ⟨⟨data,htop,hdata⟩,hsub⟩ := Tree.subtree?_spec hu
  have hin := hsub data (Tree.mem_of_top htop)
  have hda : data.addr = a := by simpa using hdata
  obtain rfl : data = n := ho.addr_inj hin hn (hda.trans ha.symm)
  exact ⟨u,data,hu,htop,hin,hda,hcount⟩

private theorem left_lt (ho : Orderly type T.inorder) (hu : T.subtree? (fun n => n.addr = a) = some u)
    {data b : ExpiryNode} (htop : u.top = some data) (hb : b ∈ u.left.inorder) :
    b ∈ T.inorder ∧ b.msecs < data.msecs := by
  have hsub := Tree.subtree?_sublist hu
  refine ⟨hsub.subset (Tree.mem_of_mem_left hb),?_⟩
  cases u with
  | nil => cases hb
  | node c l d r =>
    cases htop
    have hs := (ho.sublist hsub).sorted
    simp only [Tree.inorder_node,List.map_append,List.map_cons,List.pairwise_append] at hs
    exact hs.2.2 b.msecs (List.mem_map_of_mem hb) data.msecs List.mem_cons_self

/-- The left child read before the node goes is still in the tree afterwards, with fewer nodes up to it. -/
private theorem walk_next (ho : Orderly type T.inorder) (hu : T.subtree? (fun n => n.addr = a) = some u)
    {data : ExpiryNode} (htop : u.top = some data) (hdata : data ∈ T.inorder) (hda : data.addr = a)
    (hcount : (T.inorder.countP fun m => m.msecs ≤ data.msecs) ≤ fuel + 1) (hsub : L'.Sublist T.inorder)
    (hkeep : ∀ n ∈ T.inorder, n.addr ≠ a → n ∈ L') : Ahead L' fuel (u.left.top.map ExpiryNode.addr) := by
  intro a' ha'
  obtain ⟨b,hb,rfl⟩ := Option.map_eq_some_iff.mp ha'
  obtain ⟨hin,hlt⟩ := left_lt ho hu htop (Tree.mem_of_top hb)
  refine ⟨b,hkeep b hin ?_,rfl,?_⟩
  · intro he
    rw [ho.addr_inj hin hdata (he.trans hda.symm)] at hlt
    exact Nat.lt_irrefl _ hlt
  · have hrest := hsub.countP_le (p := fun m => m.msecs ≤ b.msecs)
    have hless := countP_lt hdata hlt
    omega

/-- A due node below a node that is not due is below its left child. -/
private theorem due_left (ho : Orderly type T.inorder) (hu : T.subtree? (fun n => n.addr = a) = some u)
    {data n : ExpiryNode} (htop : u.top = some data) (hlate : ¬ data.msecs ≤ t) (hn : n ∈ u.inorder)
    (hdue : n.msecs ≤ t) : n ∈ u.left.inorder := by
  cases u with
  | nil => cases hn
  | node c l d r =>
    cases htop
    have hs := (ho.sublist (Tree.subtree?_sublist hu)).sorted
    simp only [Tree.inorder_node,List.map_append,List.map_cons,List.pairwise_append,List.pairwise_cons] at hs
    rw [Tree.inorder_node,List.mem_append,List.mem_cons] at hn
    rcases hn with hl | rfl | hr
    · exact hl
    · exact absurd hdue hlate
    · have := hs.2.1.1 n.msecs (List.mem_map_of_mem hr)
      omega

end Walk

section Loop
variable {σ : Type} {host : Host σ} {type : ObjType}

private theorem expireObjs_inorder (hframe : ∀ s o s', host.release type s o = .ok s' →
      (host.index s').root type = (host.index s).root type) {os : List Ptr} {s s' : σ}
    (h : os.foldlM (expireObj host type) s = .ok s') :
    ((host.index s').root type).inorder =
      ((host.index s).root type).inorder.map fun n => n.setObjs type ((n.objs type).diff os) := by
  induction os generalizing s with
  | nil =>
    cases h
    simp
  | cons o os ih =>
    rw [List.foldlM_cons] at h
    obtain ⟨t,ht,h⟩ := bind_ok h
    rw [ih h,expireObj_root hframe ht,listRemove,root_setRoot,Tree.inorder_map,List.map_map]
    apply List.map_congr_left
    intro n _
    simp only [Function.comp,ExpiryNode.objs_setObjs,List.diff_cons]
    cases type <;> rfl

variable [Rebalance ExpiryNode]

/-- Once its objects are handed over the node is empty, and goes; the other nodes are as they were. -/
private theorem node_erased (hframe : ∀ s o s', host.release type s o = .ok s' →
      (host.index s').root type = (host.index s).root type) {s s' : σ} {data : ExpiryNode}
    (ho : Orderly type ((host.index s).root type).inorder) (hdata : data ∈ ((host.index s).root type).inorder)
    (h : (data.objs type).foldlM (expireObj host type) s = .ok s') :
    ∃ e, possiblyNodeFree (host.index s') type data.addr = .ok (true,e) ∧
      (e.root type).inorder = ((host.index s).root type).inorder.filter fun m => m.addr ≠ data.addr := by
  have hin := expireObjs_inorder hframe h
  have hothers : ∀ n ∈ ((host.index s).root type).inorder, n.addr ≠ data.addr →
      n.setObjs type ((n.objs type).diff (data.objs type)) = n := by
    intro n hn hne
    have hd := ho.apart hn hdata fun he => hne (congrArg ExpiryNode.addr he)
    have hnd := (List.nodup_flatMap.mp ho.once).1 n hn
    rw [hnd.sdiff_eq_filter,List.filter_eq_self.mpr fun o hon => by simpa using hd hon,ExpiryNode.setObjs_objs]
  have hempty : (data.setObjs type ((data.objs type).diff (data.objs type))).isEmpty = true := by
    have hnil : (data.objs type).diff (data.objs type) = [] := by
      rw [((List.nodup_flatMap.mp ho.once).1 data hdata).sdiff_eq_filter]
      simp
    refine @ExpiryNode.isEmpty_of_objs _ type (fun u hu => ?_) (by rw [ExpiryNode.objs_setObjs,hnil])
    rw [ExpiryNode.objs_setObjs_ne _ hu]
    exact ho.pure data hdata u hu
  have hfind : ((host.index s').root type).inorder.find? (fun n => n.addr = data.addr) =
      some (data.setObjs type ((data.objs type).diff (data.objs type))) := by
    cases hf : ((host.index s').root type).inorder.find? (fun n => n.addr = data.addr) with
    | none =>
      rw [List.find?_eq_none] at hf
      have := hf _ (hin ▸ List.mem_map_of_mem hdata)
      simp at this
    | some m =>
      have hm := List.mem_of_find?_eq_some hf
      have hma := List.find?_some hf
      rw [hin] at hm
      obtain ⟨n,hn,rfl⟩ := List.mem_map.mp hm
      simp only [ExpiryNode.addr_setObjs,decide_eq_true_eq] at hma
      rw [ho.addr_inj hn hdata hma]
  refine ⟨(host.index s').setRoot type (Rebalance.erase (fun m => m.addr = data.addr) ((host.index s').root type)),?_,
    ?_⟩
  · simp only [possiblyNodeFree,hfind,hempty,if_true]
  rw [root_setRoot,Rebalance.inorder_erase,hin,List.filter_map]
  have hsame : (fun n : ExpiryNode => !decide (n.addr = data.addr)) ∘
      (fun n : ExpiryNode => n.setObjs type ((n.objs type).diff (data.objs type))) =
        fun n : ExpiryNode => decide (n.addr ≠ data.addr) := by
    funext n
    simp
  rw [hsame,List.map_congr_left (g := id),List.map_id]
  intro n hn
  obtain ⟨hn,hne⟩ := List.mem_filter.mp hn
  exact hothers n hn (by simpa using hne)

/-- A turn at a due node: the node goes, and the walk stands in a smaller tree that is still in order. -/
private theorem walk_erased
    (hframe : ∀ s o s', host.release type s o = .ok s' → (host.index s').root type = (host.index s).root type)
    {s s' : σ} {a : Ptr} {u : Tree ExpiryNode} {fuel : Nat} {data : ExpiryNode}
    (ho : Orderly type ((host.index s).root type).inorder)
    (hu : ((host.index s).root type).subtree? (fun n => n.addr = a) = some u) (htop : u.top = some data)
    (hdata : data ∈ ((host.index s).root type).inorder) (hda : data.addr = a)
    (hcount : (((host.index s).root type).inorder.countP fun m => m.msecs ≤ data.msecs) ≤ fuel + 1)
    (h : (data.objs type).foldlM (expireObj host type) s = .ok s') :
    ∃ e, possiblyNodeFree (host.index s') type a = .ok (true,e) ∧
      (e.root type).inorder = (((host.index s).root type).inorder.filter fun m => m.addr ≠ data.addr) ∧
      Orderly type (e.root type).inorder ∧ Ahead (e.root type).inorder fuel (u.left.top.map ExpiryNode.addr) := by
  obtain ⟨e,he,hin⟩ := node_erased hframe ho hdata h
  have hsub : (e.root type).inorder.Sublist ((host.index s).root type).inorder := by
    rw [hin]
    exact List.filter_sublist
  refine ⟨e,hda ▸ he,hin,ho.sublist hsub,walk_next ho hu htop hdata hda hcount hsub fun n hn hne => ?_⟩
  rw [hin]
  exact List.mem_filter.mpr ⟨hn,by simpa [hda] using hne⟩

omit [Rebalance ExpiryNode] in
private theorem expireObjs_fault (hrel : ∀ s o, host.release type s o ≠ .error .freedNode) (os : List Ptr) (s : σ) :
    Ensures (os.foldlM (expireObj host type) s) (fun _ => True) (· ≠ .freedNode) := by
  refine foldlM_ensures (fun _ _ => True) ?_ os s trivial
  intro o os s _
  refine ensures_intro (fun _ _ => trivial) ?_
  rintro f hf rfl
  rcases bind_error hf with hf | ⟨_,_,hf⟩
  · exact hrel _ _ hf
  · cases hf

/-- The walk from a node of the tree. It never meets a freed node, and takes something away if a due node
is below the one it starts at. -/
theorem objsExpireFrom_swept (hframe : ∀ s o s', host.release type s o = .ok s' →
      (host.index s').root type = (host.index s).root type)
    (hrel : ∀ s o, host.release type s o ≠ .error .freedNode) (t fuel : Nat) (c : Option Ptr) (s : σ) (l : List Ptr)
    (ho : Orderly type ((host.index s).root type).inorder) (hc : Ahead ((host.index s).root type).inorder fuel c) :
    Ensures (objsExpireFrom host.logged type t fuel c (s,l))
      (fun r => ∃ erased rel, r.2 = l ++ rel ∧
        Swept type t ((host.index s).root type).inorder ((host.index r.1).root type).inorder erased rel ∧
        ∀ a u n, c = some a → ((host.index s).root type).subtree? (fun m => m.addr = a) = some u → n ∈ u.inorder →
          n.msecs ≤ t → erased ≠ [])
      (· ≠ .freedNode) := by
  induction fuel generalizing c s l with
  | zero =>
    obtain rfl := hc.ended
    exact ⟨[],[],by simp,.refl,fun a u n ha => by cases ha⟩
  | succ fuel ih =>
    cases c with
    | none => exact ⟨[],[],by simp,.refl,fun a u n ha => by cases ha⟩
    | some a =>
      obtain ⟨u,data,hu,htop,hdata,hda,hcount⟩ := walk_node ho hc
      have hidx : host.logged.index (s,l) = host.index s := rfl
      simp only [objsExpireFrom,hidx,hu,htop,expireObjs_logged]
      split
      · rename_i hdue
        have hfault := expireObjs_fault hrel (data.objs type) s
        cases hx : (data.objs type).foldlM (expireObj host type) s with
        | error f =>
          rw [hx] at hfault
          exact hfault
        | ok s' =>
          obtain ⟨e,he,hin,ho',hnext⟩ := walk_erased hframe ho hu htop hdata hda hcount hx
          show Ensures (possiblyNodeFree (host.index s') type a >>= _) _ _
          rw [he]
          show Ensures (objsExpireFrom host.logged type t fuel _ (host.setIndex s' e,l ++ data.objs type)) _ _
          rw [← host.index_setIndex s' e] at ho' hnext
          refine (ih _ _ _ ho' hnext).mono ?_ fun _ hf => hf
          rintro ⟨s'',l''⟩ ⟨erased,rel,hl,hswept,_⟩
          rw [host.index_setIndex,hin] at hswept
          exact ⟨data :: erased,data.objs type ++ rel,by rw [hl,List.append_assoc],.cons ho hdata hdue hswept,
            fun _ _ _ _ _ _ _ => List.cons_ne_nil _ _⟩
      · rename_i hlate
        have hnext := walk_next ho hu htop hdata hda hcount (.refl _) fun n hn _ => hn
        refine (ih _ s l ho hnext).mono ?_ fun _ hf => hf
        rintro ⟨s',l'⟩ ⟨erased,rel,hl,hswept,hprogress⟩
        refine ⟨erased,rel,hl,hswept,?_⟩
        intro a' u' n ha' hu' hn hdue
        cases ha'
        rw [hu] at hu'
        cases hu'
        have hleft := due_left ho hu htop hlate hn hdue
        cases hb : u.left.top with
        | none =>
          cases hul : u.left with
          | nil => rw [hul] at hleft; cases hleft
          | node c l b r => rw [hul] at hb; cases hb
        | some b =>
          exact hprogress b.addr u.left n (by rw [hb]; rfl) (Tree.subtree?_left ho.addrs hu hb) hleft hdue

omit [Rebalance ExpiryNode] in
private theorem ahead_start (T : Tree ExpiryNode) : Ahead T.inorder T.inorder.length (T.top.map ExpiryNode.addr) := by
  intro a ha
  obtain ⟨n,hn,rfl⟩ := Option.map_eq_some_iff.mp ha
  exact ⟨n,Tree.mem_of_top hn,rfl,List.countP_le_length⟩

/-- A pass over a search tree: what it hands over was due, and if anything was due some node goes. -/
theorem objsExpire_swept (hframe : ∀ s o s', host.release type s o = .ok s' →
      (host.index s').root type = (host.index s).root type)
    (hrel : ∀ s o, host.release type s o ≠ .error .freedNode) (now : Nat) {s : σ}
    (ho : Orderly type ((host.index s).root type).inorder) :
    Ensures (objsExpire host.logged now type (s,[]))
      (fun r => ∃ erased,
        Swept type (now % 2^32) ((host.index s).root type).inorder ((host.index r.1).root type).inorder erased r.2 ∧
        ((∃ n ∈ ((host.index s).root type).inorder, n.msecs ≤ now % 2^32) → erased ≠ []))
      (· ≠ .freedNode) := by
  refine (objsExpireFrom_swept hframe hrel (now % 2^32) _ _ s [] ho (ahead_start _)).mono ?_ fun _ hf => hf
  rintro ⟨s',l⟩ ⟨erased,rel,rfl,hswept,hprogress⟩
  refine ⟨erased,hswept,?_⟩
  rintro ⟨n,hn,hdue⟩
  cases htop : ((host.index s).root type).top with
  | none =>
    cases hT : (host.index s).root type with
    | nil => rw [hT] at hn; cases hn
    | node c l b r => rw [hT] at htop; cases htop
  | some b => exact hprogress b.addr _ n (by rw [htop]; rfl) (Tree.subtree?_top htop) hn hdue

private theorem objsExpireFrom_fuel (hframe : ∀ s o s', host.release type s o = .ok s' →
      (host.index s').root type = (host.index s).root type) (t fuel k : Nat) (c : Option Ptr) (s : σ)
    (ho : Orderly type ((host.index s).root type).inorder) (hc : Ahead ((host.index s).root type).inorder fuel c) :
    objsExpireFrom host type t (fuel + k) c s = objsExpireFrom host type t fuel c s := by
  induction fuel generalizing c s with
  | zero =>
    obtain rfl := hc.ended
    cases k <;> rfl
  | succ fuel ih =>
    rw [Nat.add_right_comm]
    cases c with
    | none => rfl
    | some a =>
      obtain ⟨u,data,hu,htop,hdata,hda,hcount⟩ := walk_node ho hc
      simp only [objsExpireFrom,hu,htop]
      split
      · cases hx : (data.objs type).foldlM (expireObj host type) s with
        | error f => rfl
        | ok s' =>
          obtain ⟨e,he,_,ho',hnext⟩ := walk_erased hframe ho hu htop hdata hda hcount hx
          show (possiblyNodeFree (host.index s') type a >>= _) = (possiblyNodeFree (host.index s') type a >>= _)
          rw [he]
          rw [← host.index_setIndex s' e] at ho' hnext
          exact ih _ _ ho' hnext
      · exact ih _ s ho (walk_next ho hu htop hdata hda hcount (.refl _) fun n hn _ => hn)

/-- The bound on the number of turns never cuts a walk short: the walk ends by itself. -/
theorem objsExpire_ends (hframe : ∀ s o s', host.release type s o = .ok s' →
      (host.index s').root type = (host.index s).root type) (now k : Nat) {s : σ}
    (ho : Orderly type ((host.index s).root type).inorder) :
    objsExpireFrom host type (now % 2^32) (((host.index s).root type).inorder.length + k)
      (((host.index s).root type).top.map ExpiryNode.addr) s = objsExpire host now type s :=
  objsExpireFrom_fuel hframe _ _ _ _ s ho (ahead_start _)

/-- What every hand-over and every node removal preserves, a pass preserves. -/
theorem objsExpire_keeps (I : σ → Prop) (hobj : ∀ s o s', I s → expireObj host type s o = .ok s' → I s')
    (hfree : ∀ s a f e, I s → possiblyNodeFree (host.index s) type a = .ok (f,e) → I (host.setIndex s e)) {now : Nat}
    {s s' : σ} (hs : I s) (h : objsExpire host now type s = .ok s') : I s' := by
  have hwalk : ∀ (t fuel : Nat) (c : Option Ptr) (s : σ), I s → objsExpireFrom host type t fuel c s = .ok s' →
      I s' := by
    intro t fuel
    induction fuel with
    | zero =>
      intro c s hs h
      cases c <;> (cases h; exact hs)
    | succ fuel ih =>
      intro c s hs h
      cases c with
      | none =>
        cases h
        exact hs
      | some a =>
        simp only [objsExpireFrom] at h
        split at h
        · cases h
        · split at h
          · cases h
          · split at h
            · obtain ⟨u,hu,h⟩ := bind_ok h
              obtain ⟨⟨f,e⟩,he,h⟩ := bind_ok h
              have hi : I u := foldlM_result (fun _ => I) (fun o _ s s' hi => hobj s o s' hi) hs hu
              exact ih _ _ (hfree u a f e hi he) h
            · exact ih _ _ hs h
  exact hwalk _ _ _ s hs h

end Loop
end Memqueue
