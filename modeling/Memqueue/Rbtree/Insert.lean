import Memqueue.Rbtree.Holds

/-! rb_insert_color on a heap that holds a red-black tree with one red node too many. -/
open Memqueue.Tree
namespace Memqueue.RbHeap
variable {α : Type} [DecidableEq α] {h : RbHeap α} {s : Side} {a b node : α} {t u v x y z : Tree α} {p : Path α}
  {n : Nat}

/-- The second rotation, with the parent painted black and the grandparent red before it. -/
private theorem rotate_gparent {c d : Bool} (hh : h.Holds (plug p (fork s c (fork s d x a y) b z))) :
    ∃ h', rbRotate s.other ((h.setRed a false).setRed b true) b = some h' ∧
      h'.Holds (plug p (fork s false x a (fork s true y b z))) := by
  have h1 : (h.setRed a false).Holds (plug p (fork s c (fork s false x a y) b z)) :=
    holds_setRed (p := ⟨s,c,b,z⟩ :: p) hh
  have h2 : ((h.setRed a false).setRed b true).Holds (plug p (fork s true (fork s false x a y) b z)) := holds_setRed h1
  rw [← fork_other s true,← fork_other s false] at h2
  obtain ⟨h',hrot,h3⟩ := holds_rbRotate h2
  rw [fork_other,fork_other] at h3
  exact ⟨h',hrot,h3⟩

/-- The rotations that end the climb leave the node they were made for below a black parent. -/
private theorem rbInsertTurn_spec {f g : Frame α} (hh : h.Holds (plug (f :: g :: p) t)) (hf : f.red = true)
    (ht : t.top = some node) : ∃ h' node' q, rbInsertTurn g.side h node f.val g.val = some (h',node') ∧
    h'.Holds (plug p (turn f g t)) ∧
      h'.parent node' = some q ∧ h'.red q = false := by
  obtain ⟨sf,cf,a,u⟩ := f
  obtain ⟨s,cg,b,v⟩ := g
  obtain rfl : cf = true := hf
  have hplace : h.Holds (plug (⟨s,cg,b,v⟩ :: p) (fork sf true t a u)) := hh
  obtain ⟨-,-,hnear,hfar⟩ := hplace.read
  by_cases hs : sf = s
  · subst hs
    have hout : h.child a sf.other ≠ some node := by
      rw [hfar]
      exact fun he => hplace.disjoint (mem_of_top ht) (mem_of_top he)
    obtain ⟨h',hrot,hh'⟩ := rotate_gparent hh
    refine ⟨h',node,a,?_,?_,?_,?_⟩
    · simp [rbInsertTurn,hout,hrot]
    · simpa [turn] using hh'
    · exact Holds.parent (p := ⟨sf,false,a,_⟩ :: p) hh' ht
    · exact hh'.read.2.1
  · have hsf : sf = s.other := by cases s <;> cases sf <;> first | rfl | exact absurd rfl hs
    subst hsf
    have htf := fork_of_top s ht
    rw [htf,fork_other] at hplace
    obtain ⟨h1,hrot,hh1⟩ := holds_rbRotate hplace
    obtain ⟨h',hrot',hh'⟩ := rotate_gparent (p := p) hh1
    refine ⟨h',a,node,?_,?_,?_,?_⟩
    · rw [ht] at hnear
      simp [rbInsertTurn,hnear,hrot,hrot']
    · rw [htf]
      simpa [turn] using hh'
    · exact Holds.parent (p := ⟨s,false,node,_⟩ :: p) hh' (top_fork s _ _ _ _)
    · exact hh'.read.2.1

/-- The three paints of the turn with a red uncle. -/
private theorem holds_recolour {c d : Bool} {s' : Side} (hh : h.Holds (plug p (fork s c (fork s' d x a y) b v))) :
    (((h.paintBlack v.top).setRed a false).setRed b true).Holds
      (plug p (fork s true (fork s' false x a y) b (v.setRed false))) := by
  have h1 : (h.paintBlack v.top).Holds (plug p (fork s c (fork s' d x a y) b (v.setRed false))) := by
    rw [plug_fork_other] at hh ⊢
    exact hh.paintBlack
  exact holds_setRed (holds_setRed (p := ⟨s,c,b,v.setRed false⟩ :: p) h1)

private theorem loop_stop {fuel : Nat} (hq : ∀ q, h.parent node = some q → h.red q = false) (hfuel : 0 < fuel) :
    rbInsertColorLoop fuel h node = some h := by
  cases fuel with
  | zero => omega
  | succ fuel =>
    rw [rbInsertColorLoop]
    split
    · rfl
    · rename_i q hpar
      rw [if_neg]
      rw [hq q hpar]
      decide

/-- The loop at a red node with a red parent. -/
private theorem loop_clash {f g : Frame α} {fuel : Nat} (hh : h.Holds (plug (f :: g :: p) t)) (ht : t.top = some node)
    (hf : f.red = true) : rbInsertColorLoop (fuel + 1) h node =
      if g.sibling.isRed then
        rbInsertColorLoop fuel (((h.paintBlack g.sibling.top).setRed f.val false).setRed g.val true) g.val
      else (rbInsertTurn g.side h node f.val g.val).bind fun (h,node) => rbInsertColorLoop fuel h node := by
  have hf' : h.Holds (plug (g :: p) (fork f.side f.red t f.val f.sibling)) := hh
  have hg' : h.Holds (plug p (fork g.side g.red (fork f.side f.red t f.val f.sibling) g.val g.sibling)) := hh
  obtain ⟨hpar,hred,-,-⟩ := hf'.read
  obtain ⟨-,-,-,huncle⟩ := hg'.read
  have hside := hg'.side (.inl (by rw [top_fork]; exact Option.some_ne_none _))
  rw [top_fork] at hside
  rw [plug_fork_other] at hg'
  rw [rbInsertColorLoop,hh.parent ht]
  simp only [above]
  rw [hred,if_pos hf,hpar]
  simp only [above,Option.bind_eq_bind,Option.bind_some,hside]
  rw [huncle,hg'.isBlack]
  cases g.sibling.isRed <;> rfl

/-- Every turn of the loop does to the tree what one step of the repair does. -/
private theorem rbInsertColorLoop_spec {fuel : Nat} (hh : h.Holds (plug p t)) (ht : t.top = some node)
    (hc : t.isRed = true) (hp : Hole p n) (hfuel : p.length + 2 ≤ fuel) :
    ∃ h' u, rbInsertColorLoop fuel h node = some h' ∧ h'.Holds u ∧ insertFix p t = u.setRed false := by
  fun_induction insertFix p t generalizing h node n fuel with
  | case1 f g p t hf hg ih =>
    obtain ⟨fuel,rfl⟩ : ∃ k, fuel = k + 1 := ⟨fuel - 1,by omega⟩
    have hgb : g.red = false := (hp.cons.2.1 hf).2
    have hp := hp.cons.2.2
    rw [if_pos hf] at hp
    have hp := hp.cons.2.2
    rw [hgb,if_neg Bool.false_ne_true] at hp
    rw [loop_clash hh ht hf,if_pos hg]
    exact ih (holds_recolour hh) (top_fork _ _ _ _ _) (isRed_fork _ _ _ _ _) hp
      (show p.length + 2 ≤ fuel by simp only [List.length_cons] at hfuel; omega)
  | case2 f g p t hf hg =>
    obtain ⟨fuel,rfl⟩ : ∃ k, fuel = k + 1 := ⟨fuel - 1,by omega⟩
    obtain ⟨h',node',q,hturn,hh',hq,hblack⟩ := rbInsertTurn_spec hh hf ht
    refine ⟨h',_,?_,hh',rfl⟩
    rw [loop_clash hh ht hf,if_neg hg,hturn]
    refine loop_stop (fun q' hq' => ?_) (by omega)
    cases hq.symm.trans hq'
    exact hblack
  | case3 f g p t hf =>
    have hplace : h.Holds (plug (g :: p) (fork f.side f.red t f.val f.sibling)) := hh
    refine ⟨h,_,loop_stop ?_ (by omega),hh,rfl⟩
    intro q hq
    cases hq.symm.trans (hh.parent ht)
    exact hplace.read.2.1.trans (Bool.eq_false_iff.mpr hf)
  | case4 p t hp' =>
    refine ⟨h,_,loop_stop ?_ (by omega),hh,rfl⟩
    intro q hq
    have hpar := hq.symm.trans (hh.parent ht)
    rcases p with _ | ⟨f,_ | ⟨g,p⟩⟩
    · cases hpar
    · cases hpar
      have hplace : h.Holds (plug [] (fork f.side f.red t f.val f.sibling)) := hh
      refine hplace.read.2.1.trans (Bool.eq_false_iff.mpr fun hf => ?_)
      exact Bool.noConfusion (hp.cons.2.1 hf).2
    · exact absurd rfl (hp' f g p)

/-- rb_insert_color never reaches through NULL and does to the tree what the repair does. -/
theorem rbInsertColor_spec {fuel : Nat} (hh : h.Holds (plug p t)) (ht : t.top = some node) (hc : t.isRed = true)
    (hp : Hole p n) (hfuel : p.length + 2 ≤ fuel) :
    ∃ h', rbInsertColor fuel h node = some h' ∧ h'.Holds (insertFix p t) := by
  obtain ⟨h',u,hloop,hu,hfix⟩ := rbInsertColorLoop_spec hh ht hc hp hfuel
  have hroot : ∃ a, u.top = some a := by
    cases u with
    | nil =>
      have hnil := (inorder_insertFix p t).symm.trans (congrArg inorder hfix)
      have hmem := (inorder_plug_perm p t).mem_iff.mpr (List.mem_append_left _ (mem_of_top ht))
      rw [hnil] at hmem
      cases hmem
    | node => exact ⟨_,rfl⟩
  obtain ⟨a,ha⟩ := hroot
  refine ⟨h'.setRed a false,?_,?_⟩
  · simp [rbInsertColor,hloop,hu.1,ha]
  · rw [hfix]
    exact Holds.paint (p := []) hu ha

end Memqueue.RbHeap
