import Memqueue.Lib.Rebalancing

/-! rbtree.c as the rebalancing that the expiry index is run with. A tree does not say which leaf
was linked last, so the one clash of colours it can have is looked for. -/
namespace Memqueue

namespace Tree
variable {α : Type} {n : Nat} {p q : Path α} {t u : Tree α} {a : α} {sel : α → Bool}

/-- The place is below a red node. -/
def belowRed : Path α → Bool
  | [] => false
  | f :: _ => f.red

/-- The place of a red node below a red parent. -/
def clash : Path α → Tree α → Option (Path α × Tree α)
  | _, .nil => none
  | p, .node c l a r =>
    if c && belowRed p then some (p,.node c l a r)
    else (clash (⟨.left,c,a,r⟩ :: p) l).or (clash (⟨.right,c,a,l⟩ :: p) r)

def fixInserted (t : Tree α) : Tree α :=
  match clash [] t with
  | some (p,u) => insertFix p u
  | none => t.setRed false

/-- The place of the node pointed at. -/
def place (sel : α → Bool) : Path α → Tree α → Option (Path α × Tree α)
  | _, .nil => none
  | p, .node c l a r =>
    if sel a then some (p,.node c l a r)
    else (place sel (⟨.left,c,a,r⟩ :: p) l).or (place sel (⟨.right,c,a,l⟩ :: p) r)

/-- A pointer points at one node; a predicate that holds of several is outside of the code. -/
def eraseWhere (sel : α → Bool) (t : Tree α) : Tree α :=
  if t.inorder.countP sel = 1 then
    match place sel [] t with
    | some (p,u) => eraseAt p u
    | none => t
  else t.splice sel

section Insert

private theorem plug_of_clash (h : clash p t = some (q,u)) : plug q u = plug p t := by
  induction t generalizing p with
  | nil => cases h
  | node c l a r il ir =>
    rw [clash] at h
    split at h
    · cases h
      rfl
    · rcases Option.or_eq_some_iff.mp h with h | ⟨-,h⟩
      · exact il h
      · exact ir h

theorem inorder_fixInserted (t : Tree α) : (fixInserted t).inorder = t.inorder := by
  unfold fixInserted
  split
  · rename_i p u h
    rw [inorder_insertFix,plug_of_clash h,plug]
  · exact inorder_setRed _ _

private theorem clash_eq_none (ht : RedBlack n t) (hc : t.isRed = true → belowRed p = false) : clash p t = none := by
  induction ht generalizing p with
  | nil => rfl
  | black hl hr il ir =>
    rw [clash,il fun _ => rfl,ir fun _ => rfl]
    rfl
  | red hl hr hcl hcr il ir =>
    rw [clash,il fun h => absurd (h.symm.trans hcl) (by decide),ir fun h => absurd (h.symm.trans hcr) (by decide),
      hc rfl]
    rfl

private theorem hole_of_append (q : Path α) (h : Hole (q ++ p) n) : ∃ m, Hole p m := by
  induction q generalizing n with
  | nil => exact ⟨n,h⟩
  | cons f q ih =>
    have h := Hole.cons h
    exact ih h.2.2

private theorem belowRed_of_topRed (h : topRed p = false) : belowRed p = false := by
  cases p with
  | nil => rfl
  | cons f p => exact h

private theorem clash_fork (f : Frame α) (p : Path α) (t : Tree α) (h : Hole (f :: p) n) :
    clash p (fork f.side f.red t f.val f.sibling) = clash (f :: p) t := by
  obtain ⟨hu,hred,-⟩ := h.cons
  obtain ⟨s,c,a,u⟩ := f
  have hno : (c && belowRed p) = false := by
    cases c with
    | false => rfl
    | true => exact belowRed_of_topRed (hred rfl).2
  have hsib (f : Frame α) (hf : f.red = c) : clash (f :: p) u = none := by
    refine clash_eq_none hu fun hc => ?_
    rw [belowRed,hf]
    cases c with
    | false => rfl
    | true => exact absurd (hc.symm.trans (hred rfl).1) (by decide)
  cases s with
  | left =>
    dsimp only [fork]
    rw [clash,hno,if_neg Bool.false_ne_true,hsib _ rfl,Option.or_none]
  | right =>
    dsimp only [fork]
    rw [clash,hno,if_neg Bool.false_ne_true,hsib _ rfl,Option.none_or]

/-- Inside a tree that is balanced around a place, the search goes straight to the place. -/
private theorem clash_plug (q p : Path α) (t : Tree α) (h : Hole (q ++ p) n) :
    clash p (plug q t) = clash (q ++ p) t := by
  induction q using List.reverseRecOn generalizing p with
  | nil => rfl
  | append_singleton q f ih =>
    rw [List.append_assoc,List.singleton_append] at h ⊢
    obtain ⟨m,hm⟩ := hole_of_append q h
    rw [plug_append,plug,plug,clash_fork f p _ hm,ih _ h]

/-- On a leaf just linked into a balanced tree the search for the clash does no harm. -/
theorem fixInserted_link (h : Balanced (plug p .nil)) :
    fixInserted (plug p (.node true .nil a .nil)) = insertFix p (.node true .nil a .nil) := by
  obtain ⟨n,hp,-⟩ := balanced_plug.mp h
  have hfind := clash_plug p [] (.node true .nil a .nil) (by rw [List.append_nil]; exact hp)
  rw [List.append_nil] at hfind
  rw [fixInserted,hfind,clash]
  cases hb : belowRed p with
  | true => rfl
  | false =>
    dsimp only [Bool.and_false,Bool.false_eq_true,if_false,clash,Option.or]
    rcases p with _ | ⟨f,_ | ⟨g,p⟩⟩
    · rfl
    · rfl
    · rw [belowRed] at hb
      rw [insertFix,hb]
      rfl

theorem balanced_fixInserted (h : Balanced (plug p .nil)) :
    Balanced (fixInserted (plug p (.node true .nil a .nil))) := by
  obtain ⟨n,hp,hnil,-⟩ := balanced_plug.mp h
  rw [fixInserted_link h]
  cases hnil
  exact balanced_insertFix hp (.red .nil .nil rfl rfl) rfl

end Insert

section Erase

theorem place_spec (h : place sel p t = some (q,u)) :
    plug q u = plug p t ∧ ∃ c l a r, u = .node c l a r ∧ sel a = true := by
  induction t generalizing p with
  | nil => cases h
  | node c l a r il ir =>
    rw [place] at h
    split at h
    · rename_i hs
      cases h
      exact ⟨rfl,c,l,a,r,rfl,hs⟩
    · rcases Option.or_eq_some_iff.mp h with h | ⟨-,h⟩
      · exact il h
      · exact ir h

theorem place_eq_none (h : place sel p t = none) : t.inorder.countP sel = 0 := by
  induction t generalizing p with
  | nil => rfl
  | node c l a r il ir =>
    rw [place] at h
    split at h
    · cases h
    · rename_i hs
      obtain ⟨hl,hr⟩ := Option.or_eq_none_iff.mp h
      rw [inorder_node,List.countP_append,List.countP_cons_of_neg hs,il hl,ir hr]

private theorem splice_of_none (h : t.inorder.countP sel = 0) : t.splice sel = t := by
  induction t with
  | nil => rfl
  | node c l a r il ir =>
    rw [inorder_node,List.countP_append,List.countP_cons] at h
    rw [splice,if_neg,il (by omega),ir (by omega)]
    intro hs
    rw [if_pos hs] at h
    omega

private theorem filter_of_none {xs : List α} (h : xs.countP sel = 0) : xs.filter (fun a => !sel a) = xs := by
  rw [List.countP_eq_zero] at h
  exact List.filter_eq_self.mpr fun a ha => by simpa using h a ha

theorem inorder_eraseWhere (sel : α → Bool) (t : Tree α) :
    (eraseWhere sel t).inorder = t.inorder.filter (fun a => !sel a) := by
  unfold eraseWhere
  split
  · rename_i hone
    split
    · rename_i p u h
      obtain ⟨hp,c,l,a,r,rfl,hs⟩ := place_spec h
      have ht : t.inorder = before p ++ (l.inorder ++ a :: r.inorder) ++ after p := by
        rw [← inorder_node c,← inorder_plug,hp,plug]
      rw [ht,List.countP_append,List.countP_append,List.countP_append,List.countP_cons_of_pos hs] at hone
      rw [inorder_eraseAt,ht]
      simp only [List.filter_append,List.filter_cons,hs,Bool.not_true,Bool.false_eq_true,if_false]
      rw [filter_of_none (by omega),filter_of_none (by omega),filter_of_none (by omega),filter_of_none (by omega)]
    · rename_i h
      rw [place_eq_none h] at hone
      omega
  · exact inorder_splice sel t

/-- Taking out at most one node keeps the tree balanced. -/
theorem balanced_eraseWhere (h : t.Balanced) (hone : t.inorder.countP sel ≤ 1) : (eraseWhere sel t).Balanced := by
  unfold eraseWhere
  split
  · split
    · rename_i p u hplace
      obtain ⟨hp,c,l,a,r,rfl,-⟩ := place_spec hplace
      rw [plug] at hp
      exact balanced_eraseAt (hp ▸ h)
    · exact h
  · rw [splice_of_none (by omega)]
    exact h

end Erase

end Tree

/-- rb_insert_color and rb_erase. -/
@[reducible] def Rebalance.rbtree (α : Type) : Rebalance α where
  insertColor := Tree.fixInserted
  erase := Tree.eraseWhere
  inorder_insertColor := Tree.inorder_fixInserted
  inorder_erase := Tree.inorder_eraseWhere

end Memqueue
