import Memqueue.Rbtree.Heap

/-! When a heap holds a tree, and what one rotation or one repaint does to the tree it holds.
A place in the tree is a path, so a change below it leaves the path's own nodes alone. -/
open Memqueue.Tree
namespace Memqueue

namespace Tree
variable {α : Type}

/-- The parent of the subtree a path leads up from. -/
def above : Path α → Option α
  | [] => none
  | f :: _ => some f.val

/-- The nodes of a path and of the subtrees beside it. -/
def nodes : Path α → List α
  | [] => []
  | f :: p => f.val :: (f.sibling.inorder ++ nodes p)

theorem above_ne {p : Path α} {q : α} (hq : q ∉ nodes p) : above p ≠ some q := by
  intro he
  cases p with
  | nil => cases he
  | cons f p =>
    cases he
    exact hq List.mem_cons_self

theorem fork_of_top (s : Side) {t : Tree α} {a : α} (h : t.top = some a) :
    t = fork s t.isRed (t.child s) a (t.child s.other) := by
  cases t with
  | nil => cases h
  | node c l b r =>
    cases h
    exact node_eq_fork s c a l r

/-- The same tree with the place moved to the other child. -/
theorem plug_fork_other (p : Path α) (s : Side) (c : Bool) (x y : Tree α) (a : α) :
    plug p (fork s c x a y) = plug (⟨s.other,c,a,x⟩ :: p) y := by
  rw [plug,fork_other]

theorem nodes_append (q p : Path α) : nodes (q ++ p) = nodes q ++ nodes p := by
  induction q with
  | nil => rfl
  | cons f q ih => simp [nodes,ih]

/-- The top of a tree around a place below its root is a node of the path. -/
theorem top_plug_mem (f : Frame α) (p : Path α) (t : Tree α) :
    ∃ r ∈ nodes (f :: p), (plug (f :: p) t).top = some r := by
  induction p generalizing f t with
  | nil => exact ⟨f.val,by simp [nodes],top_fork _ _ _ _ _⟩
  | cons g p ih =>
    obtain ⟨r,hr,htop⟩ := ih g (fork f.side f.red t f.val f.sibling)
    exact ⟨r,by simp only [nodes,List.mem_cons,List.mem_append] at hr ⊢; tauto,htop⟩

theorem inorder_fork_perm (s : Side) (c : Bool) (x y : Tree α) (a : α) :
    (fork s c x a y).inorder.Perm (a :: (x.inorder ++ y.inorder)) := by
  cases s
  · exact List.perm_middle
  · exact List.perm_middle.trans (List.perm_append_comm.cons a)

theorem inorder_plug_perm (p : Path α) (t : Tree α) : (plug p t).inorder.Perm (t.inorder ++ nodes p) := by
  induction p generalizing t with
  | nil => simp [plug,nodes]
  | cons f p ih =>
    refine (ih _).trans (((inorder_fork_perm _ _ _ _ _).append_right _).trans ?_)
    rw [nodes]
    simp only [List.cons_append,List.append_assoc]
    exact List.perm_middle.symm

end Tree

namespace RbHeap
variable {α : Type} {h h' : RbHeap α} {s : Side} {c d : Bool} {a b : α} {x y z t : Tree α} {p : Path α}

/-- The fields below `par` are those of the tree. -/
def Has (h : RbHeap α) : Option α → Tree α → Prop
  | _, .nil => True
  | par, .node c l a r => h.parent a = par ∧ h.red a = c ∧ h.child a .left = l.top ∧ h.child a .right = r.top ∧
      h.Has (some a) l ∧ h.Has (some a) r

/-- The fields on a path and beside it, with `q` linked at its lower end. -/
def HasPath (h : RbHeap α) : Path α → Option α → Prop
  | [], q => h.root = q
  | f :: p, q => (h.parent f.val = above p ∧ h.red f.val = f.red ∧ h.child f.val f.side = q ∧
      h.child f.val f.side.other = f.sibling.top ∧ h.Has (some f.val) f.sibling) ∧ h.HasPath p (some f.val)

/-- The root leads to exactly this tree, no node of which stands in it twice. -/
def Holds (h : RbHeap α) (t : Tree α) : Prop := h.root = t.top ∧ h.Has none t ∧ t.inorder.Nodup

theorem has_fork {par : Option α} : h.Has par (fork s c x a y) ↔ h.parent a = par ∧ h.red a = c ∧
    h.child a s = x.top ∧ h.child a s.other = y.top ∧ h.Has (some a) x ∧ h.Has (some a) y := by
  cases s
  · exact Iff.rfl
  · rw [fork,Has]
    constructor
    · rintro ⟨h1,h2,h3,h4,h5,h6⟩
      exact ⟨h1,h2,h4,h3,h6,h5⟩
    · rintro ⟨h1,h2,h3,h4,h5,h6⟩
      exact ⟨h1,h2,h4,h3,h6,h5⟩

private theorem has_plug : h.root = (plug p t).top ∧ h.Has none (plug p t) ↔ h.HasPath p t.top ∧ h.Has (above p) t := by
  induction p generalizing t with
  | nil => exact Iff.rfl
  | cons f p ih =>
    rw [plug,ih,top_fork,has_fork,HasPath,above]
    tauto

/-- A heap that holds a tree, seen from a place in it. -/
theorem holds_plug : h.Holds (plug p t) ↔
    h.HasPath p t.top ∧ h.Has (above p) t ∧ (t.inorder ++ nodes p).Nodup := by
  rw [Holds,← and_assoc,has_plug,(inorder_plug_perm p t).nodup_iff,and_assoc]

/-- What the fields of a node say about its place. -/
theorem Holds.read (hh : h.Holds (plug p (fork s c x a y))) :
    h.parent a = above p ∧ h.red a = c ∧ h.child a s = x.top ∧ h.child a s.other = y.top := by
  obtain ⟨-,ht,-⟩ := holds_plug.mp hh
  obtain ⟨h1,h2,h3,h4,-⟩ := has_fork.mp ht
  exact ⟨h1,h2,h3,h4⟩

/-- Two heaps with the same fields at one address. -/
def Same (h h' : RbHeap α) (q : α) : Prop := h'.parent q = h.parent q ∧ h'.red q = h.red q ∧ h'.child q = h.child q

theorem Has.frame {par : Option α} (hh : h.Has par t) (hs : ∀ q ∈ t.inorder, Same h h' q) : h'.Has par t := by
  induction t generalizing par with
  | nil => trivial
  | node c l a r il ir =>
    obtain ⟨hpar,hred,hl,hr,hhl,hhr⟩ := hh
    obtain ⟨ha1,ha2,ha3⟩ := hs a (by simp)
    refine ⟨ha1.trans hpar,ha2.trans hred,?_,?_,il hhl ?_,ir hhr ?_⟩
    · rw [ha3]
      exact hl
    · rw [ha3]
      exact hr
    · exact fun q hq => hs q (by simp [hq])
    · exact fun q hq => hs q (by simp [hq])

theorem HasPath.frame {q : Option α} (hh : h.HasPath p q) (hroot : h'.root = h.root) (hs : ∀ q ∈ nodes p, Same h h' q) :
    h'.HasPath p q := by
  induction p generalizing q with
  | nil => exact hroot.trans hh
  | cons f p ih =>
    obtain ⟨⟨hpar,hred,hc,ho,hu⟩,hp⟩ := hh
    obtain ⟨h1,h2,h3⟩ := hs f.val (by simp [nodes])
    refine ⟨⟨h1.trans hpar,h2.trans hred,?_,?_,hu.frame ?_⟩,ih hp ?_⟩
    · rw [h3]
      exact hc
    · rw [h3]
      exact ho
    · exact fun q hq => hs q (by simp [nodes,hq])
    · exact fun q hq => hs q (by simp [nodes,hq])

/-- A subtree moved as a whole: only the parent of its top changes. -/
theorem Has.moved [DecidableEq α] {par par' : Option α} (hh : h.Has par t) (hn : t.inorder.Nodup)
    (hs : ∀ q ∈ t.inorder, h'.red q = h.red q ∧ h'.child q = h.child q ∧
      h'.parent q = if t.top = some q then par' else h.parent q) : h'.Has par' t := by
  cases t with
  | nil => trivial
  | node c l a r =>
    obtain ⟨hpar,hred,hl,hr,hhl,hhr⟩ := hh
    obtain ⟨ha1,ha2,ha3⟩ := hs a (by simp)
    rw [inorder_node,List.perm_middle.nodup_iff,List.nodup_cons,List.mem_append,not_or] at hn
    have hbelow (q : α) (hq : q ∈ l.inorder ∨ q ∈ r.inorder) : Same h h' q := by
      obtain ⟨h1,h2,h3⟩ := hs q (by simp; tauto)
      have hne : (node c l a r).top ≠ some q := fun he => by
        cases he
        tauto
      rw [if_neg hne] at h3
      exact ⟨h3,h1,h2⟩
    refine ⟨ha3.trans (if_pos rfl),ha1.trans hred,?_,?_,hhl.frame ?_,hhr.frame ?_⟩
    · rw [ha2]
      exact hl
    · rw [ha2]
      exact hr
    · exact fun q hq => hbelow q (.inl hq)
    · exact fun q hq => hbelow q (.inr hq)

theorem Same.trans {k : RbHeap α} {q : α} (h1 : Same h h' q) (h2 : Same h' k q) : Same h k q :=
  ⟨h2.1.trans h1.1,h2.2.1.trans h1.2.1,h2.2.2.trans h1.2.2⟩

theorem Holds.frame (hh : h.Holds t) (hroot : h'.root = h.root) (hs : ∀ q ∈ t.inorder, Same h h' q) : h'.Holds t :=
  ⟨hroot.trans hh.1,hh.2.1.frame hs,hh.2.2⟩

section Changes
variable [DecidableEq α] {q : α} {r : Option α}

theorem same_setParent (hne : q ≠ a) : Same h (h.setParent a r) q := ⟨by simp [hne],rfl,rfl⟩

theorem same_setRed (hne : q ≠ a) : Same h (h.setRed a c) q := ⟨rfl,by simp [hne],rfl⟩

theorem same_setChild (hne : q ≠ a) : Same h (h.setChild a s r) q := ⟨rfl,rfl,setChild_of_ne h s r hne⟩

theorem same_relink {par new : Option α} {old : α} (hne : par ≠ some q) : Same h (h.relink s par old new) q := by
  cases par with
  | none => exact ⟨rfl,rfl,rfl⟩
  | some f =>
    have hne : q ≠ f := fun he => hne (congrArg some he.symm)
    dsimp only [relink]
    split
    · exact same_setChild hne
    · exact same_setChild hne

theorem relink_parent {par new : Option α} {old : α} : (h.relink s par old new).parent = h.parent := by
  cases par with
  | none => rfl
  | some f => rw [relink]; split <;> rfl

theorem relink_red {par new : Option α} {old : α} : (h.relink s par old new).red = h.red := by
  cases par with
  | none => rfl
  | some f => rw [relink]; split <;> rfl

theorem relink_root {par new : Option α} {old : α} :
    (h.relink s par old new).root = par.elim new (fun _ => h.root) := by
  cases par with
  | none => rfl
  | some f => rw [relink]; split <;> rfl

theorem relink_child_congr {par new : Option α} {old : α} (hc : h'.child q = h.child q) :
    (h'.relink s par old new).child q = (h.relink s par old new).child q := by
  cases par with
  | none => exact hc
  | some f =>
    by_cases hq : q = f
    · subst hq
      simp only [relink,hc]
      split <;> simp [setChild,hc]
    · have hne : some f ≠ some q := fun he => hq (Option.some.inj he).symm
      rw [(same_relink hne).2.2,(same_relink hne).2.2,hc]

/-- Relinking a path's lower end. -/
theorem HasPath.relink {old : α} {new : Option α} (hh : h.HasPath p (some old)) (hn : (nodes p).Nodup)
    (hold : old ∉ nodes p) : (h.relink s (above p) old new).HasPath p new := by
  cases p with
  | nil => rfl
  | cons f p =>
    obtain ⟨⟨hpar,hred,hc,ho,hu⟩,hp⟩ := hh
    rw [nodes,List.mem_cons,List.mem_append,not_or,not_or] at hold
    rw [nodes,List.nodup_cons,List.mem_append,not_or] at hn
    obtain ⟨hfu,hfp⟩ := hn.1
    have hother : f.sibling.top ≠ some old := fun he => hold.2.1 (mem_of_top he)
    have hlink : h.relink s (above (f :: p)) old new = h.setChild f.val f.side new := by
      dsimp only [above,RbHeap.relink]
      by_cases hs : f.side = s
      · rw [← hs,if_pos hc]
      · have hs : s = f.side.other := by cases s <;> cases hf : f.side <;> simp_all [Side.other]
        rw [hs,Side.other_other,if_neg]
        rw [ho]
        exact hother
    rw [hlink]
    refine ⟨⟨hpar,hred,setChild_self _ _ _ _,?_,hu.frame ?_⟩,hp.frame rfl ?_⟩
    · rw [setChild_other]
      exact ho
    · exact fun q hq => same_setChild fun he => hfu (he ▸ hq)
    · exact fun q hq => same_setChild fun he => hfp (he ▸ hq)

theorem same_adopt {child : Option α} (hne : child ≠ some q) : Same h (h.adopt child r) q := by
  cases child with
  | none => exact ⟨rfl,rfl,rfl⟩
  | some a => exact same_setParent fun he => hne (congrArg some he.symm)

theorem adopt_root {child : Option α} : (h.adopt child r).root = h.root := by cases child <;> rfl

theorem adopt_red {child : Option α} : (h.adopt child r).red = h.red := by cases child <;> rfl

theorem adopt_child {child : Option α} : (h.adopt child r).child = h.child := by cases child <;> rfl

theorem adopt_parent {child : Option α} : (h.adopt child r).parent q = if child = some q then r else h.parent q := by
  cases child with
  | none => rfl
  | some a =>
    simp only [adopt,setParent_parent,Option.some.injEq]
    exact if_congr eq_comm rfl rfl

theorem rotateInner_root : (h.rotateInner s a b).root = h.root := by simp [rotateInner,adopt_root]

theorem rotateInner_red : (h.rotateInner s a b).red = h.red := by simp [rotateInner,adopt_red]

theorem rotateInner_parent : (h.rotateInner s a b).parent q =
    if q = b then h.parent a else if h.child b s = some q then some a else h.parent q := by
  simp [rotateInner,adopt_parent]

theorem rotateInner_child (hqa : q ≠ a) (hqb : q ≠ b) : (h.rotateInner s a b).child q = h.child q := by
  simp [rotateInner,adopt_child,setChild_of_ne,hqa,hqb]

theorem same_rotateInner (hqa : q ≠ a) (hqb : q ≠ b) (hinner : h.child b s ≠ some q) : Same h (h.rotateInner s a b) q :=
  ⟨by rw [rotateInner_parent,if_neg hqb,if_neg hinner],congrFun rotateInner_red q,rotateInner_child hqa hqb⟩

theorem rotateInner_near (hne : a ≠ b) : (h.rotateInner s a b).child a s = h.child a s ∧
    (h.rotateInner s a b).child a s.other = h.child b s := by
  have hs := setChild_other (h := h) (a := a) (s := s.other) (q := h.child b s)
  rw [Side.other_other] at hs
  simp [rotateInner,adopt_child,setChild_of_ne,hne,hs]

theorem rotateInner_far (hne : a ≠ b) : (h.rotateInner s a b).child b s = some a ∧
    (h.rotateInner s a b).child b s.other = h.child b s.other := by
  simp [rotateInner,adopt_child,setChild_of_ne,hne.symm]

/-- A rotation on the heap is the rotation of the tree it holds. -/
theorem holds_rbRotate (hh : h.Holds (plug p (fork s c x a (fork s d y b z)))) :
    ∃ h', rbRotate s h a = some h' ∧ h'.Holds (plug p (fork s d (fork s c x a y) b z)) := by
  obtain ⟨hp,ht,hnodup⟩ := holds_plug.mp hh
  obtain ⟨hpar,hred,hx,hb,hhx,hhb⟩ := has_fork.mp ht
  rw [top_fork] at hb hp
  obtain ⟨hpb,hrb,hy,hz,hhy,hhz⟩ := has_fork.mp hhb
  have hperm := ((inorder_fork_perm s c x (fork s d y b z) a).trans
    (((inorder_fork_perm s d y z b).append_left _).cons a)).append_right (nodes p)
  have hdis := hperm.nodup_iff.mp hnodup
  simp only [List.cons_append,List.nodup_cons,List.nodup_append,List.mem_append,List.mem_cons,not_or] at hdis
  obtain ⟨⟨⟨hax,hab,hay,haz⟩,hap⟩,⟨hnx,⟨⟨hby,hbz⟩,hny,hnz,hyz⟩,hxr⟩,hnp,hout⟩ := hdis
  have hbp : b ∉ nodes p := fun hq => hout b (.inr (.inl rfl)) b hq rfl
  have hytop (q : α) (hq : h.child b s = some q) : q ∈ y.inorder := mem_of_top (hy.symm.trans hq)
  have hinner (q : α) (hqa : q ≠ a) (hqb : q ≠ b) (hqy : q ∉ y.inorder) : Same h (h.rotateInner s a b) q :=
    same_rotateInner hqa hqb fun he => hqy (hytop q he)
  have hsame (q : α) (hqa : q ≠ a) (hqp : q ∉ nodes p) : Same (h.rotateInner s a b)
      (((h.rotateInner s a b).relink s (h.parent a) a (some b)).setParent a (some b)) q := by
    rw [hpar]
    exact (same_relink (above_ne hqp)).trans (same_setParent hqa)
  have hsubtree (q : α) (hqa : q ≠ a) (hqb : q ≠ b) (hqy : q ∉ y.inorder) (hqp : q ∉ nodes p) :=
    (hinner q hqa hqb hqy).trans (hsame q hqa hqp)
  obtain ⟨hb1,hb2,hb3⟩ := hsame b (Ne.symm hab) hbp
  obtain ⟨hnear,hfar⟩ := rotateInner_near (h := h) (s := s) hab
  obtain ⟨hdown,hkept⟩ := rotateInner_far (h := h) (s := s) hab
  obtain ⟨-,ha2,ha3⟩ : Same (h.rotateInner s a b) ((h.rotateInner s a b).relink s (above p) a (some b)) a :=
    same_relink (above_ne hap)
  refine ⟨_,by rw [rbRotate,hb]; rfl,holds_plug.mpr ⟨?_,has_fork.mpr ⟨?_,?_,?_,?_,?_,?_⟩,?_⟩⟩
  · rw [top_fork,hpar]
    refine ((hp.frame rotateInner_root fun q hq => hinner q ?_ ?_ ?_).relink ?_ ?_).frame rfl ?_
    · exact fun he => hap (he ▸ hq)
    · exact fun he => hbp (he ▸ hq)
    · exact fun hqy => hout q (.inr (.inr (.inl hqy))) q hq rfl
    · exact hnp
    · exact hap
    · exact fun q hq => same_setParent fun he => hap (he ▸ hq)
  · rw [hb1,rotateInner_parent,if_pos rfl,hpar]
  · rw [hb2,rotateInner_red,hrb]
  · rw [hb3,hdown,top_fork]
  · rw [hb3,hkept,hz]
  · refine has_fork.mpr ⟨by simp,?_,?_,?_,hhx.frame ?_,hhy.moved hny ?_⟩
    · rw [setParent_red,hpar,ha2,rotateInner_red,hred]
    · rw [setParent_child,hpar,ha3,hnear,hx]
    · rw [setParent_child,hpar,ha3,hfar,hy]
    · intro q hq
      apply hsubtree
      · exact fun he => hax (he ▸ hq)
      · exact fun he => hxr q hq q (.inl he) rfl
      · exact fun hqy => hxr q hq q (.inr (.inl hqy)) rfl
      · exact fun hqp => hout q (.inl hq) q hqp rfl
    · intro q hq
      have hqa : q ≠ a := fun he => hay (he ▸ hq)
      have hqb : q ≠ b := fun he => hby (he ▸ hq)
      obtain ⟨h1,h2,h3⟩ := hsame q hqa fun hqp => hout q (.inr (.inr (.inl hq))) q hqp rfl
      refine ⟨h2.trans (congrFun rotateInner_red q),h3.trans (rotateInner_child hqa hqb),?_⟩
      rw [h1,rotateInner_parent,if_neg hqb,hy]
  · refine hhz.frame fun q hq => ?_
    apply hsubtree
    · exact fun he => haz (he ▸ hq)
    · exact fun he => hbz (he ▸ hq)
    · exact fun hqy => hyz q hqy q hq rfl
    · exact fun hqp => hout q (.inr (.inr (.inr hq))) q hqp rfl
  · refine (List.Perm.append_right _ ?_).nodup_iff.mp hnodup
    cases s <;> simp [fork,List.append_assoc]

/-- Painting a node paints it in the tree. -/
theorem holds_setRed (hh : h.Holds (plug p (fork s c x a y))) : (h.setRed a d).Holds (plug p (fork s d x a y)) := by
  obtain ⟨hp,ht,hnodup⟩ := holds_plug.mp hh
  obtain ⟨hpar,hred,hx,hy,hhx,hhy⟩ := has_fork.mp ht
  rw [top_fork] at hp
  have hdis := (((inorder_fork_perm s c x y a).append_right (nodes p)).nodup_iff.mp hnodup)
  simp only [List.cons_append,List.nodup_cons,List.mem_append,not_or] at hdis
  obtain ⟨⟨⟨hax,hay⟩,hap⟩,-⟩ := hdis
  refine holds_plug.mpr ⟨?_,has_fork.mpr ⟨hpar,by simp,hx,hy,hhx.frame ?_,hhy.frame ?_⟩,?_⟩
  · rw [top_fork]
    exact hp.frame rfl fun q hq => same_setRed fun he => hap (he ▸ hq)
  · exact fun q hq => same_setRed fun he => hax (he ▸ hq)
  · exact fun q hq => same_setRed fun he => hay (he ▸ hq)
  · rwa [inorder_fork_congr s d c x y a rfl rfl]

/-- A node without a second child is cut out of the chain of links. -/
theorem holds_unlink (hh : h.Holds (plug p (fork s c t a .nil))) :
    ((h.adopt t.top (h.parent a)).relink .left (h.parent a) a t.top).Holds (plug p t) := by
  rw [hh.read.1]
  obtain ⟨hp,ht,hnodup⟩ := holds_plug.mp hh
  obtain ⟨hpar,hred,hx,hy,hht,-⟩ := has_fork.mp ht
  rw [top_fork] at hp
  have hdis := (((inorder_fork_perm s c t .nil a).append_right (nodes p)).nodup_iff.mp hnodup)
  simp only [inorder_nil,List.append_nil,List.cons_append,List.nodup_cons,List.mem_append,not_or] at hdis
  obtain ⟨⟨hat,hap⟩,hn⟩ := hdis
  obtain ⟨hnt,hnp,hout⟩ := List.nodup_append.mp hn
  have hadopt (q : α) (hq : q ∈ nodes p) : Same h (h.adopt t.top (above p)) q :=
    same_adopt fun he => hout q (mem_of_top he) q hq rfl
  refine holds_plug.mpr ⟨(hp.frame adopt_root hadopt).relink hnp hap,hht.moved hnt ?_,hn⟩
  intro q hq
  obtain ⟨h1,h2,h3⟩ : Same (h.adopt t.top (above p)) ((h.adopt t.top (above p)).relink .left (above p) a t.top) q :=
    same_relink (above_ne fun hqp => hout q hq q hqp rfl)
  exact ⟨h2.trans (congrFun adopt_red q),h3.trans (congrFun adopt_child q),h1.trans adopt_parent⟩

/-- The fields after rb_replace_node, when the victim is not linked to itself. -/
theorem rbReplaceNode_fields (hpar : h.parent a ≠ some a) (hl : h.child a .left ≠ some a)
    (hr : h.child a .right ≠ some a)
    (q : α) : (h.rbReplaceNode a b).parent q = (if q = b then h.parent a else if h.child a .right = some q then some b
        else if h.child a .left = some q then some b else h.parent q) ∧
      (h.rbReplaceNode a b).red q = (if q = b then h.red a else h.red q) ∧
      (h.rbReplaceNode a b).child q =
        if q = b then h.child a else (h.relink .left (h.parent a) a (some b)).child q := by
  have hkept : (h.relink .left (h.parent a) a (some b)).child a = h.child a := (same_relink hpar).2.2
  refine ⟨?_,?_,?_⟩
  · simp [rbReplaceNode,hkept,adopt_parent,adopt_child,relink_parent,hl,hr,Function.update_apply]
  · simp [rbReplaceNode,adopt_red,relink_red,Function.update_apply]
  · simp [rbReplaceNode,hkept,adopt_child,Function.update_apply]

theorem rbReplaceNode_root : (h.rbReplaceNode a b).root = (h.relink .left (h.parent a) a (some b)).root :=
  adopt_root.trans adopt_root

/-- A node outside the tree takes the place of one inside. -/
theorem holds_rbReplaceNode (hh : h.Holds (plug p (.node c x a y))) (hb : b ∉ (plug p (.node c x a y)).inorder) :
    (h.rbReplaceNode a b).Holds (plug p (.node c x b y)) := by
  rw [(inorder_plug_perm p _).mem_iff,List.mem_append,not_or] at hb
  obtain ⟨hbt,hbp⟩ := hb
  obtain ⟨hp,⟨hpar,hred,hx,hy,hhx,hhy⟩,hnodup⟩ := holds_plug.mp hh
  have hperm (e : α) := (inorder_fork_perm .left c x y e).append_right (nodes p)
  have hdis := (hperm a).nodup_iff.mp hnodup
  simp only [inorder_node,List.mem_append,List.mem_cons,not_or] at hbt
  simp only [List.cons_append,List.nodup_cons,List.mem_append,not_or] at hdis
  obtain ⟨hbx,hba,hby⟩ := hbt
  obtain ⟨⟨⟨hax,hay⟩,hap⟩,hn⟩ := hdis
  obtain ⟨hnt,hnp,hout⟩ := List.nodup_append.mp hn
  obtain ⟨hnx,hny,hxy⟩ := List.nodup_append.mp hnt
  have hpath : (h.relink .left (h.parent a) a (some b)).HasPath p (some b) := by
    rw [hpar]
    exact hp.relink hnp hap
  have hself : h.parent a ≠ some a := by
    rw [hpar]
    exact above_ne hap
  have hfields := rbReplaceNode_fields (b := b) hself (by rw [hx]; exact fun he => hax (mem_of_top he))
    (by rw [hy]; exact fun he => hay (mem_of_top he))
  rw [hx,hy,hpar,hred] at hfields
  have hsub (q : α) (hq : q ∉ nodes p) : (h.relink .left (above p) a (some b)).child q = h.child q :=
    (same_relink (above_ne hq)).2.2
  obtain ⟨h1,h2,h3⟩ := hfields b
  rw [if_pos rfl] at h1 h2 h3
  refine holds_plug.mpr ⟨hpath.frame rbReplaceNode_root ?_,⟨h1,h2,?_,?_,?_,?_⟩,?_⟩
  · intro q hq
    have hqb : q ≠ b := fun he => hbp (he ▸ hq)
    have hqx : x.top ≠ some q := fun he => hout q (List.mem_append_left _ (mem_of_top he)) q hq rfl
    have hqy : y.top ≠ some q := fun he => hout q (List.mem_append_right _ (mem_of_top he)) q hq rfl
    obtain ⟨h1,h2,h3⟩ := hfields q
    simp only [if_neg hqb,if_neg hqx,if_neg hqy] at h1 h2 h3
    exact ⟨by rw [h1,relink_parent],by rw [h2,relink_red],by rw [h3,hpar]⟩
  · rw [h3,hx]
  · rw [h3,hy]
  · refine hhx.moved hnx fun q hq => ?_
    have hqb : q ≠ b := fun he => hbx (he ▸ hq)
    have hqy : y.top ≠ some q := fun he => hxy q hq q (mem_of_top he) rfl
    obtain ⟨h1,h2,h3⟩ := hfields q
    simp only [if_neg hqb,if_neg hqy] at h1 h2 h3
    exact ⟨h2,h3.trans (hsub q fun hqp => hout q (List.mem_append_left _ hq) q hqp rfl),h1⟩
  · refine hhy.moved hny fun q hq => ?_
    have hqb : q ≠ b := fun he => hby (he ▸ hq)
    have hqx : x.top ≠ some q := fun he => hxy q (mem_of_top he) q hq rfl
    obtain ⟨h1,h2,h3⟩ := hfields q
    simp only [if_neg hqb,if_neg hqx] at h1 h2 h3
    exact ⟨h2,h3.trans (hsub q fun hqp => hout q (List.mem_append_right _ hq) q hqp rfl),h1⟩
  · refine (hperm b).nodup_iff.mpr ?_
    simp only [List.cons_append,List.nodup_cons,List.mem_append,not_or]
    exact ⟨⟨⟨hbx,hby⟩,hbp⟩,hn⟩

theorem standIn_root (node left : α) : (h.standIn a node left).root = h.root := rfl

theorem standIn_fields (q node left : α) : (h.standIn a node left).parent q =
      (if q = left then some node else if q = node then h.parent a else h.parent q) ∧
    (h.standIn a node left).red q = (if q = node then h.red a else h.red q) ∧
    (h.standIn a node left).child q =
      if q = node then Function.update (h.child node) .left (some left) else h.child q := by
  refine ⟨by simp [standIn],by simp [standIn],?_⟩
  simp only [standIn,setParent_child,setChild,setRed_child,Function.update_apply]

theorem cutOut_root {par right : α} {child : Option α} : (h.cutOut b par child right).root = h.root :=
  adopt_root

theorem cutOut_fields {par : α} (hne : b ≠ par) (child : Option α) (right q : α) :
    (h.cutOut b par child right).parent q =
      (if q = right then some b else if child = some q then some par else h.parent q) ∧
    (h.cutOut b par child right).red q = h.red q ∧
    (h.cutOut b par child right).child q =
      if q = b then Function.update (h.child b) .right (some right)
      else if q = par then Function.update (h.child par) .left child else h.child q := by
  refine ⟨by simp [cutOut,adopt_parent],by simp [cutOut,adopt_red],?_⟩
  simp only [cutOut,setParent_child,setChild,adopt_child,Function.update_apply,if_neg hne]

end Changes

theorem Holds.parent (hh : h.Holds (plug p t)) (ht : t.top = some a) : h.parent a = above p := by
  rw [fork_of_top .left ht] at hh
  exact hh.read.1

theorem Holds.red (hh : h.Holds (plug p t)) (ht : t.top = some a) : h.red a = t.isRed := by
  rw [fork_of_top .left ht] at hh
  exact hh.read.2.1

theorem Holds.paint [DecidableEq α] (hh : h.Holds (plug p t)) (ht : t.top = some a) :
    (h.setRed a d).Holds (plug p (t.setRed d)) := by
  rw [fork_of_top .left ht] at hh ⊢
  rw [setRed_fork]
  exact holds_setRed hh

theorem Holds.isBlack (hh : h.Holds (plug p t)) : h.isBlack t.top = !t.isRed := by
  cases ht : t.top with
  | none =>
    cases t with
    | nil => rfl
    | node => cases ht
  | some a => exact congrArg (!·) (hh.red ht)

theorem Holds.paintBlack [DecidableEq α] (hh : h.Holds (plug p t)) :
    (h.paintBlack t.top).Holds (plug p (t.setRed false)) := by
  cases t with
  | nil => exact hh
  | node => exact hh.paint rfl

theorem Holds.disjoint (hh : h.Holds (plug p (fork s c x a y))) : x.inorder.Disjoint y.inorder := by
  have hn := (List.nodup_append.mp (holds_plug.mp hh).2.2).1
  rw [(inorder_fork_perm s c x y a).nodup_iff] at hn
  exact List.disjoint_of_nodup_append (List.nodup_cons.mp hn).2

/-- A child that is there, or has a sibling, tells which side of its parent it is on. -/
theorem Holds.side [DecidableEq α] (hh : h.Holds (plug p (fork s c x a y))) (hne : x.top ≠ none ∨ y.top ≠ none) :
    (if h.child a .left = x.top then Side.left else .right) = s := by
  have hd := hh.disjoint
  obtain ⟨-,-,hl,hr⟩ := hh.read
  cases s with
  | left => rw [hl,if_pos rfl]
  | right =>
    rw [if_neg]
    intro he
    have htop : y.top = x.top := hr.symm.trans he
    rw [htop,or_self,Option.ne_none_iff_exists'] at hne
    obtain ⟨b,hb⟩ := hne
    exact hd (mem_of_top hb) (mem_of_top (htop.trans hb))

end RbHeap
end Memqueue
