import Memqueue.Lib.ColorTree

/-! Red-black trees with a place in them: the path up from a subtree, and the repairs that climb it.
Left and right are mirror images, so every repair is written for a side. -/
namespace Memqueue

inductive Side where
  | left
  | right
  deriving DecidableEq, Repr

def Side.other : Side → Side
  | .left => .right
  | .right => .left

@[simp] theorem Side.other_other (s : Side) : s.other.other = s := by cases s <;> rfl

@[simp] theorem Side.other_ne (s : Side) : s.other ≠ s := by cases s <;> decide

namespace Tree
variable {α : Type}

/-- A node with the subtree `x` on side `s` and `y` on the other one. -/
def fork (s : Side) (red : Bool) (x : Tree α) (a : α) (y : Tree α) : Tree α :=
  match s with
  | .left => .node red x a y
  | .right => .node red y a x

def child (s : Side) : Tree α → Tree α
  | .nil => .nil
  | .node _ l _ r =>
    match s with
    | .left => l
    | .right => r

/-- NULL counts as black. -/
def isRed : Tree α → Bool
  | .nil => false
  | .node c _ _ _ => c

def setRed (red : Bool) : Tree α → Tree α
  | .nil => .nil
  | .node _ l a r => .node red l a r

/-- One step down from a node: the side taken, the node, and the subtree left aside. -/
structure Frame (α : Type) where
  side : Side
  red : Bool
  val : α
  sibling : Tree α

/-- The way up from a subtree, its parent first. -/
abbrev Path (α : Type) := List (Frame α)

def plug : Path α → Tree α → Tree α
  | [], t => t
  | f :: p, t => plug p (fork f.side f.red t f.val f.sibling)

def before : Path α → List α
  | [] => []
  | f :: p =>
    match f.side with
    | .left => before p
    | .right => before p ++ f.sibling.inorder ++ [f.val]

def after : Path α → List α
  | [] => []
  | f :: p =>
    match f.side with
    | .left => f.val :: f.sibling.inorder ++ after p
    | .right => after p

section Fork
variable (s : Side) (c d : Bool) (x y : Tree α) (a : α)

@[simp] theorem isRed_fork : (fork s c x a y).isRed = c := by cases s <;> rfl

@[simp] theorem setRed_fork : (fork s c x a y).setRed d = fork s d x a y := by cases s <;> rfl

@[simp] theorem child_fork : (fork s c x a y).child s = x := by cases s <;> rfl

@[simp] theorem child_other_fork : (fork s c x a y).child s.other = y := by cases s <;> rfl

@[simp] theorem top_fork : (fork s c x a y).top = some a := by cases s <;> rfl

theorem fork_other : fork s.other c x a y = fork s c y a x := by cases s <;> rfl

/-- Every node is a fork seen from either side. -/
theorem node_eq_fork (l r : Tree α) :
    node c l a r = fork s c ((node c l a r).child s) a ((node c l a r).child s.other) := by
  cases s <;> rfl

theorem inorder_fork_congr {x' y' : Tree α} (hx : x.inorder = x'.inorder) (hy : y.inorder = y'.inorder) :
    (fork s c x a y).inorder = (fork s d x' a y').inorder := by
  cases s <;> simp [fork,hx,hy]

end Fork

@[simp] theorem inorder_setRed (c : Bool) (t : Tree α) : (t.setRed c).inorder = t.inorder := by cases t <;> rfl

theorem inorder_plug (p : Path α) (t : Tree α) : (plug p t).inorder = before p ++ t.inorder ++ after p := by
  induction p generalizing t with
  | nil => simp [plug,before,after]
  | cons f p ih =>
    obtain ⟨s,c,a,u⟩ := f
    cases s <;> simp [plug,ih,fork,before,after]

theorem inorder_plug_congr (p : Path α) {t u : Tree α} (h : t.inorder = u.inorder) :
    (plug p t).inorder = (plug p u).inorder := by
  rw [inorder_plug,inorder_plug,h]

theorem plug_append (p q : Path α) (t : Tree α) : plug (p ++ q) t = plug q (plug p t) := by
  induction p generalizing t with
  | nil => rfl
  | cons f p ih => exact ih _

/-- Red-black with `n` black nodes on every way down. -/
inductive RedBlack : Nat → Tree α → Prop
  | nil : RedBlack 0 .nil
  | black {n : Nat} {l r : Tree α} {a : α} : RedBlack n l → RedBlack n r → RedBlack (n + 1) (.node false l a r)
  | red {n : Nat} {l r : Tree α} {a : α} : RedBlack n l → RedBlack n r → l.isRed = false → r.isRed = false →
      RedBlack n (.node true l a r)

/-- A red-black tree with a black root. -/
def Balanced (t : Tree α) : Prop := t.isRed = false ∧ ∃ n, RedBlack n t

/-- The lowest node of the path is red; a red node cannot stand at the root either. -/
def topRed : Path α → Bool
  | [] => true
  | f :: _ => f.red

/-- Filled with a tree of black height `n` the path gives a red-black tree, colours at the join aside. -/
def Hole : Path α → Nat → Prop
  | [], _ => True
  | f :: p, n => RedBlack n f.sibling ∧
      if f.red then f.sibling.isRed = false ∧ topRed p = false ∧ Hole p n else Hole p (n + 1)

section Balance
variable {n : Nat} {s : Side} {a : α} {t x y : Tree α} {p : Path α}

theorem redBlack_black : RedBlack (n + 1) (fork s false x a y) ↔ RedBlack n x ∧ RedBlack n y := by
  cases s
  · exact ⟨fun | .black hx hy => ⟨hx,hy⟩,fun h => .black h.1 h.2⟩
  · exact ⟨fun | .black hy hx => ⟨hx,hy⟩,fun h => .black h.2 h.1⟩

theorem redBlack_red : RedBlack n (fork s true x a y) ↔
    RedBlack n x ∧ RedBlack n y ∧ x.isRed = false ∧ y.isRed = false := by
  cases s
  · exact ⟨fun | .red hx hy hcx hcy => ⟨hx,hy,hcx,hcy⟩,fun h => .red h.1 h.2.1 h.2.2.1 h.2.2.2⟩
  · exact ⟨fun | .red hy hx hcy hcx => ⟨hx,hy,hcx,hcy⟩,fun h => .red h.2.1 h.1 h.2.2.2 h.2.2.1⟩

theorem not_redBlack_zero : ¬ RedBlack 0 (fork s false x a y) := by
  cases s <;> (intro h; cases h)

/-- A subtree with a black node on every way down is a node. -/
theorem RedBlack.exists_fork (h : RedBlack (n + 1) t) (s : Side) : ∃ c x a y, t = fork s c x a y := by
  cases h with
  | black => exact ⟨_,_,_,_,node_eq_fork s _ _ _ _⟩
  | red => exact ⟨_,_,_,_,node_eq_fork s _ _ _ _⟩

/-- Painting a red root black adds one black node to every way down. -/
theorem RedBlack.paint (h : RedBlack n t) (hc : t.isRed = true) : RedBlack (n + 1) (t.setRed false) := by
  cases h with
  | nil => cases hc
  | black => cases hc
  | red hl hr => exact .black hl hr

theorem RedBlack.blacken (h : RedBlack n t) : ∃ m, RedBlack m (t.setRed false) := by
  cases h with
  | nil => exact ⟨0,.nil⟩
  | black hl hr => exact ⟨_,.black hl hr⟩
  | red hl hr => exact ⟨_,.black hl hr⟩

theorem Balanced.setRed (h : t.Balanced) : t.setRed false = t := by
  cases t with
  | nil => rfl
  | node c l a r => rw [show c = false from h.1]; rfl

theorem isRed_setRed_false (t : Tree α) : (t.setRed false).isRed = false := by cases t <;> rfl

/-- A balanced tree around a place in it, and back. -/
theorem balanced_plug : Balanced (plug p t) ↔
    ∃ n, Hole p n ∧ RedBlack n t ∧ (t.isRed = true → topRed p = false) := by
  induction p generalizing t with
  | nil =>
    constructor
    · rintro ⟨hc,n,h⟩
      exact ⟨n,trivial,h,fun hred => absurd (hred.symm.trans hc) (by decide)⟩
    · rintro ⟨n,-,h,hc⟩
      refine ⟨?_,n,h⟩
      exact Bool.eq_false_iff.mpr fun hred => Bool.noConfusion (hc hred)
  | cons f p ih =>
    obtain ⟨s,c,a,u⟩ := f
    rw [plug,ih]
    dsimp only [Hole,topRed]
    cases c with
    | true =>
      simp only [isRed_fork,redBlack_red,if_true,forall_const]
      constructor
      · rintro ⟨n,hp,⟨ht,hu,hct,hcu⟩,htop⟩
        exact ⟨n,⟨hu,hcu,htop,hp⟩,ht,fun h => absurd (h.symm.trans hct) (by decide)⟩
      · rintro ⟨n,⟨hu,hcu,htop,hp⟩,ht,hct⟩
        exact ⟨n,hp,⟨ht,hu,Bool.eq_false_iff.mpr fun hred => Bool.noConfusion (hct hred),hcu⟩,htop⟩
    | false =>
      simp only [isRed_fork,Bool.false_eq_true,if_false,false_implies,and_true,implies_true]
      constructor
      · rintro ⟨n,hp,h⟩
        cases n with
        | zero => exact absurd h not_redBlack_zero
        | succ n =>
          rw [redBlack_black] at h
          exact ⟨n,⟨h.2,hp⟩,h.1⟩
      · rintro ⟨n,⟨hu,hp⟩,ht⟩
        exact ⟨n + 1,hp,redBlack_black.mpr ⟨ht,hu⟩⟩

theorem Hole.cons {f : Frame α} (h : Hole (f :: p) n) : RedBlack n f.sibling ∧
    (f.red = true → f.sibling.isRed = false ∧ topRed p = false) ∧ Hole p (if f.red then n else n + 1) := by
  obtain ⟨hu,hp⟩ := h
  split at hp
  · rename_i hc
    exact ⟨hu,fun _ => ⟨hp.1,hp.2.1⟩,by rw [if_pos hc]; exact hp.2.2⟩
  · rename_i hc
    exact ⟨hu,fun h => absurd h hc,by rw [if_neg hc]; exact hp⟩

theorem balanced_of_black (hp : Hole p n) (ht : RedBlack n t) (hc : t.isRed = false) : Balanced (plug p t) :=
  balanced_plug.mpr ⟨n,hp,ht,fun h => Bool.noConfusion (hc.symm.trans h)⟩

/-- A node of either colour over two black subtrees, put back under its path. -/
theorem balanced_fork {c : Bool} (hp : Hole p (if c then n else n + 1)) (hc : c = true → topRed p = false)
    (hx : RedBlack n x) (hy : RedBlack n y) (hcx : x.isRed = false) (hcy : y.isRed = false) :
    Balanced (plug p (fork s c x a y)) := by
  apply balanced_plug.mpr
  cases c with
  | true => exact ⟨n,hp,redBlack_red.mpr ⟨hx,hy,hcx,hcy⟩,fun _ => hc rfl⟩
  | false => exact ⟨n + 1,hp,redBlack_black.mpr ⟨hx,hy⟩,fun h => by rw [isRed_fork] at h; cases h⟩

/-- A subtree that is red only at the root or below a black node, with the root painted black in the end. -/
theorem balanced_blacken (hp : Hole p n) (ht : RedBlack n t) (hc : t.isRed = true → p = [] ∨ topRed p = false) :
    Balanced ((plug p t).setRed false) := by
  cases p with
  | nil => exact ⟨isRed_setRed_false t,ht.blacken⟩
  | cons f p =>
    have hb : Balanced (plug (f :: p) t) := by
      refine balanced_plug.mpr ⟨n,hp,ht,fun hred => ?_⟩
      exact (hc hred).resolve_left (List.cons_ne_nil f p)
    rw [hb.setRed]
    exact hb

end Balance

def height : Tree α → Nat
  | .nil => 0
  | .node _ l _ r => max l.height r.height + 1

/-- Paths are no longer than the tree is high. -/
theorem length_add_height (p : Path α) (t : Tree α) : p.length + t.height ≤ (plug p t).height := by
  induction p generalizing t with
  | nil => simp [plug]
  | cons f p ih =>
    have hup := ih (fork f.side f.red t f.val f.sibling)
    have hfork : t.height + 1 ≤ (fork f.side f.red t f.val f.sibling).height := by
      cases f.side <;> simp [fork,height]
    rw [plug,List.length_cons]
    omega

private theorem RedBlack.height_le {n : Nat} {t : Tree α} (h : RedBlack n t) :
    t.height ≤ 2 * n + if t.isRed then 1 else 0 := by
  induction h with
  | nil => exact le_rfl
  | @black n l r a hl hr il ir =>
    have hl' : l.height ≤ 2 * n + 1 := il.trans (by split <;> omega)
    have hr' : r.height ≤ 2 * n + 1 := ir.trans (by split <;> omega)
    simp only [height,isRed,Bool.false_eq_true,if_false]
    omega
  | @red n l r a hl hr hcl hcr il ir =>
    rw [hcl] at il
    rw [hcr] at ir
    simp only [Bool.false_eq_true,if_false] at il ir
    simp only [height,isRed,if_true]
    omega

private theorem RedBlack.size_ge {n : Nat} {t : Tree α} (h : RedBlack n t) : 2^n ≤ t.inorder.length + 1 := by
  induction h with
  | nil => exact le_rfl
  | black hl hr il ir =>
    rw [inorder_node,List.length_append,List.length_cons,Nat.pow_succ]
    omega
  | red hl hr hcl hcr il ir =>
    rw [inorder_node,List.length_append,List.length_cons]
    omega

/-- A balanced tree is at most twice as high as a full one with as many nodes. -/
theorem Balanced.height_le {t : Tree α} (h : t.Balanced) : t.height ≤ 2 * Nat.log 2 (t.inorder.length + 1) := by
  obtain ⟨hc,n,hrb⟩ := h
  have hheight := hrb.height_le
  have hlog : n ≤ Nat.log 2 (t.inorder.length + 1) := Nat.le_log_of_pow_le (by decide) hrb.size_ge
  rw [hc] at hheight
  simp only [Bool.false_eq_true,if_false] at hheight
  omega

end Tree
end Memqueue
