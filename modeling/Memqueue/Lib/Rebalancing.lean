import Memqueue.Lib.RedBlack

/-! Insertion and deletion repairs of a red-black tree, climbing the path up from the place changed.
Both keep the in-order sequence and give back a balanced tree. -/
namespace Memqueue.Tree
variable {α : Type} {n : Nat} {p : Path α} {t : Tree α}

/-- A node taken apart as seen from one side: its subtree there, its payload, the other subtree. -/
def view (s : Side) : Tree α → Option (Tree α × α × Tree α)
  | .nil => none
  | .node _ l a r =>
    match s with
    | .left => some (l,a,r)
    | .right => some (r,a,l)

@[simp] theorem view_fork (s : Side) (c : Bool) (x y : Tree α) (a : α) : view s (fork s c x a y) = some (x,a,y) := by
  cases s <;> rfl

theorem eq_fork_of_view {s : Side} {x y : Tree α} {a : α} (h : view s t = some (x,a,y)) : t = fork s t.isRed x a y := by
  cases t with
  | nil => cases h
  | node c l b r => cases s <;> cases h <;> rfl

theorem eq_nil_of_view {s : Side} (h : view s t = none) : t = .nil := by
  cases t with
  | nil => rfl
  | node c l b r => cases s <;> cases h

section Insert

/-- The rotations that end the climb, around a red node `t` with a red parent and a black uncle. -/
def turn (f g : Frame α) (t : Tree α) : Tree α :=
  if f.side = g.side then
    fork g.side false t f.val (fork g.side true f.sibling g.val g.sibling)
  else
    match view g.side t with
    | some (near,x,far) =>
      fork g.side false (fork g.side true f.sibling f.val near) x (fork g.side true far g.val g.sibling)
    | none => plug [f,g] t

/-- Mends a red node below a red parent: a red uncle passes the clash on to the grandparent. -/
def insertFix : Path α → Tree α → Tree α
  | f :: g :: p, t =>
    if f.red then
      if g.sibling.isRed then
        insertFix p (fork g.side true (fork f.side false t f.val f.sibling) g.val (g.sibling.setRed false))
      else (plug p (turn f g t)).setRed false
    else (plug (f :: g :: p) t).setRed false
  | p, t => (plug p t).setRed false

private theorem inorder_turn (f g : Frame α) (t : Tree α) : (turn f g t).inorder = (plug [f,g] t).inorder := by
  obtain ⟨s,c,a,u⟩ := f
  obtain ⟨s',c',b,v⟩ := g
  simp only [turn,plug]
  split
  · rename_i hs
    subst hs
    cases s <;> simp [fork]
  · split
    · rename_i hs _ near x far hv
      rw [eq_fork_of_view hv]
      cases s <;> cases s' <;> first | exact absurd rfl hs | simp [fork]
    · rfl

theorem inorder_insertFix (p : Path α) (t : Tree α) : (insertFix p t).inorder = (plug p t).inorder := by
  fun_induction insertFix p t with
  | case1 f g p t hf hg ih =>
    rw [ih]
    apply inorder_plug_congr
    apply inorder_fork_congr
    · exact inorder_fork_congr _ _ _ _ _ _ rfl rfl
    · exact inorder_setRed _ _
  | case2 f g p t hf hg =>
    rw [inorder_setRed]
    exact inorder_plug_congr p (inorder_turn f g t)
  | case3 f g p t hf => exact inorder_setRed _ _
  | case4 p t hp => exact inorder_setRed _ _

private theorem redBlack_turn {f g : Frame α} (hc : t.isRed = true) (ht : RedBlack n t) (hu : RedBlack n f.sibling)
    (hcu : f.sibling.isRed = false) (hv : RedBlack n g.sibling) (hcv : g.sibling.isRed = false) :
    RedBlack (n + 1) (turn f g t) ∧ (turn f g t).isRed = false := by
  unfold turn
  split
  · rw [redBlack_black,redBlack_red]
    exact ⟨⟨ht,hu,hv,hcu,hcv⟩,isRed_fork _ _ _ _ _⟩
  · split
    · rename_i near x far hview
      have he := eq_fork_of_view hview
      rw [hc] at he
      rw [he,redBlack_red] at ht
      obtain ⟨hnear,hfar,hcn,hcf⟩ := ht
      rw [redBlack_black,redBlack_red,redBlack_red]
      exact ⟨⟨⟨hu,hnear,hcu,hcn⟩,hfar,hv,hcf,hcv⟩,isRed_fork _ _ _ _ _⟩
    · rename_i hview
      rw [eq_nil_of_view hview] at hc
      cases hc

/-- A red node put into a hole of a balanced tree leaves at most one clash, and that is mended. -/
theorem balanced_insertFix (hp : Hole p n) (ht : RedBlack n t) (hc : t.isRed = true) : Balanced (insertFix p t) := by
  fun_induction insertFix p t generalizing n with
  | case1 f g p t hf hg ih =>
    obtain ⟨hu,hp⟩ := hp
    rw [if_pos hf] at hp
    obtain ⟨hcu,hgb,hv,hp⟩ := hp
    rw [topRed] at hgb
    rw [hgb,if_neg Bool.false_ne_true] at hp
    apply ih hp
    · rw [redBlack_red,redBlack_black]
      exact ⟨⟨ht,hu⟩,hv.paint hg,isRed_fork _ _ _ _ _,isRed_setRed_false _⟩
    · exact isRed_fork _ _ _ _ _
  | case2 f g p t hf hg =>
    obtain ⟨hu,hp⟩ := hp
    rw [if_pos hf] at hp
    obtain ⟨hcu,hgb,hv,hp⟩ := hp
    rw [topRed] at hgb
    rw [hgb,if_neg Bool.false_ne_true] at hp
    obtain ⟨hturn,hblack⟩ := redBlack_turn hc ht hu hcu hv (Bool.eq_false_iff.mpr hg)
    exact balanced_blacken hp hturn fun hr => Bool.noConfusion (hblack.symm.trans hr)
  | case3 f g p t hf => exact balanced_blacken hp ht fun _ => .inr (Bool.eq_false_iff.mpr hf)
  | case4 p t hp' =>
    apply balanced_blacken hp ht
    intro _
    rcases p with _ | ⟨f,_ | ⟨g,p⟩⟩
    · exact .inl rfl
    · refine .inr (Bool.eq_false_iff.mpr fun hf => ?_)
      obtain ⟨-,hroot⟩ := hp
      rw [topRed] at hf
      rw [if_pos hf] at hroot
      exact Bool.noConfusion hroot.2.1
    · exact absurd rfl (hp' f g p)

end Insert

section Erase
variable {s : Side} {c : Bool} {a : α} {u : Tree α}

/-- The node `a` with a subtree `t` that is one black node short and a black sibling `u`, turned so that
the way through `t` is whole again; `none` when `u` has no red child to spare. -/
def mend (s : Side) (c : Bool) (t : Tree α) (a : α) (u : Tree α) : Option (Tree α) :=
  match view s u with
  | none => none
  | some (near,b,far) =>
    if far.isRed then some (fork s c (fork s false t a near) b (far.setRed false))
    else if near.isRed then
      match view s near with
      | some (nn,x,nf) => some (fork s c (fork s false t a nn) x (fork s false nf b far))
      | none => none
    else none

/-- The parts of a sibling that is red. -/
def redSibling (f : Frame α) : Option (Tree α × α × Tree α) := if f.sibling.isRed then view f.side f.sibling else none

/-- Makes up for a black node missing above `t`, climbing while siblings can only be painted red. -/
def eraseFix : Path α → Tree α → Tree α
  | [], t => t.setRed false
  | f :: p, t =>
    if t.isRed then plug (f :: p) (t.setRed false)
    else
      match redSibling f with
      | some (near,b,far) =>
        match mend f.side true t f.val near with
        | some v => (plug p (fork f.side false v b far)).setRed false
        | none => plug p (fork f.side false (fork f.side false t f.val (near.setRed true)) b far)
      | none =>
        match mend f.side f.red t f.val f.sibling with
        | some v => (plug p v).setRed false
        | none => eraseFix p (fork f.side f.red t f.val (f.sibling.setRed true))

/-- The subtree `t` takes the place of its parent, a node of colour `c` without another child. -/
def close (p : Path α) (c : Bool) (t : Tree α) : Tree α := if c then plug p t else eraseFix p t

/-- The place of the leftmost node. -/
def minPlace : Path α → Tree α → Path α × Tree α
  | p, .node c (.node d l b m) a r => minPlace (⟨.left,c,a,r⟩ :: p) (.node d l b m)
  | p, t => (p,t)

/-- Takes out the top of a subtree; with two children its successor comes up in its place. -/
def eraseAt (p : Path α) : Tree α → Tree α
  | .nil => plug p .nil
  | .node c .nil _ r => close p c r
  | .node c l _ .nil => close p c l
  | .node c l a r =>
    match minPlace [] r with
    | (q,.node d _ b m) => close (q ++ ⟨.right,c,b,l⟩ :: p) d m
    | (_,.nil) => plug p (.node c l a r)

theorem eraseAt_nil_left (p : Path α) (c : Bool) (a : α) (r : Tree α) : eraseAt p (.node c .nil a r) = close p c r := by
  rw [eraseAt]

theorem eraseAt_nil_right (p : Path α) (c : Bool) (a : α) (l : Tree α) :
    eraseAt p (.node c l a .nil) = close p c l := by
  cases l with
  | nil => rfl
  | node => rfl

private theorem inorder_mend {v : Tree α} (h : mend s c t a u = some v) :
    v.inorder = (fork s c t a u).inorder := by
  unfold mend at h
  split at h
  · cases h
  · rename_i near b far hu
    rw [eq_fork_of_view hu]
    split at h
    · cases h
      cases s <;> simp [fork]
    · split at h
      · split at h
        · rename_i nn x nf hn
          rw [eq_fork_of_view hn]
          cases h
          cases s <;> simp [fork]
        · cases h
      · cases h

theorem redSibling_eq_some {f : Frame α} {near far : Tree α} {b : α} (h : redSibling f = some (near,b,far)) :
    f.sibling = fork f.side true near b far := by
  unfold redSibling at h
  split at h
  · rename_i hc
    rw [eq_fork_of_view h,isRed_fork] at hc
    rw [eq_fork_of_view h,hc]
  · cases h

theorem redSibling_eq_none {f : Frame α} (h : redSibling f = none) : f.sibling.isRed = false := by
  unfold redSibling at h
  split at h
  · rw [eq_nil_of_view h]
    rfl
  · rename_i hc
    exact Bool.eq_false_iff.mpr hc

theorem inorder_eraseFix (p : Path α) (t : Tree α) : (eraseFix p t).inorder = (plug p t).inorder := by
  fun_induction eraseFix p t with
  | case1 t => exact inorder_setRed _ _
  | case2 f p t ht => exact inorder_plug_congr (f :: p) (inorder_setRed _ _)
  | case3 f p t ht near b far hu v hv =>
    rw [inorder_setRed]
    apply inorder_plug_congr
    rw [redSibling_eq_some hu,inorder_fork_congr f.side false true v far b (inorder_mend hv) rfl]
    cases f.side <;> simp [fork]
  | case4 f p t ht near b far hu hv =>
    apply inorder_plug_congr
    rw [redSibling_eq_some hu]
    cases f.side <;> simp [fork]
  | case5 f p t ht hu v hv =>
    rw [inorder_setRed]
    exact inorder_plug_congr p (inorder_mend hv)
  | case6 f p t ht hu hv ih =>
    rw [ih]
    apply inorder_plug_congr
    exact inorder_fork_congr _ _ _ _ _ _ rfl (inorder_setRed _ _)

theorem inorder_close (p : Path α) (c : Bool) (t : Tree α) : (close p c t).inorder = (plug p t).inorder := by
  unfold close
  split
  · rfl
  · exact inorder_eraseFix p t

theorem before_eq_nil (h : ∀ f ∈ p, f.side = .left) : before p = [] := by
  induction p with
  | nil => rfl
  | cons f p ih =>
    rw [before,h f List.mem_cons_self]
    exact ih fun g hg => h g (List.mem_cons_of_mem _ hg)

private theorem minPlace_spec (q : Path α) (c : Bool) (l r : Tree α) (a : α) :
    ∃ q' d b m, minPlace q (.node c l a r) = (q' ++ q,.node d .nil b m) ∧
      plug q' (.node d .nil b m) = .node c l a r ∧ ∀ f ∈ q', f.side = .left := by
  induction l generalizing q c a r with
  | nil => exact ⟨[],c,a,r,by simp [minPlace],rfl,by simp⟩
  | node cl ll b lr ih _ =>
    obtain ⟨q',d,x,m,he,hp,hl⟩ := ih (⟨.left,c,a,r⟩ :: q) cl lr b
    refine ⟨q' ++ [⟨.left,c,a,r⟩],d,x,m,?_,?_,?_⟩
    · rw [minPlace,he]
      simp
    · rw [plug_append,hp]
      rfl
    · intro f hf
      rcases List.mem_append.mp hf with hf | hf
      · exact hl f hf
      · rw [List.mem_singleton.mp hf]

/-- With two children the node taken out of its place is the leftmost one on the right. -/
theorem eraseAt_successor (p : Path α) (c : Bool) (a : α) {l r : Tree α} (hl : l ≠ .nil) (hr : r ≠ .nil) :
    ∃ q d b m, r = plug q (.node d .nil b m) ∧ (∀ f ∈ q, f.side = .left) ∧
      eraseAt p (.node c l a r) = close (q ++ ⟨.right,c,b,l⟩ :: p) d m := by
  cases l with
  | nil => exact absurd rfl hl
  | node cl ll e lr =>
    cases r with
    | nil => exact absurd rfl hr
    | node cr rl e' rr =>
      obtain ⟨q,d,b,m,he,hp,hq⟩ := minPlace_spec [] cr rl rr e'
      refine ⟨q,d,b,m,hp.symm,hq,?_⟩
      rw [eraseAt,he,List.append_nil]
      all_goals simp

/-- Taking out the top of a subtree takes it out of the sequence. -/
theorem inorder_eraseAt (p : Path α) (c : Bool) (l r : Tree α) (a : α) :
    (eraseAt p (.node c l a r)).inorder = before p ++ (l.inorder ++ r.inorder) ++ after p := by
  by_cases hl : l = .nil
  · subst hl
    simp [eraseAt_nil_left,inorder_close,inorder_plug]
  by_cases hr : r = .nil
  · subst hr
    simp [eraseAt_nil_right,inorder_close,inorder_plug]
  obtain ⟨q,d,b,m,hp,hq,he⟩ := eraseAt_successor p c a hl hr
  rw [he,inorder_close,plug_append,plug,inorder_plug,hp]
  simp [fork,inorder_plug,before_eq_nil hq]

/-- One black node short, unless its red root can be painted black. -/
private def Short (n : Nat) (t : Tree α) : Prop :=
  if t.isRed then RedBlack (n + 1) (t.setRed false) else RedBlack n t

private theorem RedBlack.short (h : RedBlack n t) : Short n t := by
  unfold Short
  split
  · rename_i hc
    exact h.paint hc
  · exact h

/-- A mended node has two black subtrees as high as its black sibling was. -/
private theorem redBlack_mend {v : Tree α} (ht : RedBlack n t) (hu : RedBlack (n + 1) u) (hcu : u.isRed = false)
    (h : mend s c t a u = some v) : ∃ x b y, v = fork s c x b y ∧ RedBlack (n + 1) x ∧ RedBlack (n + 1) y ∧
      x.isRed = false ∧ y.isRed = false := by
  unfold mend at h
  split at h
  · cases h
  · rename_i near b far hview
    rw [eq_fork_of_view hview,hcu,redBlack_black] at hu
    obtain ⟨hnear,hfar⟩ := hu
    split at h
    · rename_i hcf
      cases h
      exact ⟨_,b,_,rfl,redBlack_black.mpr ⟨ht,hnear⟩,hfar.paint hcf,isRed_fork _ _ _ _ _,isRed_setRed_false _⟩
    · rename_i hcf
      split at h
      · rename_i hcn
        split at h
        · rename_i nn x nf hn
          rw [eq_fork_of_view hn,hcn,redBlack_red] at hnear
          cases h
          exact ⟨_,x,_,rfl,redBlack_black.mpr ⟨ht,hnear.1⟩,redBlack_black.mpr ⟨hnear.2.1,hfar⟩,
            isRed_fork _ _ _ _ _,isRed_fork _ _ _ _ _⟩
        · cases h
      · cases h

/-- A black sibling that could not help has two black subtrees. -/
theorem mend_eq_none (hu : RedBlack (n + 1) u) (hcu : u.isRed = false) (h : mend s c t a u = none) :
    ∃ near b far, u = fork s false near b far ∧ RedBlack n near ∧ RedBlack n far ∧
      near.isRed = false ∧ far.isRed = false := by
  obtain ⟨d,near,b,far,rfl⟩ := hu.exists_fork s
  rw [isRed_fork] at hcu
  subst hcu
  rw [redBlack_black] at hu
  rw [mend,view_fork] at h
  dsimp only at h
  split at h
  · cases h
  · rename_i hcf
    split at h
    · rename_i hcn
      split at h
      · cases h
      · rename_i hn
        rw [eq_nil_of_view hn] at hcn
        cases hcn
    · rename_i hcn
      exact ⟨near,b,far,rfl,hu.1,hu.2,Bool.eq_false_iff.mpr hcn,Bool.eq_false_iff.mpr hcf⟩

/-- Where the red sibling was turned up, the new sibling is black and as high as it was. -/
private theorem balanced_redSibling {f : Frame α} {near far : Tree α} {b : α} (hp : Hole (f :: p) (n + 1))
    (h : redSibling f = some (near,b,far)) : f.red = false ∧ Hole p (n + 2) ∧ RedBlack (n + 1) near ∧
      RedBlack (n + 1) far ∧ near.isRed = false ∧ far.isRed = false := by
  obtain ⟨hu,hred,hp⟩ := hp.cons
  rw [redSibling_eq_some h,redBlack_red] at hu
  have hblack : f.red = false := Bool.eq_false_iff.mpr fun hc => by
    have hcu := (hred hc).1
    rw [redSibling_eq_some h,isRed_fork] at hcu
    cases hcu
  rw [hblack,if_neg Bool.false_ne_true] at hp
  exact ⟨hblack,hp,hu⟩

private theorem balanced_eraseFix_of_short (hp : Hole p (n + 1)) (ht : Short n t) : Balanced (eraseFix p t) := by
  fun_induction eraseFix p t generalizing n with
  | case1 t =>
    refine ⟨isRed_setRed_false t,?_⟩
    unfold Short at ht
    split at ht
    · exact ⟨_,ht⟩
    · exact ht.blacken
  | case2 f p t hc =>
    rw [Short,if_pos hc] at ht
    exact balanced_of_black hp ht (isRed_setRed_false t)
  | case3 f p t hc near b far hu v hv =>
    rw [Short,if_neg hc] at ht
    obtain ⟨hblack,hp,hnear,hfar,hcn,hcf⟩ := balanced_redSibling hp hu
    obtain ⟨x,e,y,rfl,hx,hy,hcx,hcy⟩ := redBlack_mend ht hnear hcn hv
    have hv : RedBlack (n + 1) (fork f.side true x e y) := redBlack_red.mpr ⟨hx,hy,hcx,hcy⟩
    have hb := balanced_of_black hp (redBlack_black.mpr ⟨hv,hfar⟩) (isRed_fork f.side _ _ _ b)
    rw [hb.setRed]
    exact hb
  | case4 f p t hc near b far hu hv =>
    rw [Short,if_neg hc] at ht
    obtain ⟨hblack,hp,hnear,hfar,hcn,hcf⟩ := balanced_redSibling hp hu
    obtain ⟨x,e,y,rfl,hx,hy,hcx,hcy⟩ := mend_eq_none hnear hcn hv
    rw [setRed_fork]
    have hv : RedBlack (n + 1) (fork f.side false t f.val (fork f.side true x e y)) :=
      redBlack_black.mpr ⟨ht,redBlack_red.mpr ⟨hx,hy,hcx,hcy⟩⟩
    exact balanced_of_black hp (redBlack_black.mpr ⟨hv,hfar⟩) (isRed_fork _ _ _ _ _)
  | case5 f p t hc hu v hv =>
    rw [Short,if_neg hc] at ht
    obtain ⟨hsib,hred,hp⟩ := hp.cons
    obtain ⟨x,e,y,rfl,hx,hy,hcx,hcy⟩ := redBlack_mend ht hsib (redSibling_eq_none hu) hv
    have hb := balanced_fork (s := f.side) (a := e) hp (fun h => (hred h).2) hx hy hcx hcy
    rw [hb.setRed]
    exact hb
  | case6 f p t hc hu hv ih =>
    rw [Short,if_neg hc] at ht
    obtain ⟨hsib,hred,hp⟩ := hp.cons
    obtain ⟨x,e,y,he,hx,hy,hcx,hcy⟩ := mend_eq_none hsib (redSibling_eq_none hu) hv
    have hv : RedBlack (n + 1) (fork f.side false t f.val (f.sibling.setRed true)) := by
      rw [he,setRed_fork]
      exact redBlack_black.mpr ⟨ht,redBlack_red.mpr ⟨hx,hy,hcx,hcy⟩⟩
    cases hf : f.red with
    | true =>
      rw [hf,if_pos rfl] at hp
      rw [hf] at ih
      apply ih hp
      rw [Short,isRed_fork,if_pos rfl,setRed_fork]
      exact hv
    | false =>
      rw [hf,if_neg Bool.false_ne_true] at hp
      rw [hf] at ih
      apply ih hp
      rw [Short,isRed_fork,if_neg Bool.false_ne_true]
      exact hv

/-- A missing black node is made up for somewhere on the way up, or the whole tree is one node less high. -/
theorem balanced_eraseFix (hp : Hole p (n + 1)) (ht : RedBlack n t) : Balanced (eraseFix p t) :=
  balanced_eraseFix_of_short hp ht.short

/-- Closing the gap left by a node with one child keeps the tree balanced. -/
theorem balanced_close (hp : Hole p n) (ht : RedBlack n (fork s c t a u)) (hc : c = true → topRed p = false) :
    Balanced (close p c t) := by
  cases c with
  | true =>
    rw [redBlack_red] at ht
    exact balanced_of_black hp ht.1 ht.2.2.1
  | false =>
    cases n with
    | zero => exact absurd ht not_redBlack_zero
    | succ n => exact balanced_eraseFix hp (redBlack_black.mp ht).1

theorem topRed_append (q : Path α) (f : Frame α) (p : Path α) (a : α) :
    topRed (q ++ f :: p) = topRed (q ++ {f with val := a} :: p) := by
  cases q <;> rfl

/-- What a place requires of its path does not mention payloads. -/
theorem hole_append (q : Path α) (f : Frame α) (p : Path α) (a : α) :
    Hole (q ++ f :: p) n ↔ Hole (q ++ {f with val := a} :: p) n := by
  induction q generalizing n with
  | nil => exact Iff.rfl
  | cons g q ih =>
    simp only [List.cons_append,Hole,ih]
    rw [topRed_append q f p a]

/-- Taking a node out of a balanced tree leaves a balanced tree. -/
theorem balanced_eraseAt {l r : Tree α} (h : Balanced (plug p (.node c l a r))) :
    Balanced (eraseAt p (.node c l a r)) := by
  by_cases hl : l = .nil
  · subst hl
    obtain ⟨n,hp,ht,hc⟩ := balanced_plug.mp h
    rw [eraseAt_nil_left]
    exact balanced_close (s := .right) hp ht hc
  by_cases hr : r = .nil
  · subst hr
    obtain ⟨n,hp,ht,hc⟩ := balanced_plug.mp h
    rw [eraseAt_nil_right]
    exact balanced_close (s := .left) hp ht hc
  obtain ⟨q,d,b,m,hq,-,he⟩ := eraseAt_successor p c a hl hr
  have hplace : plug p (.node c l a r) = plug (q ++ ⟨.right,c,a,l⟩ :: p) (.node d .nil b m) := by
    rw [plug_append,← hq]
    rfl
  rw [hplace] at h
  obtain ⟨n,hp,ht,hc⟩ := balanced_plug.mp h
  rw [he]
  refine balanced_close (s := .right) ((hole_append q _ p b).mp hp) ht fun hd => ?_
  rw [← topRed_append q ⟨.right,c,a,l⟩ p b]
  exact hc hd

end Erase

section Map
variable {β : Type} (g : α → β)

def Frame.map (f : Frame α) : Frame β := ⟨f.side,f.red,g f.val,f.sibling.map g⟩

theorem map_fork (s : Side) (c : Bool) (x y : Tree α) (a : α) :
    (fork s c x a y).map g = fork s c (x.map g) (g a) (y.map g) := by cases s <;> rfl

theorem isRed_map (t : Tree α) : (t.map g).isRed = t.isRed := by cases t <;> rfl

theorem map_setRed (c : Bool) (t : Tree α) : (t.setRed c).map g = (t.map g).setRed c := by cases t <;> rfl

theorem height_map (t : Tree α) : (t.map g).height = t.height := by
  induction t with
  | nil => rfl
  | node c l a r il ir => rw [Tree.map,height,height,il,ir]

theorem RedBlack.map (h : RedBlack n t) : RedBlack n (t.map g) := by
  induction h with
  | nil => exact .nil
  | black hl hr il ir => exact .black il ir
  | red hl hr hcl hcr il ir => exact .red il ir ((isRed_map g _).trans hcl) ((isRed_map g _).trans hcr)

theorem Balanced.map (h : t.Balanced) : (t.map g).Balanced := by
  obtain ⟨hc,n,ht⟩ := h
  exact ⟨(isRed_map g t).trans hc,n,ht.map g⟩

theorem view_map (s : Side) (t : Tree α) :
    view s (t.map g) = (view s t).map fun (x,a,y) => (x.map g,g a,y.map g) := by
  cases t with
  | nil => rfl
  | node c l a r => cases s <;> rfl

theorem map_plug (p : Path α) (t : Tree α) : (plug p t).map g = plug (p.map (Frame.map g)) (t.map g) := by
  induction p generalizing t with
  | nil => rfl
  | cons f p ih => rw [plug,ih,map_fork]; rfl

private theorem map_turn (f f' : Frame α) (t : Tree α) :
    (turn f f' t).map g = turn (f.map g) (f'.map g) (t.map g) := by
  simp only [turn,Frame.map,view_map]
  split
  · simp [map_fork]
  · cases view f'.side t with
    | none => simp [map_plug,Frame.map]
    | some x => simp [map_fork]

theorem map_insertFix (p : Path α) (t : Tree α) :
    (insertFix p t).map g = insertFix (p.map (Frame.map g)) (t.map g) := by
  fun_induction insertFix p t with
  | case1 f f' p t hf hg ih =>
    rw [ih]
    simp [insertFix,Frame.map,hf,hg,isRed_map,map_fork,map_setRed]
  | case2 f f' p t hf hg =>
    simp [insertFix,Frame.map,hf,hg,isRed_map,map_setRed,map_plug,map_turn]
  | case3 f f' p t hf =>
    simp [insertFix,Frame.map,hf,map_setRed,map_plug]
  | case4 p t hp =>
    rcases p with _ | ⟨f,_ | ⟨f',p⟩⟩
    · exact map_setRed g _ _
    · simp [insertFix,map_setRed,map_plug]
    · exact absurd rfl (hp f f' p)

private theorem map_mend (s : Side) (c : Bool) (t u : Tree α) (a : α) :
    (mend s c t a u).map (Tree.map g) = mend s c (t.map g) (g a) (u.map g) := by
  unfold mend
  rw [view_map]
  cases view s u with
  | none => rfl
  | some x =>
    obtain ⟨near,b,far⟩ := x
    simp only [Option.map_some,isRed_map]
    cases far.isRed with
    | true => simp [map_fork,map_setRed]
    | false =>
      cases near.isRed with
      | true =>
        rw [view_map]
        cases view s near with
        | none => rfl
        | some x => simp [map_fork]
      | false => rfl

private theorem map_redSibling (f : Frame α) :
    redSibling (f.map g) = (redSibling f).map fun (x,a,y) => (x.map g,g a,y.map g) := by
  simp only [redSibling,Frame.map,isRed_map,view_map]
  split <;> rfl

theorem map_eraseFix (p : Path α) (t : Tree α) :
    (eraseFix p t).map g = eraseFix (p.map (Frame.map g)) (t.map g) := by
  fun_induction eraseFix p t with
  | case1 t => exact map_setRed g _ _
  | case2 f p t hc => simp [eraseFix,isRed_map,hc,map_plug,map_setRed]
  | case3 f p t hc near b far hu v hv =>
    have hm := map_mend g f.side true t near f.val
    rw [hv] at hm
    rw [List.map_cons,eraseFix,isRed_map,if_neg hc,map_redSibling,hu]
    simp only [Option.map_some,Frame.map,← hm]
    simp [map_setRed,map_plug,map_fork]
  | case4 f p t hc near b far hu hv =>
    have hm := map_mend g f.side true t near f.val
    rw [hv] at hm
    rw [List.map_cons,eraseFix,isRed_map,if_neg hc,map_redSibling,hu]
    simp only [Option.map_some,Frame.map,← hm]
    simp [map_setRed,map_plug,map_fork]
  | case5 f p t hc hu v hv =>
    have hm := map_mend g f.side f.red t f.sibling f.val
    rw [hv] at hm
    rw [List.map_cons,eraseFix,isRed_map,if_neg hc,map_redSibling,hu]
    simp only [Frame.map,← hm]
    simp [map_setRed,map_plug]
  | case6 f p t hc hu hv ih =>
    have hm := map_mend g f.side f.red t f.sibling f.val
    rw [hv] at hm
    rw [ih,List.map_cons,eraseFix,isRed_map,if_neg hc,map_redSibling,hu]
    simp only [Frame.map,← hm]
    simp [map_setRed,map_fork]

theorem map_close (p : Path α) (c : Bool) (t : Tree α) :
    (close p c t).map g = close (p.map (Frame.map g)) c (t.map g) := by
  unfold close
  split
  · exact map_plug g p t
  · exact map_eraseFix g p t

private theorem map_minPlace (p : Path α) (t : Tree α) :
    minPlace (p.map (Frame.map g)) (t.map g) = ((minPlace p t).1.map (Frame.map g),(minPlace p t).2.map g) := by
  fun_induction minPlace p t with
  | case1 p c d l b m a r ih =>
    rw [← ih]
    rfl
  | case2 p t hp =>
    cases t with
    | nil => rfl
    | node c l a r =>
      cases l with
      | nil => rfl
      | node d ll b lr => exact absurd rfl (hp c d ll b lr a r)

theorem map_eraseAt (p : Path α) (t : Tree α) :
    (eraseAt p t).map g = eraseAt (p.map (Frame.map g)) (t.map g) := by
  cases t with
  | nil => exact map_plug g p .nil
  | node c l a r =>
    cases l with
    | nil =>
      rw [Tree.map,Tree.map,eraseAt_nil_left,eraseAt_nil_left]
      exact map_close g p c r
    | node cl ll b lr =>
      cases r with
      | nil =>
        rw [Tree.map,eraseAt_nil_right]
        exact map_close g p c _
      | node cr rl e rr =>
        have hmin := map_minPlace g [] (.node cr rl e rr)
        simp only [Tree.map,List.map_nil] at hmin
        simp only [Tree.map,eraseAt,hmin]
        obtain ⟨q,u⟩ := minPlace [] (.node cr rl e rr)
        cases u with
        | nil => simp [Tree.map,map_plug]
        | node d ml x m => simp [Tree.map,map_close,Frame.map]

end Map

end Memqueue.Tree
