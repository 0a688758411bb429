import Memqueue.Rbtree.Holds

/-! rb_erase on a heap that holds a red-black tree: the node's place is closed, then the missing
black node is made up for on the way up. -/
open Memqueue.Tree
namespace Memqueue.RbHeap
variable {α : Type} [DecidableEq α] {h : RbHeap α} {s : Side} {a b e node : α} {t u v x y z : Tree α} {p : Path α}
  {n : Nat}

section Color
variable {c d : Bool}

private theorem Holds.paintRoot (hh : h.Holds t) : (h.paintBlack h.root).Holds (t.setRed false) := by
  rw [hh.1]
  exact Holds.paintBlack (p := []) hh

private theorem rbEraseLast_spec (hh : h.Holds (plug p (fork s c t a (fork s d x b y)))) (hy : y.isRed = true) :
    ∃ h', rbEraseLast s h a b = some h' ∧
      h'.Holds ((plug p (fork s c (fork s false t a x) b (y.setRed false))).setRed false) := by
  obtain ⟨far,hfar⟩ : ∃ far, y.top = some far := by
    cases y with
    | nil => cases hy
    | node => exact ⟨_,rfl⟩
  have hb : h.Holds (plug (⟨s.other,c,a,t⟩ :: p) (fork s d x b y)) := by
    rw [← plug_fork_other]
    exact hh
  have h1 := holds_setRed (d := c) hb
  rw [← plug_fork_other] at h1
  have h2 := holds_setRed (d := false) h1
  rw [plug_fork_other,plug_fork_other] at h2
  have h3 := h2.paint (d := false) hfar
  rw [← plug_fork_other,← plug_fork_other] at h3
  obtain ⟨h',hrot,hh'⟩ := holds_rbRotate h3
  refine ⟨h'.paintBlack h'.root,?_,hh'.paintRoot⟩
  have hchild : h.child b s.other = some far := hb.read.2.2.2.trans hfar
  simp [rbEraseLast,hh.read.2.1,hchild,hrot]

omit [DecidableEq α] in
/-- The test for a sibling without a red child. -/
private theorem Holds.children_black (hh : h.Holds (plug p (fork s c x b y))) :
    (h.isBlack (h.child b .left) && h.isBlack (h.child b .right)) = (!x.isRed && !y.isRed) ∧
      h.isBlack (h.child b s.other) = !y.isRed := by
  obtain ⟨-,-,hx,hy⟩ := hh.read
  have hbx : h.isBlack x.top = !x.isRed := Holds.isBlack (p := ⟨s,c,b,y⟩ :: p) hh
  have hby : h.isBlack y.top = !y.isRed := by
    rw [plug_fork_other] at hh
    exact hh.isBlack
  cases s with
  | left => exact ⟨by rw [hx,show h.child b .right = y.top from hy,hbx,hby],by rw [hy,hby]⟩
  | right => exact ⟨by rw [hx,show h.child b .left = y.top from hy,hbx,hby,Bool.and_comm],by rw [hy,hby]⟩

/-- A sibling with a red child: the loop ends with the parent's subtree mended. -/
private theorem rbEraseEnd_spec (hh : h.Holds (plug p (fork s c t a u))) (hu : u.top = some b) (hcu : u.isRed = false)
    (hv : mend s c t a u = some v) : (h.isBlack (h.child b .left) && h.isBlack (h.child b .right)) = false ∧
      ∃ h', rbEraseEnd s h a b = some h' ∧ h'.Holds ((plug p v).setRed false) := by
  obtain ⟨near,far,rfl⟩ : ∃ near far, u = fork s false near b far := ⟨_,_,hcu ▸ fork_of_top s hu⟩
  have hb := hh
  rw [plug_fork_other] at hb
  obtain ⟨hboth,hfarblack⟩ := hb.children_black
  rw [mend,view_fork] at hv
  dsimp only at hv
  split at hv
  · rename_i hcf
    cases hv
    obtain ⟨h',hlast,hh'⟩ := rbEraseLast_spec hh hcf
    refine ⟨by rw [hboth,hcf]; simp,h',?_,hh'⟩
    rw [rbEraseEnd,hfarblack,hcf]
    exact hlast
  · rename_i hcf
    split at hv
    · rename_i hcn
      split at hv
      · rename_i nn w nf hnear
        cases hv
        have hne := eq_fork_of_view hnear
        rw [hcn] at hne
        subst hne
        refine ⟨by rw [hboth,isRed_fork]; simp,?_⟩
        have hw : h.Holds (plug (⟨s,false,b,far⟩ :: ⟨s.other,c,a,t⟩ :: p) (fork s true nn w nf)) := hb
        have h1 := holds_setRed (d := false) hw
        have h2 : ((h.setRed w false).setRed b true).Holds
            (plug (⟨s.other,c,a,t⟩ :: p) (fork s true (fork s false nn w nf) b far)) :=
          holds_setRed (p := ⟨s.other,c,a,t⟩ :: p) h1
        rw [← fork_other s true,← fork_other s false] at h2
        obtain ⟨h3,hrot,hh3⟩ := holds_rbRotate h2
        rw [fork_other,fork_other,← plug_fork_other] at hh3
        obtain ⟨h',hlast,hh'⟩ := rbEraseLast_spec hh3 (isRed_fork _ _ _ _ _)
        rw [setRed_fork] at hh'
        refine ⟨h',?_,hh'⟩
        have hchild : h.child b s = some w := hb.read.2.2.1.trans (top_fork _ _ _ _ _)
        have hother : h3.child a s.other = some w := hh3.read.2.2.2.trans (top_fork _ _ _ _ _)
        rw [rbEraseEnd,hfarblack,Bool.eq_false_iff.mpr hcf]
        simp [hchild,hrot,hother,hlast]
      · cases hv
    · cases hv

/-- A sibling without a red child is painted red and the place moves up. -/
private theorem climb_spec (hh : h.Holds (plug p (fork s c t a u))) (hu : u.top = some b) (hcu : u.isRed = false)
    (hrb : RedBlack (n + 1) u) (hv : mend s c t a u = none) :
    (h.isBlack (h.child b .left) && h.isBlack (h.child b .right)) = true ∧ h.parent a = above p ∧
      (h.setRed b true).Holds (plug p (fork s c t a (u.setRed true))) := by
  obtain ⟨near,b',far,rfl,-,-,hcn,hcf⟩ := mend_eq_none hrb hcu hv
  rw [top_fork] at hu
  cases hu
  refine ⟨?_,hh.read.1,?_⟩
  · rw [plug_fork_other] at hh
    rw [hh.children_black.1,hcn,hcf]
    rfl
  · rw [plug_fork_other] at hh ⊢
    rw [setRed_fork]
    exact holds_setRed hh

/-- A red sibling is turned up; the place then has a black sibling, below a red parent. -/
private theorem rbEraseTurn_red {f : Frame α} (hh : h.Holds (plug (f :: p) t)) (hu : redSibling f = some (x,b,y))
    (hx : x.top = some e) : ∃ h', rbEraseTurn f.side h f.val = some (h',e) ∧
      h'.Holds (plug (⟨f.side,true,f.val,x⟩ :: ⟨f.side,false,b,y⟩ :: p) t) := by
  obtain ⟨s,c,a,u⟩ := f
  obtain rfl : u = fork s true x b y := redSibling_eq_some hu
  have ha : h.Holds (plug p (fork s c t a (fork s true x b y))) := hh
  have hb := ha
  rw [plug_fork_other] at hb
  have h1 := holds_setRed (d := false) hb
  rw [← plug_fork_other] at h1
  have h2 := holds_setRed (d := true) h1
  obtain ⟨h',hrot,hh'⟩ := holds_rbRotate h2
  refine ⟨h',?_,hh'⟩
  have hother : h.child a s.other = some b := ha.read.2.2.2.trans (top_fork _ _ _ _ _)
  have hsib : h'.child a s.other = some e :=
    (Holds.read (p := ⟨s,false,b,y⟩ :: p) hh').2.2.2.trans hx
  simp [rbEraseTurn,hother,hb.read.2.1,hrot,hsib]

private theorem rbEraseTurn_black {f : Frame α} (hh : h.Holds (plug (f :: p) t)) (hu : redSibling f = none)
    (he : f.sibling.top = some e) : rbEraseTurn f.side h f.val = some (h,e) := by
  have ha : h.Holds (plug p (fork f.side f.red t f.val f.sibling)) := hh
  have hother : h.child f.val f.side.other = some e := ha.read.2.2.2.trans he
  rw [plug_fork_other] at ha
  have hred : h.red e = false := (ha.red he).trans (redSibling_eq_none hu)
  simp [rbEraseTurn,hother,hred]

omit [DecidableEq α] in
/-- Above a place there is another node than its own at the root. -/
private theorem Holds.ne_root {f : Frame α} (hh : h.Holds (plug (f :: p) t)) : t.top ≠ h.root := by
  obtain ⟨r,hr,htop⟩ := top_plug_mem f p t
  rw [hh.1,htop]
  intro ht
  exact (List.nodup_append.mp (holds_plug.mp hh).2.2).2.2 r (mem_of_top ht) r hr rfl

/-- The loop at a black place below some parent. -/
private theorem rbEraseColor_turn {f : Frame α} {fuel : Nat} (hh : h.Holds (plug (f :: p) t)) (hc : t.isRed = false)
    (he : f.sibling.top ≠ none) : rbEraseColor (fuel + 1) h t.top (above (f :: p)) =
      (rbEraseTurn f.side h f.val).bind fun (h,other) =>
        if h.isBlack (h.child other .left) && h.isBlack (h.child other .right) then
          rbEraseColor fuel (h.setRed other true) (some f.val) (h.parent f.val)
        else rbEraseEnd f.side h f.val other := by
  have ha : h.Holds (plug p (fork f.side f.red t f.val f.sibling)) := hh
  have hside := ha.side (.inr he)
  have hloop : h.isBlack t.top ∧ t.top ≠ h.root := ⟨by rw [hh.isBlack,hc]; rfl,hh.ne_root⟩
  rw [rbEraseColor,if_pos hloop]
  simp only [above,Option.bind_eq_bind,Option.bind_some,hside]

private theorem rbEraseColor_stop {fuel : Nat} (hh : h.Holds (plug p t)) (hc : t.isRed = true ∨ p = [])
    (hfuel : 0 < fuel) : ∃ h', rbEraseColor fuel h t.top (above p) = some h' ∧ h'.Holds (plug p (t.setRed false)) := by
  obtain ⟨fuel,rfl⟩ : ∃ k, fuel = k + 1 := ⟨fuel - 1,by omega⟩
  refine ⟨_,?_,hh.paintBlack⟩
  rw [rbEraseColor,if_neg]
  rintro ⟨hblack,hroot⟩
  rcases hc with hc | rfl
  · rw [hh.isBlack,hc] at hblack
    cases hblack
  · exact hroot hh.1.symm

omit [DecidableEq α] in
private theorem top_of_redBlack (ht : RedBlack (n + 1) t) : ∃ a, t.top = some a := by
  obtain ⟨c,x,a,y,rfl⟩ := ht.exists_fork .left
  exact ⟨a,rfl⟩

/-- Every turn of the loop does to the tree what one step of the repair does. -/
theorem rbEraseColor_spec {fuel : Nat} (hh : h.Holds (plug p t)) (hp : Hole p (n + 1)) (hfuel : p.length + 1 ≤ fuel) :
    ∃ h', rbEraseColor fuel h t.top (above p) = some h' ∧ h'.Holds (eraseFix p t) := by
  fun_induction eraseFix p t generalizing h n fuel with
  | case1 t => exact rbEraseColor_stop hh (.inr rfl) (by omega)
  | case2 f p t hc => exact rbEraseColor_stop hh (.inl hc) (by omega)
  | case3 f p t hc near b far hu v hv =>
    obtain ⟨fuel,rfl⟩ : ∃ k, fuel = k + 1 := ⟨fuel - 1,by omega⟩
    have hsib := hp.cons.1
    obtain ⟨e,he⟩ := top_of_redBlack hsib
    rw [redSibling_eq_some hu,redBlack_red] at hsib
    obtain ⟨e',he'⟩ := top_of_redBlack hsib.1
    obtain ⟨h1,hturn,hh1⟩ := rbEraseTurn_red hh hu he'
    obtain ⟨hboth,h2,hend,hh2⟩ := rbEraseEnd_spec (p := ⟨f.side,false,b,far⟩ :: p) hh1 he' hsib.2.2.1 hv
    refine ⟨h2,?_,hh2⟩
    rw [rbEraseColor_turn hh (Bool.eq_false_iff.mpr hc) (by rw [he]; simp),hturn]
    simp only [Option.bind_some,hboth]
    exact hend
  | case4 f p t hc near b far hu hv =>
    obtain ⟨fuel,rfl⟩ : ∃ k, fuel = k + 1 := ⟨fuel - 1,by omega⟩
    have hsib := hp.cons.1
    obtain ⟨e,he⟩ := top_of_redBlack hsib
    rw [redSibling_eq_some hu,redBlack_red] at hsib
    obtain ⟨e',he'⟩ := top_of_redBlack hsib.1
    obtain ⟨h1,hturn,hh1⟩ := rbEraseTurn_red hh hu he'
    obtain ⟨hboth,hpar,hh2⟩ := climb_spec (p := ⟨f.side,false,b,far⟩ :: p) hh1 he' hsib.2.2.1 hsib.1 hv
    obtain ⟨h2,hend,hh3⟩ := rbEraseColor_stop (p := ⟨f.side,false,b,far⟩ :: p) hh2 (.inl (isRed_fork _ _ _ _ _))
      (show 0 < fuel by simp only [List.length_cons] at hfuel; omega)
    rw [setRed_fork] at hh3
    refine ⟨h2,?_,hh3⟩
    rw [rbEraseColor_turn hh (Bool.eq_false_iff.mpr hc) (by rw [he]; simp),hturn]
    simp only [Option.bind_some,hboth,if_true,hpar]
    rw [top_fork] at hend
    exact hend
  | case5 f p t hc hu v hv =>
    obtain ⟨fuel,rfl⟩ : ∃ k, fuel = k + 1 := ⟨fuel - 1,by omega⟩
    obtain ⟨e,he⟩ := top_of_redBlack hp.cons.1
    obtain ⟨hboth,h2,hend,hh2⟩ := rbEraseEnd_spec (p := p) hh he (redSibling_eq_none hu) hv
    refine ⟨h2,?_,hh2⟩
    rw [rbEraseColor_turn hh (Bool.eq_false_iff.mpr hc) (by rw [he]; simp),rbEraseTurn_black hh hu he]
    simp only [Option.bind_some,hboth]
    exact hend
  | case6 f p t hc hu hv ih =>
    obtain ⟨fuel,rfl⟩ : ∃ k, fuel = k + 1 := ⟨fuel - 1,by omega⟩
    obtain ⟨hsib,-,hup⟩ := hp.cons
    obtain ⟨e,he⟩ := top_of_redBlack hsib
    obtain ⟨hboth,hpar,hh2⟩ := climb_spec (p := p) hh he (redSibling_eq_none hu) hsib hv
    obtain ⟨m,hm⟩ : ∃ m, Hole p (m + 1) := by
      split at hup
      · exact ⟨_,hup⟩
      · exact ⟨_,hup⟩
    obtain ⟨h2,hend,hh3⟩ := ih hh2 hm (show p.length + 1 ≤ fuel by simp only [List.length_cons] at hfuel; omega)
    refine ⟨h2,?_,hh3⟩
    rw [rbEraseColor_turn hh (Bool.eq_false_iff.mpr hc) (by rw [he]; simp),rbEraseTurn_black hh hu he]
    simp only [Option.bind_some,hboth,if_true,hpar]
    rw [top_fork] at hend
    exact hend

end Color

section Place
variable {c d : Bool} {l m r : Tree α} {q : Path α} {fuel : Nat}

/-- A node with one child: the child takes its place. -/
private theorem rbEraseOne_spec (hh : h.Holds (plug p (fork s c m a .nil))) (hp : Hole p n)
    (hrb : RedBlack n (fork s c m a .nil)) (hfuel : p.length + 1 ≤ fuel) :
    ∃ h', rbEraseOne fuel h a m.top = some h' ∧ h'.Holds (close p c m) := by
  have hcut := holds_unlink hh
  obtain ⟨hpar,hred,-,-⟩ := hh.read
  rw [rbEraseOne,hred]
  cases c with
  | true => exact ⟨_,if_pos rfl,hcut⟩
  | false =>
    cases n with
    | zero => exact absurd hrb not_redBlack_zero
    | succ n =>
      obtain ⟨h',hloop,hh'⟩ := rbEraseColor_spec hcut hp hfuel
      rw [hpar] at hloop
      exact ⟨h',by simpa [hpar] using hloop,hh'⟩

omit [DecidableEq α] in
/-- The walk to the left ends at the leftmost node. -/
private theorem leftmostFrom_spec (hh : h.Holds (plug (q ++ p) (.node d .nil b m))) (hq : ∀ f ∈ q, f.side = .left)
    (ha : (plug q (.node d .nil b m)).top = some a) (hfuel : q.length + 1 ≤ fuel) :
    leftmostFrom fuel h a = some b := by
  induction q using List.reverseRecOn generalizing a p fuel with
  | nil =>
    obtain ⟨fuel,rfl⟩ : ∃ k, fuel = k + 1 := ⟨fuel - 1,by omega⟩
    cases ha
    have hleft : h.child b .left = none := (Holds.read (s := .left) (x := .nil) hh).2.2.1
    simp [leftmostFrom,hleft]
  | append_singleton q f ih =>
    obtain ⟨fuel,rfl⟩ : ∃ k, fuel = k + 1 := ⟨fuel - 1,by omega⟩
    rw [plug_append,plug,plug,top_fork] at ha
    cases ha
    have hf : f.side = .left := hq f (by simp)
    obtain ⟨e,he⟩ : ∃ e, (plug q (.node d .nil b m)).top = some e := by
      cases q with
      | nil => exact ⟨b,rfl⟩
      | cons g q =>
        obtain ⟨e,-,he⟩ := top_plug_mem g q (.node d .nil b m)
        exact ⟨e,he⟩
    rw [List.append_assoc,List.singleton_append] at hh
    have hplace := hh
    rw [plug_append,plug,hf] at hplace
    have hleft : h.child f.val .left = some e := hplace.read.2.2.1.trans he
    rw [leftmostFrom,hleft]
    rw [List.length_append,List.length_singleton] at hfuel
    exact ih hh (fun g hg => hq g (by simp [hg])) he (by omega)

/-- The successor was the right child: the code leaves its right subtree where it is. -/
private theorem same_standIn_right {lt z : α} (hpb : h.parent b = some a) (hlt : h.child a .left = some lt)
    (hm : ∀ e, h.child b .right = some e → h.parent e = some b ∧ e ≠ a) (hltb : lt ≠ b) (hlta : lt ≠ a)
    (hpa : h.parent a ≠ some a) (hpab : h.parent a ≠ some b) (hz : z ≠ a) :
    Same (((h.adopt (h.child b .right) (h.parent b)).relink .left (h.parent b) b (h.child b .right)).rbReplaceNode a b)
      ((h.relink .left (h.parent a) a (some b)).standIn a b lt) z := by
  have hcut : (h.adopt (h.child b .right) (h.parent b)).relink .left (h.parent b) b (h.child b .right) =
      (h.adopt (h.child b .right) (some a)).setChild a .right (h.child b .right) := by
    rw [hpb]
    simp only [relink,adopt_child]
    rw [if_neg]
    · rfl
    · rw [hlt]
      exact fun he => hltb (Option.some.inj he)
  have hma : h.child b .right ≠ some a := fun he => (hm a he).2 rfl
  rw [hcut]
  set k := (h.adopt (h.child b .right) (some a)).setChild a .right (h.child b .right) with hk
  have hkp (e : α) : k.parent e = if h.child b .right = some e then some a else h.parent e := adopt_parent
  have hkr (e : α) : k.red e = h.red e := congrFun adopt_red e
  have hkl : k.child a .left = some lt := by
    simp [hk,setChild,adopt_child,hlt]
  have hkright : k.child a .right = h.child b .right := setChild_self _ _ _ _
  have hkc (e : α) (he : e ≠ a) : k.child e = h.child e := by
    rw [hk,setChild_of_ne _ _ _ he,adopt_child]
  have hkpa : k.parent a = h.parent a := by rw [hkp,if_neg hma]
  obtain ⟨r1,r2,r3⟩ := rbReplaceNode_fields (h := k) (b := b) (by rw [hkpa]; exact hpa)
    (by rw [hkl]; exact fun he => hlta (Option.some.inj he)) (by rw [hkright]; exact hma) z
  obtain ⟨s1,s2,s3⟩ := standIn_fields (h := h.relink .left (h.parent a) a (some b)) (a := a) z b lt
  rw [hkpa,hkl,hkright,hkp] at r1
  rw [hkr,hkr] at r2
  rw [relink_parent] at s1
  rw [relink_red] at s2
  refine ⟨?_,s2.trans r2.symm,?_⟩
  · rw [r1,s1]
    by_cases hzl : z = lt
    · subst hzl
      simp [hltb]
    · by_cases hmz : h.child b .right = some z
      · simp [hzl,hmz,(hm z hmz).1]
      · simp [hzl,hmz,Ne.symm hzl]
  · rw [r3,s3]
    by_cases hzb : z = b
    · rw [if_pos hzb,if_pos hzb]
      funext e
      cases e with
      | left => rw [hkl,Function.update_self]
      | right =>
        rw [hkright,Function.update_of_ne (by decide),(same_relink hpab).2.2]
    · rw [if_neg hzb,if_neg hzb,hkpa]
      exact (relink_child_congr (hkc z hz)).symm

/-- The successor was further down: the node above it loses its left child to the successor's right subtree. -/
private theorem same_standIn_down {par lt rt z : α} (hpb : h.parent b = some par) (hbl : h.child par .left = some b)
    (hlt : h.child a .left = some lt) (hrt : h.child a .right = some rt)
    (hma : h.child b .right ≠ some a) (hpara : par ≠ a) (hparb : par ≠ b) (hltb : lt ≠ b) (hlta : lt ≠ a)
    (hrtb : rt ≠ b) (hrta : rt ≠ a) (hpa : h.parent a ≠ some a)
    (hpapar : h.parent a ≠ some par) :
    Same (((h.adopt (h.child b .right) (h.parent b)).relink .left (h.parent b) b (h.child b .right)).rbReplaceNode a b)
      (((h.relink .left (h.parent a) a (some b)).cutOut b par (h.child b .right) rt).standIn a b lt) z := by
  have hcut : (h.adopt (h.child b .right) (h.parent b)).relink .left (h.parent b) b (h.child b .right) =
      (h.adopt (h.child b .right) (some par)).setChild par .left (h.child b .right) := by
    rw [hpb]
    simp only [relink,adopt_child]
    rw [if_pos hbl]
  rw [hcut]
  set k := (h.adopt (h.child b .right) (some par)).setChild par .left (h.child b .right) with hk
  have hkp (e : α) : k.parent e = if h.child b .right = some e then some par else h.parent e := adopt_parent
  have hkr (e : α) : k.red e = h.red e := congrFun adopt_red e
  have hkc (e : α) (he : e ≠ par) : k.child e = h.child e := by
    rw [hk,setChild_of_ne _ _ _ he,adopt_child]
  have hka : k.child a = h.child a := hkc a (Ne.symm hpara)
  have hkpa : k.parent a = h.parent a := by rw [hkp,if_neg hma]
  obtain ⟨r1,r2,r3⟩ := rbReplaceNode_fields (h := k) (b := b) (by rw [hkpa]; exact hpa)
    (by rw [hka,hlt]; exact fun he => hlta (Option.some.inj he))
    (by rw [hka,hrt]; exact fun he => hrta (Option.some.inj he)) z
  set g := h.relink .left (h.parent a) a (some b) with hg
  set c := g.cutOut b par (h.child b .right) rt
  have hc := cutOut_fields (h := g) (Ne.symm hparb) (h.child b .right) rt
  obtain ⟨s1,s2,s3⟩ := standIn_fields (h := c) (a := a) z b lt
  have hgp (e : α) : g.parent e = h.parent e := congrFun relink_parent e
  have hgr (e : α) : g.red e = h.red e := congrFun relink_red e
  rw [(hc a).1,(hc z).1,if_neg (Ne.symm hrta),if_neg hma,hgp,hgp] at s1
  rw [(hc a).2.1,(hc z).2.1,hgr,hgr] at s2
  rw [(hc b).2.2,(hc z).2.2,if_pos rfl] at s3
  rw [hkpa,hka,hlt,hrt,hkp] at r1
  rw [hkr,hkr] at r2
  rw [hka,hkpa] at r3
  refine ⟨?_,s2.trans r2.symm,?_⟩
  · rw [r1,s1]
    by_cases hzl : z = lt
    · simp [hzl,hltb]
    · by_cases hzr : z = rt
      · simp [hzr,hrtb,eq_comm]
      · simp [hzl,hzr,Ne.symm hzl,Ne.symm hzr]
  · rw [r3,s3]
    by_cases hzb : z = b
    · rw [if_pos hzb,if_pos hzb]
      funext e
      cases e with
      | left => rw [hlt,Function.update_self]
      | right => rw [hrt,Function.update_of_ne (by decide),Function.update_self]
    · rw [if_neg hzb,if_neg hzb,if_neg hzb]
      by_cases hzp : z = par
      · subst hzp
        rw [if_pos rfl,(same_relink hpapar).2.2,(same_relink hpapar).2.2,hk]
        simp [setChild,adopt_child]
      · rw [if_neg hzp]
        exact (relink_child_congr (hkc z hzp)).symm

/-- The links after a successor has moved: the node taken out is cut off, the successor stands in its place. -/
private theorem rbTakePlace_spec (hh : h.Holds (plug (q ++ ⟨.right,c,a,l⟩ :: p) (.node d .nil b m)))
    (hq : ∀ f ∈ q, f.side = .left) (hl : l ≠ .nil) :
    ∃ h' par, rbTakePlace h a b = some (h',m.top,par,d) ∧ above (q ++ ⟨.right,c,b,l⟩ :: p) = some par ∧
      h'.Holds (plug (q ++ ⟨.right,c,b,l⟩ :: p) m) := by
  have hn := (holds_plug.mp hh).2.2
  simp only [inorder_node,inorder_nil,List.nil_append,nodes_append,nodes,List.cons_append,List.nodup_cons,
    List.nodup_append,List.mem_append,List.mem_cons,not_or] at hn
  obtain ⟨⟨hbm,hbq,hba,hbl,hbp⟩,hnm,⟨hnq,⟨⟨hal,hap⟩,-⟩,hqr⟩,hmr⟩ := hn
  obtain ⟨lt,hlt⟩ : ∃ e, l.top = some e := by
    cases l with
    | nil => exact absurd rfl hl
    | node => exact ⟨_,rfl⟩
  have hcut := holds_unlink (s := .right) (t := m) hh
  obtain ⟨hpb,hrb,-,hmt⟩ := Holds.read (s := .left) (x := .nil) (y := m) hh
  have hplace := hh
  rw [plug_append] at hplace
  obtain ⟨hpa,-,hrt,hlta⟩ := Holds.read (s := .right) (y := l) hplace
  dsimp only at hpa hrt
  replace hlta : h.child a .left = l.top := hlta
  replace hmt : h.child b .right = m.top := hmt
  have hplacem : h.Holds (plug (⟨.right,d,b,.nil⟩ :: (q ++ ⟨.right,c,a,l⟩ :: p)) m) := hh
  rw [← hmt] at hcut
  have hmoved : (((h.adopt (h.child b .right) (h.parent b)).relink .left (h.parent b) b
      (h.child b .right)).rbReplaceNode a b).Holds
      (plug (q ++ ⟨.right,c,b,l⟩ :: p) m) := by
    have hout : b ∉ (plug (q ++ ⟨.right,c,a,l⟩ :: p) m).inorder := by
      rw [(inorder_plug_perm _ _).mem_iff,nodes_append,nodes]
      simp [hbm,hbq,hba,hbl,hbp]
    rw [plug_append] at hcut hout ⊢
    exact holds_rbReplaceNode hcut hout
  have hself : h.parent a ≠ some a := by
    rw [hpa]
    exact above_ne hap
  have hnodeb : h.parent a ≠ some b := by
    rw [hpa]
    exact above_ne hbp
  have hma (e : α) (he : h.child b .right = some e) : e ∈ m.inorder := mem_of_top (hmt.symm.trans he)
  have hltb : lt ≠ b := fun he => hbl (he ▸ mem_of_top hlt)
  have hltne : lt ≠ a := fun he => hal (he ▸ mem_of_top hlt)
  have hrel : (h.relink .left (h.parent a) a (some b)).child a = h.child a := (same_relink hself).2.2
  have hrelb : (h.relink .left (h.parent a) a (some b)).child b = h.child b := (same_relink hnodeb).2.2
  have hroot (par : α) (hpar : h.parent b = some par) : (((h.adopt (h.child b .right) (h.parent b)).relink .left
      (h.parent b) b (h.child b .right)).rbReplaceNode a b).root = (h.relink .left (h.parent a) a (some b)).root := by
    rw [rbReplaceNode_root,relink_root,relink_root,relink_root,relink_parent,adopt_parent,hpar,adopt_root,if_neg]
    · rfl
    · exact fun he => hmr a (hma a he) a (.inr (.inl rfl)) rfl
  cases q with
  | nil =>
    have hpb : h.parent b = some a := hpb
    refine ⟨(h.relink .left (h.parent a) a (some b)).standIn a b lt,b,?_,rfl,hmoved.frame (hroot a hpb).symm ?_⟩
    · simp [rbTakePlace,relink_parent,relink_red,hrel,hrelb,hpb,hrb,hlta,hlt,hmt]
    · intro z hz
      refine same_standIn_right hpb (hlta.trans hlt) (fun e he => ⟨?_,?_⟩) hltb hltne hself hnodeb ?_
      · exact hplacem.parent (hmt.symm.trans he)
      · exact fun hea => hmr e (hma e he) a (.inr (.inl rfl)) hea
      · intro hza
        rw [hza,(inorder_plug_perm _ _).mem_iff] at hz
        simp only [nodes,List.nil_append,List.mem_append,List.mem_cons] at hz
        rcases hz with hz | hz | hz | hz
        · exact hmr a hz a (.inr (.inl rfl)) rfl
        · exact hba hz.symm
        · exact hal hz
        · exact hap hz
  | cons g q =>
    have hpb : h.parent b = some g.val := hpb
    have hgmem : g.val ∈ nodes (g :: q) := List.mem_cons_self
    have hga : g.val ≠ a := hqr _ hgmem _ (.inl rfl)
    have hgb : g.val ≠ b := fun he => hbq (he ▸ hgmem)
    obtain ⟨rt,hrtmem,hrt'⟩ := top_plug_mem g q (.node d .nil b m)
    have hg : h.Holds (plug (q ++ ⟨.right,c,a,l⟩ :: p) (fork g.side g.red (.node d .nil b m) g.val g.sibling)) := hh
    have hgleft : h.child g.val .left = some b := by
      rw [hq g List.mem_cons_self] at hg
      exact hg.read.2.2.1
    refine ⟨((h.relink .left (h.parent a) a (some b)).cutOut b g.val (h.child b .right) rt).standIn a b lt,g.val,
      ?_,rfl,hmoved.frame ?_ fun z _ => ?_⟩
    · have hcuta : ((h.relink .left (h.parent a) a (some b)).cutOut b g.val m.top rt).child a = h.child a := by
        rw [(cutOut_fields hgb.symm _ _ a).2.2,if_neg (Ne.symm hba),if_neg hga.symm,hrel]
      simp [rbTakePlace,relink_parent,relink_red,hrel,hrelb,hpb,hrb,hlta,hlt,hga,hrt,hrt',hcuta,hmt]
    · rw [standIn_root,cutOut_root,hroot _ hpb]
    · apply same_standIn_down hpb hgleft (hlta.trans hlt) (hrt.trans hrt') ?_ hga hgb hltb hltne ?_ ?_ hself ?_
      · exact fun he => hmr a (hma a he) a (.inr (.inl rfl)) rfl
      · exact fun he => hbq (he ▸ hrtmem)
      · exact hqr _ hrtmem _ (.inl rfl)
      · rw [hpa]
        exact above_ne fun hgp => hqr _ hgmem _ (.inr (.inr hgp)) rfl

/-- rb_erase never reaches through NULL and does to the tree what taking the node out does. -/
theorem rbErase_spec {r : Tree α} (hh : h.Holds (plug p (.node c l a r))) (hb : Balanced (plug p (.node c l a r)))
    (hfuel : (plug p (.node c l a r)).height < fuel) :
    ∃ h', rbErase fuel h a = some h' ∧ h'.Holds (eraseAt p (.node c l a r)) := by
  have hlen := length_add_height p (.node c l a r)
  obtain ⟨-,-,hla,hra⟩ := Holds.read (s := .left) (x := l) (y := r) hh
  replace hra : h.child a .right = r.top := hra
  rw [rbErase,hla]
  by_cases hl : l = .nil
  · subst hl
    obtain ⟨n,hp,hrb,-⟩ := balanced_plug.mp hb
    obtain ⟨h',hone,hh'⟩ := rbEraseOne_spec (s := .right) hh hp hrb (show p.length + 1 ≤ fuel by omega)
    rw [eraseAt_nil_left]
    exact ⟨h',by rw [← hra] at hone; exact hone,hh'⟩
  obtain ⟨lt,hlt⟩ : ∃ e, l.top = some e := by
    cases l with
    | nil => exact absurd rfl hl
    | node => exact ⟨_,rfl⟩
  by_cases hr : r = .nil
  · subst hr
    obtain ⟨n,hp,hrb,-⟩ := balanced_plug.mp hb
    obtain ⟨h',hone,hh'⟩ := rbEraseOne_spec (s := .left) hh hp hrb (show p.length + 1 ≤ fuel by omega)
    rw [eraseAt_nil_right]
    refine ⟨h',?_,hh'⟩
    rw [hra,hlt]
    rw [hlt] at hone
    exact hone
  obtain ⟨q,d,b,m,hq,hleft,he⟩ := eraseAt_successor p c a hl hr
  have hplace : plug p (.node c l a r) = plug (q ++ ⟨.right,c,a,l⟩ :: p) (.node d .nil b m) := by
    rw [plug_append,← hq]
    rfl
  obtain ⟨rt,hrt⟩ : ∃ e, r.top = some e := by
    cases r with
    | nil => exact absurd rfl hr
    | node => exact ⟨_,rfl⟩
  rw [hplace] at hh hb hfuel
  have hlong := length_add_height (q ++ ⟨.right,c,a,l⟩ :: p) (.node d .nil b m)
  rw [List.length_append,List.length_cons] at hlong
  have hwalk := leftmostFrom_spec hh hleft (hq ▸ hrt) (show q.length + 1 ≤ fuel by omega)
  obtain ⟨h1,par,hmove,hpar,hh1⟩ := rbTakePlace_spec hh hleft hl
  obtain ⟨n,hp,hrb,-⟩ := balanced_plug.mp hb
  rw [he]
  rw [hlt,hra,hrt]
  simp only [rbEraseTwo,hwalk,hmove,Option.bind_eq_bind,Option.bind_some]
  cases d with
  | true => exact ⟨h1,rfl,hh1⟩
  | false =>
    cases n with
    | zero => cases hrb
    | succ n =>
      have hlen' : (q ++ ⟨.right,c,b,l⟩ :: p : Path α).length + 1 ≤ fuel := by
        rw [List.length_append,List.length_cons]
        simp only [height] at hlong
        omega
      obtain ⟨h',hloop,hh'⟩ := rbEraseColor_spec hh1 ((hole_append q _ p b).mp hp) hlen'
      rw [hpar] at hloop
      exact ⟨h',hloop,hh'⟩

end Place

end Memqueue.RbHeap
