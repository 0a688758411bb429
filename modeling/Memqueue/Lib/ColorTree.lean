import Mathlib

/-! Coloured binary trees, and rebalancing known only through its in-order law.
A node's identity is a predicate on its payload; shapes and colours stay free. -/
namespace Memqueue

inductive Tree (α : Type) where
  | nil : Tree α
  | node (red : Bool) (left : Tree α) (val : α) (right : Tree α) : Tree α
  deriving Repr, DecidableEq

namespace Tree
variable {α : Type}

def inorder : Tree α → List α
  | .nil => []
  | .node _ l a r => l.inorder ++ a :: r.inorder

def map {β : Type} (f : α → β) : Tree α → Tree β
  | .nil => .nil
  | .node c l a r => .node c (l.map f) (f a) (r.map f)

def top : Tree α → Option α
  | .nil => none
  | .node _ _ a _ => some a

def left : Tree α → Tree α
  | .nil => .nil
  | .node _ l _ _ => l

/-- The last payload met on the way down the left spine. -/
def leftmost : Tree α → Option α
  | .nil => none
  | .node _ l a _ => (l.leftmost).or (some a)

/-- The subtree whose top payload is the one pointed at. -/
def subtree? (p : α → Bool) : Tree α → Option (Tree α)
  | .nil => none
  | .node c l a r =>
    if p a then some (.node c l a r) else (l.subtree? p).or (r.subtree? p)

@[simp] theorem inorder_nil : (nil : Tree α).inorder = [] := rfl

@[simp] theorem inorder_node (c : Bool) (l r : Tree α) (a : α) :
    (node c l a r).inorder = l.inorder ++ a :: r.inorder := rfl

@[simp] theorem inorder_map {β : Type} (f : α → β) (t : Tree α) :
    (t.map f).inorder = t.inorder.map f := by
  induction t with
  | nil => rfl
  | node c l a r il ir => simp [map,il,ir]

theorem mem_of_leftmost {t : Tree α} {a : α} (h : t.leftmost = some a) : a ∈ t.inorder := by
  induction t with
  | nil => cases h
  | node c l b r il _ =>
    simp only [leftmost] at h
    cases hl : l.leftmost with
    | none => simp_all
    | some x => simp_all

/-- A looked-up subtree is headed by the node pointed at and holds only nodes of the tree. -/
theorem subtree?_spec {p : α → Bool} {t u : Tree α} (h : t.subtree? p = some u) :
    (∃ a, u.top = some a ∧ p a = true) ∧ ∀ a ∈ u.inorder, a ∈ t.inorder := by
  induction t with
  | nil => cases h
  | node c l b r il ir =>
    simp only [subtree?] at h
    split at h
    · rename_i hb
      cases h
      exact ⟨⟨b,rfl,hb⟩,fun a ha => ha⟩
    · cases hl : l.subtree? p with
      | none =>
        rw [hl,Option.none_or] at h
        obtain ⟨ht,hm⟩ := ir h
        exact ⟨ht,fun a ha => by simp [hm a ha]⟩
      | some v =>
        rw [hl,Option.some_or] at h
        cases h
        obtain ⟨ht,hm⟩ := il hl
        exact ⟨ht,fun a ha => by simp [hm a ha]⟩

theorem subtree?_isSome {p : α → Bool} {t : Tree α} {a : α} (ha : a ∈ t.inorder) (hp : p a = true) :
    ∃ u, t.subtree? p = some u := by
  induction t with
  | nil => cases ha
  | node c l b r il ir =>
    simp only [subtree?]
    split
    · exact ⟨_,rfl⟩
    · rename_i hb
      rw [inorder_node,List.mem_append,List.mem_cons] at ha
      rcases ha with hl | rfl | hr
      · obtain ⟨u,hu⟩ := il hl
        exact ⟨u,by rw [hu]; rfl⟩
      · exact absurd hp hb
      · obtain ⟨u,hu⟩ := ir hr
        cases hl : l.subtree? p with
        | none => exact ⟨u,by rw [Option.none_or]; exact hu⟩
        | some v => exact ⟨v,rfl⟩

theorem mem_of_top {t : Tree α} {a : α} (h : t.top = some a) : a ∈ t.inorder := by
  cases t with
  | nil => cases h
  | node c l b r => cases h; simp

theorem mem_of_mem_left {t : Tree α} {a : α} (h : a ∈ t.left.inorder) : a ∈ t.inorder := by
  cases t with
  | nil => exact h
  | node c l b r => exact List.mem_append_left _ h

/-- A looked-up subtree is a part of the in-order sequence. -/
theorem subtree?_sublist {p : α → Bool} {t u : Tree α} (h : t.subtree? p = some u) :
    u.inorder.Sublist t.inorder := by
  induction t with
  | nil => cases h
  | node c l b r il ir =>
    simp only [subtree?] at h
    split at h
    · cases h
      exact .refl _
    · cases hl : l.subtree? p with
      | none =>
        rw [hl,Option.none_or] at h
        exact ((ir h).trans (List.sublist_cons_self b _)).trans (List.sublist_append_right _ _)
      | some v =>
        rw [hl,Option.some_or] at h
        cases h
        exact (il hl).trans (List.sublist_append_left _ _)

section Keys
variable {β : Type} [DecidableEq β] {key : α → β}

theorem subtree?_top {t : Tree α} {a : α} (h : t.top = some a) : t.subtree? (fun x => key x = key a) = some t := by
  cases t with
  | nil => cases h
  | node c l b r =>
    cases h
    simp [subtree?]

private theorem subtree?_absent {t : Tree α} {k : β} (h : k ∉ t.inorder.map key) :
    t.subtree? (fun x => key x = k) = none := by
  rw [Option.eq_none_iff_forall_ne_some]
  intro u hu
  obtain ⟨⟨a,ha,hk⟩,hsub⟩ := subtree?_spec hu
  exact h (List.mem_map.mpr ⟨a,hsub a (mem_of_top ha),by simpa using hk⟩)

/-- With distinct keys, looking up the top of a left subtree finds that left subtree. -/
theorem subtree?_left {t u : Tree α} {k : β} {b : α} (hn : (t.inorder.map key).Nodup)
    (h : t.subtree? (fun x => key x = k) = some u) (hb : u.left.top = some b) :
    t.subtree? (fun x => key x = key b) = some u.left := by
  induction t with
  | nil => cases h
  | node c l a r il ir =>
    simp only [inorder_node,List.map_append,List.map_cons] at hn
    obtain ⟨hnl,hnr,hcross⟩ := List.nodup_append.mp hn
    obtain ⟨har,hnr⟩ := List.nodup_cons.mp hnr
    simp only [subtree?] at h ⊢
    split at h
    · cases h
      have hne : key a ≠ key b := fun he =>
        hcross (key b) (List.mem_map_of_mem (mem_of_top hb)) (key a) List.mem_cons_self he.symm
      have hfound : l.subtree? (fun x => key x = key b) = some l := subtree?_top hb
      simp only [hne,decide_false,Bool.false_eq_true,if_false,left] at hfound ⊢
      rw [hfound,Option.some_or]
    · cases hl : l.subtree? (fun x => key x = k) with
      | some v =>
        rw [hl,Option.some_or] at h
        cases h
        have hin : key b ∈ l.inorder.map key :=
          List.mem_map_of_mem ((subtree?_spec hl).2 b (mem_of_mem_left (mem_of_top hb)))
        have hne : key a ≠ key b := fun he => hcross (key b) hin (key a) List.mem_cons_self he.symm
        simp only [hne,decide_false,Bool.false_eq_true,if_false]
        rw [il hnl hl,Option.some_or]
      | none =>
        rw [hl,Option.none_or] at h
        have hin : key b ∈ r.inorder.map key :=
          List.mem_map_of_mem ((subtree?_spec h).2 b (mem_of_mem_left (mem_of_top hb)))
        have hne : key a ≠ key b := fun he => har (he ▸ hin)
        have hout : key b ∉ l.inorder.map key := fun hl =>
          hcross (key b) hl (key b) (List.mem_cons_of_mem _ hin) rfl
        simp only [hne,decide_false,Bool.false_eq_true,if_false]
        rw [subtree?_absent hout,Option.none_or]
        exact ir hnr h

end Keys

private def join : Tree α → Tree α → Tree α
  | .nil, u => u
  | .node c l a r, u => .node c l a (r.join u)

private theorem inorder_join (t u : Tree α) : (t.join u).inorder = t.inorder ++ u.inorder := by
  induction t with
  | nil => rfl
  | node c l a r _ ir => simp [join,ir]

/-- Deletion that splices subtrees and never rotates. -/
def splice (p : α → Bool) : Tree α → Tree α
  | .nil => .nil
  | .node c l a r =>
    if p a then (l.splice p).join (r.splice p) else .node c (l.splice p) a (r.splice p)

theorem inorder_splice (p : α → Bool) (t : Tree α) :
    (t.splice p).inorder = t.inorder.filter (fun a => !p a) := by
  induction t with
  | nil => rfl
  | node c l a r il ir =>
    unfold splice
    by_cases h : p a = true
    · simp [h,inorder_join,il,ir]
    · simp [h,il,ir]

end Tree

/-- Insertion fix-up and deletion of a balanced tree library. Either may rotate and
recolour as it likes; only the in-order sequence of payloads is fixed. -/
class Rebalance (α : Type) where
  insertColor : Tree α → Tree α
  erase : (α → Bool) → Tree α → Tree α
  inorder_insertColor : ∀ t, (insertColor t).inorder = t.inorder
  inorder_erase : ∀ p t, (erase p t).inorder = t.inorder.filter (fun a => !p a)

/-- The library that never rotates, for evaluating concrete runs. -/
@[reducible] def Rebalance.plain (α : Type) : Rebalance α where
  insertColor t := t
  erase := Tree.splice
  inorder_insertColor _ := rfl
  inorder_erase := Tree.inorder_splice

end Memqueue
