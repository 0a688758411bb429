import Memqueue.Queue.Progress
import Memqueue.Rbtree.Instance

/-! The trees of the server run with rbtree.c: in every state reached they are balanced, so no descent
takes more turns than twice the logarithm of the number of deadlines. -/
namespace Memqueue
open Ins Fallible Expiry Memqueue.Tree

def Expiry.Balanced (e : Expiry) : Prop := ∀ type, (e.root type).Balanced

private theorem rbLinkNode_place {t t' : Tree ExpiryNode} {data : ExpiryNode} (h : rbLinkNode t data = some t') :
    ∃ q, t = plug q .nil ∧ t' = plug q (.node true .nil data .nil) := by
  induction t generalizing t' with
  | nil =>
    cases h
    exact ⟨[],rfl,rfl⟩
  | node c l n r il ir =>
    simp only [rbLinkNode] at h
    split at h
    · obtain ⟨l',hl,rfl⟩ := Option.map_eq_some_iff.mp h
      obtain ⟨q,rfl,rfl⟩ := il hl
      exact ⟨q ++ [⟨.left,c,n,r⟩],by rw [plug_append]; rfl,by rw [plug_append]; rfl⟩
    · split at h
      · obtain ⟨r',hr,rfl⟩ := Option.map_eq_some_iff.mp h
        obtain ⟨q,rfl,rfl⟩ := ir hr
        exact ⟨q ++ [⟨.right,c,n,l⟩],by rw [plug_append]; rfl,by rw [plug_append]; rfl⟩
      · cases h

section Moves
variable {e e' : Expiry} {type : ObjType}

private theorem Expiry.Balanced.setRoot (hb : e.Balanced) {t : Tree ExpiryNode} (ht : t.Balanced) :
    (e.setRoot type t).Balanced := by
  intro u
  by_cases hu : u = type
  · subst hu
    rwa [root_setRoot]
  · rw [root_setRoot_ne e hu]
    exact hb u

private theorem Expiry.Balanced.mapRoot (hb : e.Balanced) (f : ExpiryNode → ExpiryNode) :
    (e.setRoot type ((e.root type).map f)).Balanced :=
  hb.setRoot ((hb type).map f)

/-- No change of the index puts one of its trees out of balance. -/
theorem IndexMove.balanced {now : Nat} {op : IndexOp} (h : @IndexMove (Rebalance.rbtree ExpiryNode) now op e e')
    (hs : e.Sound) (hb : e.Balanced) : e'.Balanced := by
  let _ := Rebalance.rbtree ExpiryNode
  cases h with
  | @sched c e e' _ hcall =>
    obtain ⟨b,⟨t,_,hins,rfl⟩ | ⟨n,_,rfl⟩⟩ := objSchedExpire_cases hcall
    · obtain ⟨u,hlink,rfl⟩ := Option.map_eq_some_iff.mp hins
      obtain ⟨q,hq,rfl⟩ := rbLinkNode_place hlink
      have hnew (n : ExpiryNode) : (fixInserted (plug q (.node true .nil n .nil))).Balanced :=
        balanced_fixInserted (hq ▸ hb c.type)
      intro u
      rw [root_setNode]
      exact Expiry.Balanced.mapRoot (Expiry.Balanced.setRoot (e := (e.signalIf b).allocNode) hb (hnew _)) _ u
    · exact Expiry.Balanced.mapRoot (e := e.signalIf b) hb _
  | unlink => exact hb.mapRoot _
  | clear => exact fun u => by rw [root_setNode]; exact hb u
  | @sweep type addr e e' f hfree =>
    obtain ⟨n,_,_,⟨_,_,rfl⟩ | ⟨_,_,rfl⟩⟩ := possiblyNodeFree_cases hfree
    · refine hb.setRoot (balanced_eraseWhere (hb type) ?_)
      have hone := List.nodup_iff_count_le_one.mp (hs.addrs type) addr
      rw [List.count,List.countP_map] at hone
      refine le_trans (le_of_eq ?_) hone
      exact List.countP_congr fun m _ => by simp
    · exact hb

end Moves

/-- In every state of every run the three trees are balanced: no descent is longer than twice the logarithm
of the number of deadlines that stand in the tree. -/
theorem reaches_balanced {P : Ins → Label → Prop} {tr : List Label} {s : Ins}
    (h : @Reaches (Rebalance.rbtree ExpiryNode) _ P tr s) (type : ObjType) :
    (s.expiry.root type).Balanced ∧
      (s.expiry.root type).height ≤ 2 * Nat.log 2 ((s.expiry.deadlines type).length + 1) := by
  let _ := Rebalance.rbtree ExpiryNode
  have hrun : Regular s ∧ s.expiry.Balanced := by
    refine h.invariant (I := fun s => Regular s ∧ s.expiry.Balanced) ?_ ⟨regular_init,fun type => ⟨rfl,0,.nil⟩⟩
    rintro s l s' out ⟨hr,hb⟩ _ hstep
    refine ⟨hr.step hstep,((step_index hr.base hstep).invariant ?_ hr.sound hb).2⟩
    exact fun op u v _ hsu hbu hm => hm.balanced hsu hbu
  refine ⟨hrun.2 type,?_⟩
  rw [deadlines,List.length_map]
  exact (hrun.2 type).height_le

/-- A queue and two messages with deadlines of their own. -/
theorem reaches_balanced_posts :
    letI := Rebalance.rbtree ExpiryNode
    ∃ s, Reaches (fun _ _ => True)
        [⟨0,.put ⟨0,0,0,0,[113]⟩⟩,⟨1,.post [113] 9 [1]⟩,⟨2,.post [113] 4 [2]⟩,⟨3,.post [113] 1 [3]⟩] s ∧
      (s.expiry.deadlines .msg) = [4,6,10] ∧ (s.expiry.root .msg).height ≤ 4 := by
  let _ := Rebalance.rbtree ExpiryNode
  obtain ⟨s,hs,hobs⟩ := Option.map_eq_some_iff.mp (show (exec step (fun _ _ => true) .init
      [⟨0,.put ⟨0,0,0,0,[113]⟩⟩,⟨1,.post [113] 9 [1]⟩,⟨2,.post [113] 4 [2]⟩,⟨3,.post [113] 1 [3]⟩]).map
        (fun s => s.expiry.deadlines .msg) = some [4,6,10] by decide +kernel)
  have hr : Reaches (fun _ _ => True) _ s := (Run.of_exec hs).mono fun _ _ _ => trivial
  have hlow := (reaches_balanced hr .msg).2
  rw [hobs] at hlow
  exact ⟨s,hr,hobs,hlow⟩

end Memqueue
