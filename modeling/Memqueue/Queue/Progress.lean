import Memqueue.Expiry.Apart
import Memqueue.Expiry.Passes
import Memqueue.Queue.Cleaner
import Memqueue.Queue.NoDelete

/-! obj_cleaner going round without waiting: every pass takes something away while anything is due,
and a consumer that leaves adds a notice due later. -/
namespace Memqueue
open Ins Fallible Expiry

/-- Every tree is a search tree for its own type. -/
structure Regular (s : Ins) : Prop where
  base : Base s
  sound : s.expiry.Sound
  pure : s.expiry.Pure

theorem Regular.orderly {s : Ins} (h : Regular s) (type : ObjType) : Orderly type (s.expiry.root type).inorder where
  addrs := h.sound.addrs type
  sorted := h.sound.sorted type
  pure := h.pure type
  once := h.base.index.wf.nodup type

theorem regular_init : Regular .init where
  base := base_init
  sound := sound_empty
  pure _ _ h := by cases h

section Passes
variable [Rebalance ExpiryNode] {now : Nat}

theorem Regular.step {s s' : Ins} {l : Label} {out : Option Response} (hr : Regular s)
    (h : step s l = .ok (s',out)) : Regular s' := by
  obtain ⟨as,ht,_⟩ := step_trace hr.base h
  have hindex := step_index hr.base h
  exact ⟨trace_base ht hr.base,hindex.sound hr.sound,hindex.pure hr.sound hr.pure⟩

private theorem Regular.pass {s s' : Ins} {type : ObjType} (hr : Regular s)
    (h : objsExpire (expiryHost now) now type s = .ok s') : Regular s' := by
  obtain ⟨as,ht,_⟩ := objsExpire_trace hr.base h
  have hindex := (objsExpire_index hr.base h).1
  exact ⟨trace_base ht hr.base,hindex.sound hr.sound,hindex.pure hr.sound hr.pure⟩

omit [Rebalance ExpiryNode] in
private theorem memqueueRetain_freedNode (s : Ins) (q : Ptr) : memqueueRetain s q ≠ .error .freedNode := by
  intro h
  simp only [memqueueRetain,Counting.exact_bind] at h
  split at h <;> cases h

omit [Rebalance ExpiryNode] in
private theorem memqueueRelease_freedNode (s : Ins) (q : Ptr) : memqueueRelease s q ≠ .error .freedNode := by
  intro h
  simp only [memqueueRelease,Counting.exact_bind] at h
  split at h
  · cases h
  · split at h
    · cases h
    · split at h <;> cases h

omit [Rebalance ExpiryNode] in
private theorem memqueueMsgRelease_freedNode (s : Ins) (m : Ptr) : memqueueMsgRelease s m ≠ .error .freedNode := by
  intro h
  simp only [memqueueMsgRelease,Counting.exact_bind] at h
  split at h
  · cases h
  · split at h
    · rcases bind_error h with h | ⟨_,_,h⟩
      · exact memqueueRelease_freedNode _ _ h
      · cases h
    · exact memqueueRelease_freedNode _ _ h

omit [Rebalance ExpiryNode] in
private theorem pushMsgs_freedNode (m : Ptr) (L : List MemqueueBinder) (s : Ins) :
    L.foldlM (pushMsg m) s ≠ .error .freedNode := by
  have hpush : Ensures (L.foldlM (pushMsg m) s) (fun _ => True) (· ≠ .freedNode) := by
    refine foldlM_ensures (fun _ _ => True) ?_ L s trivial
    intro β _ t _
    refine ensures_intro (fun _ _ => trivial) ?_
    rintro f hf rfl
    simp only [pushMsg] at hf
    split at hf
    · rcases bind_error hf with hf | ⟨_,_,hf⟩
      · exact memqueueRetain_freedNode _ _ hf
      · cases hf
    · cases hf
  exact fun h => hpush.failure h rfl

private theorem memqueueMsgCreate_freedNode (s : Ins) (q : Ptr) (msecs : Int) (data : Bytes) :
    memqueueMsgCreate now s q msecs data ≠ .error .freedNode := by
  intro h
  rcases bind_error h with h | ⟨_,_,h⟩
  · simp only [schedMsg] at h
    split at h
    · rcases bind_error h with h | ⟨_,_,h⟩
      · exact objSchedExpire_fault h
      · exact memqueueRetain_freedNode _ _ h
    · cases h
  rcases bind_error h with h | ⟨_,_,h⟩
  · simp only [keepMsg] at h
    split at h
    · exact memqueueRetain_freedNode _ _ h
    · cases h
  · exact pushMsgs_freedNode _ _ _ h

/-- Handing an object over never looks at an expiry node that is gone. -/
theorem release_freedNode (type : ObjType) (s : Ins) (o : Ptr) :
    (expiryHost now).release type s o ≠ .error .freedNode := by
  intro h
  cases type with
  | msg => exact memqueueMsgRelease_freedNode _ _ h
  | memqueue => exact memqueueRelease_freedNode _ _ h
  | consumer =>
    rcases bind_error h with h | ⟨_,_,h⟩
    · exact memqueueMsgCreate_freedNode _ _ _ _ h
    · rcases bind_error h with h | ⟨_,_,h⟩
      · exact memqueueRelease_freedNode _ _ h
      · cases h

/-- What is left to do for the cleaner: nodes to erase, and consumers that may still leave a notice. -/
def work (e : Expiry) : Nat :=
  (e.root .msg).inorder.length + (e.root .memqueue).inorder.length +
    ((e.root .consumer).inorder.length + (e.indexed .consumer).length)

private theorem release_root {s s' : Ins} {type t : ObjType} {o : Ptr} (ht : type = .consumer → t ≠ .msg)
    (h : (expiryHost now).release type s o = .ok s') : s'.expiry.root t = s.expiry.root t := by
  cases type with
  | msg => rw [(memqueueMsgRelease_effect h).expiry]
  | memqueue => rw [(memqueueRelease_effect h).expiry]
  | consumer =>
    obtain ⟨u,hu,h⟩ := bind_ok h
    obtain ⟨w,hw,h⟩ := bind_ok h
    cases h
    show w.expiry.root t = _
    rw [(memqueueRelease_effect hw).expiry]
    exact (objSchedExpire_root_ne (ht rfl) ((memqueueMsgCreate_effect hu).scheduled (by omega))).1

/-- A pass leaves the other trees alone, but for the notices of consumers. -/
private theorem pass_root {s s' : Ins} {type t : ObjType} (hne : t ≠ type) (ht : type = .consumer → t ≠ .msg)
    (h : objsExpire (expiryHost now) now type s = .ok s') : s'.expiry.root t = s.expiry.root t := by
  refine objsExpire_keeps (fun u : Ins => u.expiry.root t = s.expiry.root t) ?_ ?_ rfl h
  · intro u o u' hu ho
    obtain ⟨w,hw,ho⟩ := bind_ok ho
    cases ho
    show (w.expiry.setNode type o none).root t = _
    rw [root_setNode,release_root ht hw]
    show (listRemove u.expiry type o).root t = _
    rw [listRemove,root_setRoot_ne _ hne,hu]
  · intro u a f e hu he
    show e.root t = _
    rw [possiblyNodeFree_root_ne hne he]
    exact hu

private theorem objSchedExpire_length {e e' : Expiry} {obj msecs : Nat} {type : ObjType}
    (h : objSchedExpire e now obj msecs type = .ok e') :
    (e'.root type).inorder.length ≤ (e.root type).inorder.length + 1 := by
  obtain ⟨b,⟨t,_,ht,rfl⟩ | ⟨n,_,rfl⟩⟩ := objSchedExpire_cases h
  · obtain ⟨l,r,hold,hin⟩ := rbInsert_inorder ht
    rw [root_setNode,listInsertHead,root_setRoot,Tree.inorder_map,List.length_map,root_setRoot,hin]
    have : (e.root type).inorder = l ++ r := hold
    rw [this]
    simp only [List.length_append,List.length_cons]
    omega
  · rw [listInsertHead,root_setRoot,Tree.inorder_map,List.length_map]
    exact Nat.le_succ _

/-- Every consumer handed over adds at most one node to the messages. -/
private theorem pass_notices {s s' : Ins} {rel : List Ptr}
    (h : objsExpire (expiryHost now).logged now .consumer (s,[]) = .ok (s',rel)) :
    (s'.expiry.root .msg).inorder.length ≤ (s.expiry.root .msg).inorder.length + rel.length := by
  refine objsExpire_keeps (fun u : Ins × List Ptr =>
    (u.1.expiry.root .msg).inorder.length ≤ (s.expiry.root .msg).inorder.length + u.2.length) ?_ ?_
      (Nat.le_add_right _ _) h
  · rintro ⟨u,l⟩ o u' hu ho
    rw [expireObj_logged] at ho
    obtain ⟨w,hw,rfl⟩ := map_ok ho
    obtain ⟨x,hx,hw⟩ := bind_ok hw
    cases hw
    obtain ⟨y,hy,hx⟩ := bind_ok hx
    obtain ⟨z,hz,hx⟩ := bind_ok hx
    cases hx
    have hlen := objSchedExpire_length ((memqueueMsgCreate_effect hy).scheduled (by decide))
    have hroot : (listRemove u.expiry .consumer o).root .msg = u.expiry.root .msg := root_setRoot_ne _ (by decide) _
    show (z.expiry.root .msg).inorder.length ≤ _ + (l ++ [o]).length
    rw [(memqueueRelease_effect hz).expiry,List.length_append,List.length_singleton]
    change _ ≤ ((listRemove u.expiry .consumer o).root .msg).inorder.length + 1 at hlen
    rw [hroot] at hlen
    dsimp only at hu
    omega
  · rintro ⟨u,l⟩ a f e hu he
    show (e.root .msg).inorder.length ≤ _
    rw [possiblyNodeFree_root_ne (by decide) he]
    exact hu

private theorem host_swept {s : Ins} {type : ObjType} (ho : Orderly type (s.expiry.root type).inorder) :
    Ensures (objsExpire (expiryHost now).logged now type (s,[]))
      (fun r => ∃ erased,
        Swept type (now % 2^32) (s.expiry.root type).inorder (r.1.expiry.root type).inorder erased r.2 ∧
        ((∃ n ∈ (s.expiry.root type).inorder, n.msecs ≤ now % 2^32) → erased ≠ []))
      (· ≠ .freedNode) :=
  objsExpire_swept (fun _ _ _ h => expiryHost_root h) (release_freedNode type) now ho

private theorem pass_swept {s s' : Ins} {type : ObjType} (hr : Regular s)
    (h : objsExpire (expiryHost now) now type s = .ok s') :
    ∃ erased rel, objsExpire (expiryHost now).logged now type (s,[]) = .ok (s',rel) ∧
      Swept type (now % 2^32) (s.expiry.root type).inorder (s'.expiry.root type).inorder erased rel ∧
      ((∃ n ∈ (s.expiry.root type).inorder, n.msecs ≤ now % 2^32) → erased ≠ []) := by
  obtain ⟨rel,hrel⟩ := exists_log h []
  obtain ⟨erased,hswept,hsome⟩ := (host_swept (hr.orderly type)).result hrel
  exact ⟨erased,rel,hrel,hswept,hsome⟩

/-- No pass adds to the work, and one that finds a due node does some of it. -/
theorem pass_work {s s' : Ins} {type : ObjType} (hr : Regular s) (h : objsExpire (expiryHost now) now type s = .ok s') :
    work s'.expiry ≤ work s.expiry ∧
      ((∃ n ∈ (s.expiry.root type).inorder, n.msecs ≤ now % 2^32) → work s'.expiry < work s.expiry) := by
  obtain ⟨erased,rel,hrel,hswept,hsome⟩ := pass_swept hr h
  have hperm := hswept.perm (hr.orderly type)
  have hlen := hperm.length_eq
  rw [List.length_append] at hlen
  have hsuff : work s'.expiry + erased.length ≤ work s.expiry := by
    cases type with
    | msg =>
      have hq := pass_root (t := .memqueue) (by decide) (by decide) h
      have hc := pass_root (t := .consumer) (by decide) (by decide) h
      simp only [work,indexed,hq,hc]
      omega
    | memqueue =>
      have hm := pass_root (t := .msg) (by decide) (by decide) h
      have hc := pass_root (t := .consumer) (by decide) (by decide) h
      simp only [work,indexed,hm,hc]
      omega
    | consumer =>
      have hq := pass_root (t := .memqueue) (by decide) (by decide) h
      have hm := pass_notices hrel
      have hidx := (hperm.flatMap_right fun n => n.objs .consumer).length_eq
      rw [List.flatMap_append,← hswept.released,List.length_append] at hidx
      simp only [work,indexed,hq]
      omega
  refine ⟨by omega,fun hdue => ?_⟩
  have := List.length_pos_of_ne_nil (hsome hdue)
  omega

private theorem pass_deadlines {s s' : Ins} {type t : ObjType} {d : Nat} (hr : Regular s)
    (h : objsExpire (expiryHost now) now type s = .ok s') (hd : d ∈ s'.expiry.deadlines t) :
    d ∈ s.expiry.deadlines t ∨ d = (now + 2000) % 2^32 := by
  refine ((objsExpire_index hr.base h).1.invariant (I := fun e => ∀ d ∈ e.deadlines t,
    d ∈ s.expiry.deadlines t ∨ d = (now + 2000) % 2^32) ?_ hr.sound (fun _ hd => .inl hd)).2 d hd
  intro op u v hop hu hi hm d hd
  rcases hm.deadlines hu hd with hold | ⟨c,rfl,_,rfl⟩
  · exact hi d hold
  · obtain ⟨m,_,rfl⟩ := List.mem_map.mp (hop c rfl)
    exact .inr rfl

end Passes

/-- One round of obj_cleaner between two waits, with the clock readings it takes from the `k`th on. -/
def cleanerRound [Rebalance ExpiryNode] (clock : Nat → Nat) (k : Nat) (s : Ins) : Except Fault (Ins × Nat) := do
  let s ← objsExpire (expiryHost (clock k)) (clock k) .msg s
  let s ← objsExpire (expiryHost (clock (k + 1))) (clock (k + 1)) .memqueue s
  let s ← objsExpire (expiryHost (clock (k + 2))) (clock (k + 2)) .consumer s
  pure (s,schedGetMinTimeout s.expiry (clock (k + 3)))

/-- The rounds of obj_cleaner up to the first wait, at most `n` of them: it goes on without one while `sleep` is 1. -/
def cleanerRepeat [Rebalance ExpiryNode] (clock : Nat → Nat) : Nat → Nat → Ins → Except Fault Ins
  | 0, _, s => pure s
  | n + 1, k, s => do
    let (s,sleep) ← cleanerRound clock k s
    if sleep = 1 then cleanerRepeat clock n (k + 4) s else pure s

/-- Some deadline is `t` or earlier. -/
def DueBy (t : Nat) (e : Expiry) : Prop := ∃ type, ∃ d ∈ e.deadlines type, d ≤ t

section Rounds
variable [Rebalance ExpiryNode] {clock : Nat → Nat}

theorem cleanerRepeat_ensures {J : Ins → Prop} {E : Fault → Prop}
    (hpass : ∀ now type s, J s → Ensures (objsExpire (expiryHost now) now type s) J E) (n k : Nat) (s : Ins)
    (hs : J s) : Ensures (cleanerRepeat clock n k s) J E := by
  have hround : ∀ k s, J s → Ensures (cleanerRound clock k s) (fun r => J r.1) E := by
    intro k s hs
    refine (hpass _ _ s hs).bind fun s₁ hs₁ => ?_
    refine (hpass _ _ s₁ hs₁).bind fun s₂ hs₂ => ?_
    exact (hpass _ _ s₂ hs₂).bind fun s₃ hs₃ => hs₃
  induction n generalizing k s with
  | zero => exact hs
  | succ n ih =>
    apply (hround k s hs).bind
    rintro ⟨s',sleep⟩ hs'
    dsimp only
    split
    · exact ih _ _ hs'
    · exact hs'

private theorem pass_regular (now : Nat) (type : ObjType) (s : Ins) (hr : Regular s) :
    Ensures (objsExpire (expiryHost now) now type s) Regular (· ≠ .freedNode) := by
  refine ensures_intro (fun s' h => hr.pass h) ?_
  intro f hf
  rw [← objsExpire_logged _ _ _ _ []] at hf
  cases hx : objsExpire (expiryHost now).logged now type (s,[]) with
  | ok r => rw [hx] at hf; cases hf
  | error g =>
    rw [hx] at hf
    cases hf
    exact (host_swept (hr.orderly type)).failure hx

private theorem pass_sound (now : Nat) (type : ObjType) (s : Ins) (hs : Regular s ∧ Sound s) :
    Ensures (objsExpire (expiryHost now) now type s) (fun t => Regular t ∧ Sound t) (fun _ => False) := by
  refine ensures_intro (fun s' h => ?_) fun f hf => ?_
  · exact ⟨hs.1.pass h,(objsExpire_sound hs.2).result h⟩
  · exact (pass_regular now type s hs.1).failure hf (objsExpire_fault hs.2 hf)

/-- One pass, seen from an earlier time `t`: what is due then counts down the work, and nothing due then comes up. -/
private theorem pass_step {s s' : Ins} {type : ObjType} {now t : Nat} (hr : Regular s) (ht : t ≤ now)
    (hfits : now + 2000 < 2^32) (h : objsExpire (expiryHost now) now type s = .ok s') :
    Regular s' ∧ work s'.expiry ≤ work s.expiry ∧
      ((∃ d ∈ s.expiry.deadlines type, d ≤ t) → work s'.expiry < work s.expiry) ∧
      (DueBy t s'.expiry → DueBy t s.expiry) := by
  obtain ⟨hle,hlt⟩ := pass_work hr h
  refine ⟨hr.pass h,hle,?_,?_⟩
  · rintro ⟨d,hd,hdt⟩
    obtain ⟨n,hn,rfl⟩ := List.mem_map.mp hd
    refine hlt ⟨n,hn,?_⟩
    rw [Nat.mod_eq_of_lt (by omega)]
    omega
  · rintro ⟨u,d,hd,hdt⟩
    rcases pass_deadlines hr h hd with hold | hnew
    · exact ⟨u,d,hold,hdt⟩
    · rw [Nat.mod_eq_of_lt hfits] at hnew
      omega

private theorem round_step (hmono : Monotone clock) {k t sleep : Nat} {s s' : Ins} (hr : Regular s) (ht : t ≤ clock k)
    (hfits : clock (k + 3) + 2000 < 2^32) (h : cleanerRound clock k s = .ok (s',sleep)) :
    Regular s' ∧ work s'.expiry ≤ work s.expiry ∧ (DueBy t s.expiry → work s'.expiry < work s.expiry) ∧
      (DueBy t s'.expiry → DueBy t s.expiry) ∧ (sleep ≠ 1 → ¬ DueBy t s'.expiry) := by
  obtain ⟨s₁,h₁,h⟩ := bind_ok h
  obtain ⟨s₂,h₂,h⟩ := bind_ok h
  obtain ⟨s₃,h₃,h⟩ := bind_ok h
  cases h
  have hc₁ : clock k ≤ clock (k + 1) := hmono (by omega)
  have hc₂ : clock (k + 1) ≤ clock (k + 2) := hmono (by omega)
  have hc₃ : clock (k + 2) ≤ clock (k + 3) := hmono (by omega)
  obtain ⟨hr₁,hw₁,hlt₁,hd₁⟩ := pass_step hr ht (by omega) h₁
  obtain ⟨hr₂,hw₂,hlt₂,hd₂⟩ := pass_step hr₁ (t := t) (by omega) (by omega) h₂
  obtain ⟨hr₃,hw₃,hlt₃,hd₃⟩ := pass_step hr₂ (t := t) (by omega) (by omega) h₃
  refine ⟨hr₃,by omega,?_,fun hd => hd₁ (hd₂ (hd₃ hd)),?_⟩
  · rintro ⟨type,d,hd,hdt⟩
    -- the tree that holds the due node is still as it was when its pass begins
    cases type with
    | msg =>
      have := hlt₁ ⟨d,hd,hdt⟩
      omega
    | memqueue =>
      rw [deadlines,← pass_root (by decide) (by decide) h₁] at hd
      have := hlt₂ ⟨d,hd,hdt⟩
      omega
    | consumer =>
      rw [deadlines,← pass_root (by decide) (by decide) h₁,← pass_root (by decide) (by decide) h₂] at hd
      have := hlt₃ ⟨d,hd,hdt⟩
      omega
  · rintro hne ⟨type,d,hd,hdt⟩
    have hlate := schedGetMinTimeout_le hr₃.sound hne type hd
    rw [Nat.mod_eq_of_lt (by omega)] at hlate
    by_cases hzero : schedGetMinTimeout s'.expiry (clock (k + 3)) = 0
    · rw [schedGetMinTimeout_zero hr₃.sound hzero type] at hd
      cases hd
    · omega

omit [Rebalance ExpiryNode] in
private theorem work_pos {t : Nat} {e : Expiry} (h : DueBy t e) : 0 < work e := by
  obtain ⟨type,d,hd,_⟩ := h
  obtain ⟨n,hn,_⟩ := List.mem_map.mp hd
  have hpos := List.length_pos_of_mem hn
  cases type <;> (simp only [work]; omega)

/-- After as many rounds as there is work, nothing is left that was due at `t`. -/
private theorem cleanerRepeat_clears (hmono : Monotone clock) {t n k : Nat} {s s' : Ins} (hr : Regular s)
    (ht : t ≤ clock k) (hfits : clock (k + 4 * n) + 2000 < 2^32) (hn : DueBy t s.expiry → work s.expiry ≤ n)
    (h : cleanerRepeat clock n k s = .ok s') : ¬ DueBy t s'.expiry := by
  induction n generalizing k s with
  | zero =>
    cases h
    intro hd
    exact absurd (hn hd) (Nat.not_le.mpr (work_pos hd))
  | succ n ih =>
    obtain ⟨⟨u,sleep⟩,hu,h⟩ := bind_ok h
    have hc₁ : clock k ≤ clock (k + 4) := hmono (by omega)
    have hc₂ : clock (k + 3) ≤ clock (k + 4 * (n + 1)) := hmono (by omega)
    obtain ⟨hru,_,hlt,hback,hstop⟩ := round_step hmono hr ht (by omega) hu
    dsimp only at h
    split at h
    · refine ih hru (ht.trans hc₁) ?_ (fun hd => ?_) h
      · rwa [show k + 4 + 4 * n = k + 4 * (n + 1) by omega]
      · have hdue := hback hd
        have := hn hdue
        have := hlt hdue
        omega
    · rename_i hne
      cases h
      exact hstop hne

/-- A pass erases due nodes only, hands over each of their objects once, visits no freed node, ends by itself, and
erases something if anything was due. The passes obj_cleaner makes without a wait so clear whatever was due at the
first of them. -/
theorem passes_sound_and_clearing :
    (∀ (now : Nat) (type : ObjType) (s : Ins), Orderly type (s.expiry.root type).inorder →
      (objsExpire (expiryHost now).logged now type (s,[])).map Prod.fst = objsExpire (expiryHost now) now type s ∧
      Ensures (objsExpire (expiryHost now).logged now type (s,[]))
        (fun r => ∃ erased,
          Swept type (now % 2^32) (s.expiry.root type).inorder (r.1.expiry.root type).inorder erased r.2 ∧ r.2.Nodup ∧
          ((∃ n ∈ (s.expiry.root type).inorder, n.msecs ≤ now % 2^32) → erased ≠ []))
        (· ≠ .freedNode) ∧
      ∀ k, objsExpireFrom (expiryHost now) type (now % 2^32) ((s.expiry.root type).inorder.length + k)
        ((s.expiry.root type).top.map ExpiryNode.addr) s = objsExpire (expiryHost now) now type s) ∧
    (∀ (clock : Nat → Nat) (s : Ins) (n : Nat), Regular s → Monotone clock → clock (4 * n) + 2000 < 2^32 →
      work s.expiry ≤ n →
      Ensures (cleanerRepeat clock n 0 s) (fun s' => ∀ type, ∀ m ∈ (s'.expiry.root type).inorder, clock 0 < m.msecs)
        (· ≠ .freedNode) ∧
      (Sound s → ∃ s', cleanerRepeat clock n 0 s = .ok s')) ∧
    ∀ tr s, Run step (fun _ _ => True) .init tr s → Regular s := by
  refine ⟨?_,?_,fun tr s h => h.invariant (fun _ _ _ _ hr _ hs => hr.step hs) regular_init⟩
  · intro now type s ho
    refine ⟨objsExpire_logged _ _ _ _ _,?_,fun k => ?_⟩
    · refine (host_swept ho).mono ?_ fun _ hf => hf
      rintro r ⟨erased,hswept,hsome⟩
      exact ⟨erased,hswept,hswept.once ho,hsome⟩
    · exact objsExpire_ends (fun _ _ _ h => expiryHost_root h) now k ho
  · intro clock s n hr hmono hfits hn
    refine ⟨ensures_intro (fun s' h => ?_) fun f hf => ?_,fun hs => ?_⟩
    · intro type m hm
      have hclear := cleanerRepeat_clears hmono (t := clock 0) hr le_rfl (by simpa using hfits) (fun _ => hn) h
      refine Nat.lt_of_not_le fun hle => ?_
      exact hclear ⟨type,m.msecs,List.mem_map_of_mem hm,hle⟩
    · exact (cleanerRepeat_ensures pass_regular n 0 s hr).failure hf
    · have hok : Ensures (cleanerRepeat clock n 0 s) _ _ := cleanerRepeat_ensures pass_sound n 0 s ⟨hr,hs⟩
      cases hx : cleanerRepeat clock n 0 s with
      | ok s' => exact ⟨s',rfl⟩
      | error f => rw [hx] at hok; exact hok.elim

end Rounds

/-- Three queues due in ascending order hang in a right spine, so each round takes only one of them. One pass at 40
hands one over; the passes made without a wait leave nothing that is due. -/
theorem passes_sound_and_clearing_three :
    letI := Rebalance.plain ExpiryNode
    ∃ s, Run step (fun _ _ => True) .init
        [⟨0,.put ⟨10,0,0,0,[97]⟩⟩,⟨0,.put ⟨20,0,0,0,[98]⟩⟩,⟨0,.put ⟨30,0,0,0,[99]⟩⟩] s ∧
      s.expiry.deadlines .memqueue = [10,20,30] ∧
      Ensures (objsExpire (expiryHost 40).logged 40 .memqueue (s,[]))
        (fun r => ∃ erased, erased ≠ [] ∧ r.2.Nodup ∧ Swept .memqueue 40 (s.expiry.root .memqueue).inorder
          (r.1.expiry.root .memqueue).inorder erased r.2) (· ≠ .freedNode) ∧
      ∃ s', cleanerRepeat (fun _ => 40) 3 0 s = .ok s' ∧ ∀ type, ∀ m ∈ (s'.expiry.root type).inorder, 40 < m.msecs := by
  let _ := Rebalance.plain ExpiryNode
  obtain ⟨s,hs,hobs⟩ := Option.map_eq_some_iff.mp (show (exec step (fun _ l => !l.event.isDelete) .init
      [⟨0,.put ⟨10,0,0,0,[97]⟩⟩,⟨0,.put ⟨20,0,0,0,[98]⟩⟩,⟨0,.put ⟨30,0,0,0,[99]⟩⟩]).map
        (fun s => (s.expiry.deadlines .memqueue,work s.expiry)) = some ([10,20,30],3) by decide +kernel)
  have hrun : Reaches NoDelete _ s := (Run.of_exec hs).mono fun _ _ hg => by simpa [NoDelete] using hg
  obtain ⟨hb,hl,hi⟩ := reaches_undeleted hrun
  simp only [Prod.mk.injEq] at hobs
  obtain ⟨hdead,hwork⟩ := hobs
  obtain ⟨hpass,hclear,hregular⟩ := passes_sound_and_clearing
  have hr : Regular s := hregular _ s (hrun.mono fun _ _ _ => trivial)
  obtain ⟨n,hn,hdue⟩ : ∃ n ∈ (s.expiry.root .memqueue).inorder, n.msecs = 10 :=
    List.mem_map.mp (show 10 ∈ s.expiry.deadlines .memqueue by rw [hdead]; decide)
  obtain ⟨hafter,hok⟩ := hclear (fun _ => 40) s 3 hr monotone_const (by decide) hwork.le
  obtain ⟨s',hs'⟩ := hok ⟨hb,hl,hi.owned⟩
  refine ⟨s,hrun.mono fun _ _ _ => trivial,hdead,?_,s',hs',hafter.result hs'⟩
  refine (hpass 40 .memqueue s (hr.orderly .memqueue)).2.1.mono ?_ fun _ hf => hf
  rintro r ⟨erased,hswept,hnodup,hsome⟩
  exact ⟨erased,hsome ⟨n,hn,by rw [hdue]; decide⟩,hnodup,hswept⟩

end Memqueue
