import Memqueue.Lib.Table

/-! hash.c: items linked twice, into the list of their bucket and into one queue that keeps the order of
insertion. Together they carry a `Table`. Items are known by their address; keys are C strings. -/
namespace Memqueue

/-- The value of a char, which is signed. -/
def signedChar (c : UInt8) : Int := if c < 128 then c.toNat else (c.toNat : Int) - 256

/-- h_hash_func: a sum of chars in a C int that wraps around, returned as a uint32_t. -/
def hHashFunc (key : List UInt8) : Nat := (key.foldl (fun hash c => hash + signedChar c) 0 % 2^32).toNat

variable {V : Type}

/-- struct h_item with its own address. -/
structure HItem (V : Type) where
  addr : Nat
  key : List UInt8
  value : V
  deriving DecidableEq, Repr

/-- struct h_hash. The next address to be handed out stands for the allocator. -/
structure HHash (V : Type) where
  buckets : Nat → List (HItem V)
  orderHead : List (HItem V)
  size : Nat
  orderNext : Option Nat
  nextItem : Nat

def hInit (V : Type) (size : Nat) : HHash V := ⟨fun _ => [],[],size,none,0⟩

namespace HHash

/-- `h_hash_func(key, strlen(key)) % h->size` -/
def bucket (h : HHash V) (key : List UInt8) : Nat := hHashFunc key % h.size

end HHash

/-- LIST_REMOVE and TAILQ_REMOVE of the item at `addr`. -/
def unlinkItem (addr : Nat) (L : List (HItem V)) : List (HItem V) := L.eraseP fun x => x.addr = addr

def hRemove (h : HHash V) (key : List UInt8) : Int × HHash V :=
  match (h.buckets (h.bucket key)).find? fun x => key = x.key with
  | none => (-1,h)
  | some item =>
    (0,{ h with
      buckets := Function.update h.buckets (h.bucket key) (unlinkItem item.addr (h.buckets (h.bucket key)))
      orderHead := unlinkItem item.addr h.orderHead })

def hInsert (h : HHash V) (key : List UInt8) (value : V) : Int × HHash V :=
  if (h.buckets (h.bucket key)).any fun x => key = x.key then (-1,h)
  else
    let item : HItem V := ⟨h.nextItem,key,value⟩
    (0,{ h with
      buckets := Function.update h.buckets (h.bucket key) (item :: h.buckets (h.bucket key))
      orderHead := h.orderHead ++ [item]
      nextItem := h.nextItem + 1 })

def hGet (h : HHash V) (key : List UInt8) : Option V :=
  ((h.buckets (h.bucket key)).find? fun x => key = x.key).map HItem.value

/-- TAILQ_NEXT of the item at `addr`. -/
def tailqNext (addr : Nat) : List (HItem V) → Option (HItem V)
  | [] => none
  | x :: L => if x.addr = addr then L.head? else tailqNext addr L

def hNext (h : HHash V) : Option (HItem V) × HHash V :=
  let item :=
    match h.orderNext with
    | none => h.orderHead.head?
    | some a => tailqNext a h.orderHead
  (item,{ h with orderNext := item.map HItem.addr })

/-- The loop `while ((item = h_next(h)))`, which ends with the NULL. -/
def hTraverse : Nat → HHash V → List (HItem V) × HHash V
  | 0, h => ([],h)
  | fuel + 1, h =>
    match hNext h with
    | (some item,h) => (item :: (hTraverse fuel h).1,(hTraverse fuel h).2)
    | (none,h) => ([],h)

/-- What a client does with a table; a traversal goes on until NULL. -/
inductive HOp (V : Type) where
  | insert (key : List UInt8) (value : V)
  | remove (key : List UInt8)
  | get (key : List UInt8)
  | traverse
  deriving DecidableEq, Repr

/-- What it gets back. -/
inductive HResult (V : Type) where
  | code (ret : Int)
  | value (v : Option V)
  | items (es : List (List UInt8 × V))
  deriving DecidableEq, Repr

def HOp.run (h : HHash V) : HOp V → HResult V × HHash V
  | .insert key value => (.code (hInsert h key value).1,(hInsert h key value).2)
  | .remove key => (.code (hRemove h key).1,(hRemove h key).2)
  | .get key => (.value (hGet h key),h)
  | .traverse =>
    let r := hTraverse (h.orderHead.length + 1) h
    (.items (r.1.map fun x => (x.key,x.value)),r.2)

/-- The same operation on the insertion-ordered map. -/
def HOp.spec (t : Table (List UInt8) V) : HOp V → HResult V × Table (List UInt8) V
  | .insert key value => (.code (if (t.get key).isSome then -1 else 0),t.insert key value)
  | .remove key => (.code (if (t.get key).isSome then 0 else -1),t.remove key)
  | .get key => (.value (t.get key),t)
  | .traverse => (.items t,t)

/-- A sequence of operations, with their results. -/
def runOps {σ : Type} (f : σ → HOp V → HResult V × σ) (s : σ) : List (HOp V) → List (HResult V) × σ
  | [] => ([],s)
  | op :: ops => ((f s op).1 :: (runOps f (f s op).2 ops).1,(runOps f (f s op).2 ops).2)

/-- The two linked structures agree with each other and with the map `t`, and no traversal is under way. -/
structure Represents (h : HHash V) (t : Table (List UInt8) V) : Prop where
  order : h.orderHead.map (fun x => (x.key,x.value)) = t
  keys : (h.orderHead.map HItem.key).Nodup
  linked : ∀ i x, x ∈ h.buckets i ↔ x ∈ h.orderHead ∧ h.bucket x.key = i
  addrs : (h.orderHead.map HItem.addr).Nodup
  chains : ∀ i, ((h.buckets i).map HItem.addr).Nodup
  bound : ∀ x ∈ h.orderHead, x.addr < h.nextItem
  cursor : h.orderNext = none

theorem represents_init (V : Type) (size : Nat) : Represents (hInit V size) [] where
  order := rfl
  keys := List.nodup_nil
  linked i x := by simp [hInit]
  addrs := List.nodup_nil
  chains _ := List.nodup_nil
  bound x hx := by cases hx
  cursor := rfl

section Operations
variable {h : HHash V} {t : Table (List UInt8) V}

private theorem Represents.table_keys (hr : Represents h t) : Table.keys t = h.orderHead.map HItem.key := by
  rw [← hr.order,Table.keys,List.map_map]
  rfl

/-- The search in a bucket finds the item of the key, wherever it stands. -/
private theorem Represents.find_iff (hr : Represents h t) (key : List UInt8) (x : HItem V) :
    (h.buckets (h.bucket key)).find? (fun y => key = y.key) = some x ↔ x ∈ h.orderHead ∧ x.key = key := by
  constructor
  · intro hf
    obtain ⟨hin,_⟩ := (hr.linked _ _).mp (List.mem_of_find?_eq_some hf)
    have hkey := List.find?_some hf
    exact ⟨hin,(of_decide_eq_true hkey).symm⟩
  · rintro ⟨hin,rfl⟩
    have hmem : x ∈ h.buckets (h.bucket x.key) := (hr.linked _ _).mpr ⟨hin,rfl⟩
    cases hf : (h.buckets (h.bucket x.key)).find? fun y => x.key = y.key with
    | none =>
      have := List.find?_eq_none.mp hf x hmem
      simp at this
    | some y =>
      obtain ⟨hy,_⟩ := (hr.linked _ _).mp (List.mem_of_find?_eq_some hf)
      have hkey : x.key = y.key := by simpa using List.find?_some hf
      rw [List.inj_on_of_nodup_map hr.keys hy hin hkey.symm]

private theorem Represents.find_none (hr : Represents h t) (key : List UInt8) :
    (h.buckets (h.bucket key)).find? (fun y => key = y.key) = none ↔ t.get key = none := by
  rw [Table.get_eq_none,hr.table_keys]
  constructor
  · intro hf hmem
    obtain ⟨x,hx,rfl⟩ := List.mem_map.mp hmem
    rw [(hr.find_iff x.key x).mpr ⟨hx,rfl⟩] at hf
    cases hf
  · intro hno
    rw [Option.eq_none_iff_forall_not_mem]
    intro x hx
    obtain ⟨hin,rfl⟩ := (hr.find_iff key x).mp hx
    exact hno (List.mem_map_of_mem hin)

/-- h_get returns the value of the map. -/
theorem Represents.get (hr : Represents h t) (key : List UInt8) : hGet h key = t.get key := by
  rw [hGet]
  cases hf : (h.buckets (h.bucket key)).find? fun y => key = y.key with
  | none => exact ((hr.find_none key).mp hf).symm
  | some x =>
    obtain ⟨hin,rfl⟩ := (hr.find_iff key x).mp hf
    have hkeys : (Table.keys t).Nodup := by
      rw [hr.table_keys]
      exact hr.keys
    refine (Table.get_of_mem hkeys ?_).symm
    rw [← hr.order]
    exact List.mem_map.mpr ⟨x,hin,rfl⟩

private theorem any_iff_get (hr : Represents h t) (key : List UInt8) :
    ((h.buckets (h.bucket key)).any fun y => key = y.key) = (t.get key).isSome := by
  rw [← hr.get key,hGet,Option.isSome_map,Bool.eq_iff_iff,List.any_eq_true,List.find?_isSome]

/-- A present key is left alone. -/
theorem Represents.insert_present (hr : Represents h t) {key : List UInt8} (hkey : (t.get key).isSome = true)
    (value : V) : hInsert h key value = (-1,h) := by
  rw [hInsert,any_iff_get hr,if_pos hkey]

theorem Represents.insert_absent (hr : Represents h t) {key : List UInt8} (hkey : t.get key = none) (value : V) :
    (hInsert h key value).1 = 0 ∧ Represents (hInsert h key value).2 (t.insert key value) := by
  have hany : ¬ ((h.buckets (h.bucket key)).any fun y => key = y.key) = true := by
    rw [any_iff_get hr,hkey]
    simp
  rw [hInsert,if_neg hany]
  have hfresh : key ∉ h.orderHead.map HItem.key := by
    rw [← hr.table_keys]
    exact Table.get_eq_none.mp hkey
  have haddr : h.nextItem ∉ h.orderHead.map HItem.addr := by
    intro hm
    obtain ⟨x,hx,ha⟩ := List.mem_map.mp hm
    exact absurd (hr.bound x hx) (by omega)
  refine ⟨rfl,?_,?_,?_,?_,?_,?_,hr.cursor⟩
  · rw [List.map_append,hr.order,Table.insert_of_none hkey]
    rfl
  · rw [List.map_append]
    exact List.nodup_append_comm.mp (List.nodup_cons.mpr ⟨hfresh,hr.keys⟩)
  · intro i x
    simp only [HHash.bucket,Function.update_apply]
    by_cases hi : i = hHashFunc key % h.size
    · subst hi
      simp only [if_true,List.mem_cons,List.mem_append,List.not_mem_nil,or_false]
      have hold := hr.linked (hHashFunc key % h.size) x
      simp only [HHash.bucket] at hold ⊢
      rw [hold]
      constructor
      · rintro (rfl | ⟨hin,hb⟩)
        · exact ⟨.inr rfl,rfl⟩
        · exact ⟨.inl hin,hb⟩
      · rintro ⟨hin | hx,hb⟩
        · exact .inr ⟨hin,hb⟩
        · exact .inl hx
    · simp only [hi,if_false,List.mem_append,List.mem_singleton]
      rw [hr.linked i x]
      constructor
      · rintro ⟨hin,hb⟩
        exact ⟨.inl hin,hb⟩
      · rintro ⟨hin | rfl,hb⟩
        · exact ⟨hin,hb⟩
        · exact absurd hb.symm hi
  · rw [List.map_append]
    exact List.nodup_append_comm.mp (List.nodup_cons.mpr ⟨haddr,hr.addrs⟩)
  · intro i
    simp only [Function.update_apply]
    split
    · rw [List.map_cons,List.nodup_cons]
      refine ⟨fun hm => ?_,hr.chains _⟩
      obtain ⟨x,hx,ha⟩ := List.mem_map.mp hm
      exact haddr (List.mem_map.mpr ⟨x,((hr.linked _ _).mp hx).1,ha⟩)
    · exact hr.chains i
  · intro x hx
    rcases List.mem_append.mp hx with hx | hx
    · exact (hr.bound x hx).trans (Nat.lt_succ_self _)
    · obtain rfl := List.mem_singleton.mp hx
      exact Nat.lt_succ_self _

/-- h_insert is the insertion of the map. -/
theorem Represents.insert (hr : Represents h t) (key : List UInt8) (value : V) :
    Represents (hInsert h key value).2 (t.insert key value) := by
  cases hkey : t.get key with
  | none => exact (hr.insert_absent hkey value).2
  | some v =>
    have hsome : (t.get key).isSome = true := by rw [hkey]; rfl
    rw [hr.insert_present hsome,Table.insert,if_pos hsome]
    exact hr

theorem Represents.nodup_keys (hr : Represents h t) : (Table.keys t).Nodup := by
  rw [hr.table_keys]
  exact hr.keys

private theorem mem_unlinkItem {L : List (HItem V)} (hn : (L.map HItem.addr).Nodup) {a : Nat} {x : HItem V} :
    x ∈ unlinkItem a L ↔ x ∈ L ∧ x.addr ≠ a := by
  induction L with
  | nil => simp [unlinkItem]
  | cons y L ih =>
    rw [List.map_cons,List.nodup_cons] at hn
    by_cases hy : y.addr = a
    · subst hy
      have hrest : unlinkItem y.addr (y :: L) = L := by simp [unlinkItem]
      rw [hrest,List.mem_cons]
      constructor
      · intro hx
        exact ⟨.inr hx,fun he => hn.1 (List.mem_map.mpr ⟨x,hx,he⟩)⟩
      · rintro ⟨rfl | hx,hne⟩
        · exact absurd rfl hne
        · exact hx
    · have hrest : unlinkItem a (y :: L) = y :: unlinkItem a L := by simp [unlinkItem,hy]
      rw [hrest,List.mem_cons,List.mem_cons,ih hn.2]
      constructor
      · rintro (rfl | ⟨hx,hne⟩)
        · exact ⟨.inl rfl,hy⟩
        · exact ⟨.inr hx,hne⟩
      · rintro ⟨rfl | hx,hne⟩
        · exact .inl rfl
        · exact .inr ⟨hx,hne⟩

private theorem unlinkItem_sublist (a : Nat) (L : List (HItem V)) : (unlinkItem a L).Sublist L := List.eraseP_sublist

/-- Removing an item by its address is removing its key from the map. -/
private theorem unlinkItem_entries {L : List (HItem V)} (hk : (L.map HItem.key).Nodup) (hn : (L.map HItem.addr).Nodup)
    {x : HItem V} (hx : x ∈ L) : (unlinkItem x.addr L).map (fun y => (y.key,y.value)) =
      Table.remove (L.map fun y => (y.key,y.value)) x.key := by
  induction L with
  | nil => cases hx
  | cons y L ih =>
    rw [List.map_cons,List.nodup_cons] at hk hn
    by_cases hy : y = x
    · subst hy
      simp [unlinkItem,Table.remove]
    · have hin : x ∈ L := (List.mem_cons.mp hx).resolve_left fun he => hy he.symm
      have haddr : y.addr ≠ x.addr := fun he => hn.1 (he ▸ List.mem_map_of_mem hin)
      have hkey : y.key ≠ x.key := fun he => hk.1 (he ▸ List.mem_map_of_mem hin)
      have hrest := ih hk.2 hn.2 hin
      simp only [unlinkItem,Table.remove] at hrest ⊢
      simp [haddr,hkey,hrest]

theorem Represents.remove_present (hr : Represents h t) {key : List UInt8} (hkey : (t.get key).isSome = true) :
    (hRemove h key).1 = 0 ∧ Represents (hRemove h key).2 (t.remove key) := by
  have hfound : ∃ x, (h.buckets (h.bucket key)).find? (fun y => key = y.key) = some x := by
    cases hf : (h.buckets (h.bucket key)).find? fun y => key = y.key with
    | none =>
      rw [(hr.find_none key).mp hf] at hkey
      cases hkey
    | some x => exact ⟨x,rfl⟩
  obtain ⟨x,hf⟩ := hfound
  obtain ⟨hin,rfl⟩ := (hr.find_iff key x).mp hf
  simp only [hRemove,hf]
  refine ⟨trivial,?_,?_,?_,?_,?_,?_,hr.cursor⟩
  · rw [unlinkItem_entries hr.keys hr.addrs hin,hr.order]
  · exact hr.keys.sublist ((unlinkItem_sublist _ _).map _)
  · intro i y
    simp only [HHash.bucket,Function.update_apply]
    rw [mem_unlinkItem hr.addrs]
    by_cases hi : i = hHashFunc x.key % h.size
    · subst hi
      simp only [if_true]
      rw [mem_unlinkItem (hr.chains _),hr.linked]
      simp only [HHash.bucket]
      tauto
    · simp only [hi,if_false]
      rw [hr.linked]
      constructor
      · rintro ⟨hy,hb⟩
        refine ⟨⟨hy,fun ha => ?_⟩,hb⟩
        rw [List.inj_on_of_nodup_map hr.addrs hy hin ha] at hb
        exact hi hb.symm
      · rintro ⟨⟨hy,_⟩,hb⟩
        exact ⟨hy,hb⟩
  · exact hr.addrs.sublist ((unlinkItem_sublist _ _).map _)
  · intro i
    simp only [Function.update_apply]
    split
    · exact (hr.chains _).sublist ((unlinkItem_sublist _ _).map _)
    · exact hr.chains i
  · exact fun y hy => hr.bound y ((unlinkItem_sublist _ _).mem hy)

theorem Represents.remove_absent (hr : Represents h t) {key : List UInt8} (hkey : t.get key = none) :
    hRemove h key = (-1,h) ∧ t.remove key = t := by
  refine ⟨?_,?_⟩
  · simp only [hRemove,(hr.find_none key).mpr hkey]
  · refine List.eraseP_of_forall_not fun e he => ?_
    have hno := Table.get_eq_none.mp hkey
    simp only [decide_eq_true_eq]
    rintro rfl
    exact hno (List.mem_map_of_mem he)

/-- TAILQ_NEXT at the end of what has been handed out. -/
private theorem tailqNext_append {x : HItem V} {L M : List (HItem V)} (hn : ((L ++ x :: M).map HItem.addr).Nodup) :
    tailqNext x.addr (L ++ x :: M) = M.head? := by
  induction L with
  | nil => simp [tailqNext]
  | cons y L ih =>
    rw [List.cons_append,List.map_cons,List.nodup_cons] at hn
    have hne : y.addr ≠ x.addr := by
      intro he
      exact hn.1 (he ▸ List.mem_map_of_mem (List.mem_append_right _ List.mem_cons_self))
    simp only [List.cons_append,tailqNext,hne,if_false]
    exact ih hn.2

/-- With `L` handed out, the traversal goes on with the rest of the order and ends at the start. -/
private theorem hTraverse_from (hn : (h.orderHead.map HItem.addr).Nodup) : ∀ (M L : List (HItem V)) (fuel : Nat),
    h.orderHead = L ++ M → M.length < fuel →
    hTraverse fuel { h with orderNext := L.getLast?.map HItem.addr } = (M,{ h with orderNext := none }) := by
  intro M
  induction M with
  | nil =>
    intro L fuel hl hfuel
    obtain ⟨fuel,rfl⟩ := Nat.exists_eq_succ_of_ne_zero (Nat.ne_of_gt hfuel)
    rw [List.append_nil] at hl
    rcases List.eq_nil_or_concat L with rfl | ⟨K,x,rfl⟩
    · simp [hTraverse,hNext,hl]
    · rw [List.concat_eq_append] at hl ⊢
      rw [hl] at hn
      have hnext := tailqNext_append hn
      simp only [hTraverse,hNext,List.getLast?_append,List.getLast?_singleton,Option.some_or,Option.map_some,hl,hnext]
      rfl
  | cons y M ih =>
    intro L fuel hl hfuel
    obtain ⟨fuel,rfl⟩ := Nat.exists_eq_succ_of_ne_zero (Nat.ne_of_gt (Nat.zero_lt_of_lt hfuel))
    have hrest := ih (L ++ [y]) fuel (by rw [hl]; simp) (by simpa using hfuel)
    rw [List.getLast?_append,List.getLast?_singleton,Option.some_or,Option.map_some] at hrest
    rcases List.eq_nil_or_concat L with rfl | ⟨K,x,rfl⟩
    · rw [List.nil_append] at hl
      simp only [hTraverse,hNext,List.getLast?_nil,Option.map_none,hl,List.head?_cons,Option.map_some]
      rw [hl] at hrest
      rw [hrest]
    · rw [List.concat_eq_append] at hl ⊢
      have hl' : h.orderHead = K ++ x :: y :: M := by simpa using hl
      rw [hl'] at hn
      have hnext := tailqNext_append hn
      simp only [hTraverse,hNext,List.getLast?_append,List.getLast?_singleton,Option.some_or,Option.map_some,hl',hnext,
        List.head?_cons]
      rw [hl'] at hrest
      rw [hrest]

/-- h_next from a NULL cursor gives every item once in order, then NULL, and the cursor is at the start again. -/
theorem Represents.traverse (hr : Represents h t) {fuel : Nat} (hfuel : h.orderHead.length < fuel) :
    hTraverse fuel h = (h.orderHead,h) := by
  have hall := hTraverse_from hr.addrs h.orderHead [] fuel rfl hfuel
  have hsame : ({ h with orderNext := none } : HHash V) = h := by
    rw [← hr.cursor]
  rwa [List.getLast?_nil,Option.map_none,hsame] at hall

theorem HOp.run_spec (hr : Represents h t) (op : HOp V) :
    (op.run h).1 = (op.spec t).1 ∧ Represents (op.run h).2 (op.spec t).2 ∧ (op.run h).2.size = h.size := by
  cases op with
  | insert key value =>
    simp only [HOp.run,HOp.spec]
    cases hkey : t.get key with
    | none =>
      obtain ⟨hcode,hrep⟩ := hr.insert_absent hkey value
      refine ⟨by rw [hcode]; rfl,hrep,?_⟩
      simp only [hInsert]
      split <;> rfl
    | some v =>
      have hsome : (t.get key).isSome = true := by rw [hkey]; rfl
      rw [hr.insert_present hsome,Table.insert,if_pos hsome]
      exact ⟨rfl,hr,rfl⟩
  | remove key =>
    simp only [HOp.run,HOp.spec]
    cases hkey : t.get key with
    | none =>
      obtain ⟨hsame,htable⟩ := hr.remove_absent hkey
      rw [hsame,htable]
      exact ⟨rfl,hr,rfl⟩
    | some v =>
      obtain ⟨hcode,hrep⟩ := hr.remove_present (by rw [hkey]; rfl)
      refine ⟨by rw [hcode]; rfl,hrep,?_⟩
      simp only [hRemove]
      split <;> rfl
  | get key => exact ⟨congrArg _ (hr.get key),hr,rfl⟩
  | traverse =>
    simp only [HOp.run,HOp.spec,hr.traverse (Nat.lt_succ_self _),hr.order]
    exact ⟨trivial,hr,trivial⟩

end Operations

/-- Any sequence of operations from h_init behaves as on an insertion-ordered map, and leaves two linked
structures that hold the same items, each in the bucket of its key. -/
theorem hash_refines {size : Nat} (hsize : 0 < size) (ops : List (HOp V)) :
    (runOps HOp.run (hInit V size) ops).1 = (runOps HOp.spec [] ops).1 ∧
    Represents (runOps HOp.run (hInit V size) ops).2 (runOps HOp.spec [] ops).2 ∧
    (∀ key, (runOps HOp.run (hInit V size) ops).2.bucket key < size) ∧
    (∀ key value, ((runOps HOp.spec [] ops).2.get key).isSome = true →
      hInsert (runOps HOp.run (hInit V size) ops).2 key value = (-1,(runOps HOp.run (hInit V size) ops).2)) ∧
    (∀ key k, k ∈ Table.keys ((runOps HOp.spec [] ops).2.remove key) ↔
      k ∈ Table.keys (runOps HOp.spec [] ops).2 ∧ k ≠ key) ∧
    ∀ fuel, (runOps HOp.run (hInit V size) ops).2.orderHead.length < fuel →
      hTraverse fuel (runOps HOp.run (hInit V size) ops).2 =
        ((runOps HOp.run (hInit V size) ops).2.orderHead,(runOps HOp.run (hInit V size) ops).2) := by
  have hrun : ∀ (ops : List (HOp V)) (h : HHash V) (t : Table (List UInt8) V), Represents h t →
      (runOps HOp.run h ops).1 = (runOps HOp.spec t ops).1 ∧
      Represents (runOps HOp.run h ops).2 (runOps HOp.spec t ops).2 ∧ (runOps HOp.run h ops).2.size = h.size := by
    intro ops
    induction ops with
    | nil => exact fun h t hr => ⟨rfl,hr,rfl⟩
    | cons op ops ih =>
      intro h t hr
      obtain ⟨hres,hrep,hsz⟩ := op.run_spec hr
      obtain ⟨hres',hrep',hsz'⟩ := ih _ _ hrep
      exact ⟨by rw [runOps,runOps,hres,hres'],hrep',hsz'.trans hsz⟩
  obtain ⟨hres,hrep,hsz⟩ := hrun ops _ _ (represents_init V size)
  have hkeys : (Table.keys (runOps HOp.spec [] ops).2).Nodup := by
    rw [hrep.table_keys]
    exact hrep.keys
  refine ⟨hres,hrep,fun key => ?_,fun key value hkey => hrep.insert_present hkey value,
    fun key k => Table.mem_keys_remove hkeys,fun fuel hfuel => hrep.traverse hfuel⟩
  rw [HHash.bucket,hsz]
  exact Nat.mod_lt _ hsize

/-- Keys with bytes above 0x7f that share a bucket, one of them removed and inserted again. -/
theorem hash_refines_collisions :
    (runOps HOp.run (hInit Nat 2) [.insert [200] 1,.insert [202] 2,.insert [200] 3,.remove [200],.insert [200] 4,
      .traverse]).1 = [.code 0,.code 0,.code (-1),.code 0,.code 0,.items [([202],2),([200],4)]] := by
  rw [(hash_refines (by decide) _).1]
  decide

end Memqueue
