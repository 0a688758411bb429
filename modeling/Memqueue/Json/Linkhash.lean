import Memqueue.Lib.Probing
import Memqueue.Lib.Table

/-! linkhash.c: an open-addressing hash table whose used entries form a list in insertion order.
`none` is a call that does not return: its probing loop meets no entry to stop at. -/
namespace Memqueue
open Probing

/-- struct lh_entry; its key is LH_EMPTY, LH_FREED or a string. -/
inductive LhEntry (κ ν : Type) where
  | empty
  | freed
  | used (k : κ) (v : ν)
  deriving DecidableEq, Repr

/-- Key and value of a used entry. -/
def LhEntry.content {κ ν : Type} : LhEntry κ ν → Option (κ × ν)
  | .used k v => some (k,v)
  | _ => none

/-- struct lh_table; `entries` are the indices met from `head` through the `next` pointers. The ints `size` and
`count` are taken not to overflow: doubling a size below 2^30 does not. -/
structure LhTable (κ ν : Type) where
  size : Nat
  count : Nat
  table : Nat → LhEntry κ ν
  entries : List Nat

section Functions
variable {κ ν : Type} [DecidableEq κ] (hash : κ → Nat)

def lhTableNew (size : Nat) : LhTable κ ν := ⟨size,0,fun _ => .empty,[]⟩

/-- Where the loop of lh_table_lookup_entry stops. -/
def stopsAt (t : LhTable κ ν) (k : κ) (n : Nat) : Bool :=
  match t.table n with
  | .empty => true
  | .freed => false
  | .used k' _ => k' = k

/-- The inner `none` is NULL. -/
def lhTableLookupEntry (t : LhTable κ ν) (k : κ) : Option (Option Nat) :=
  (probe t.size (stopsAt t k) t.size (hash k % t.size)).map fun n =>
    match t.table n with
    | .empty => none
    | _ => some n

def lhTableLookup (t : LhTable κ ν) (k : κ) : Option (Option ν) :=
  (lhTableLookupEntry hash t k).map fun e => e.bind fun n => (t.table n).content.map Prod.snd

/-- The entry is unlinked from its neighbours and marked LH_FREED. -/
def lhTableDeleteEntry (t : LhTable κ ν) (n : Nat) : LhTable κ ν × Int :=
  match t.table n with
  | .used _ _ =>
    ({ t with count := t.count - 1, table := Function.update t.table n .freed, entries := t.entries.erase n },0)
  | _ => (t,-1)

def lhTableDelete (t : LhTable κ ν) (k : κ) : Option (LhTable κ ν × Int) :=
  (lhTableLookupEntry hash t k).map fun
    | none => (t,-1)
    | some n => lhTableDeleteEntry t n

/-- The part of lh_table_insert after the resizing. -/
def lhTablePut (t : LhTable κ ν) (k : κ) (v : ν) : Option (LhTable κ ν) :=
  (probe t.size (fun n => (t.table n).content.isNone) t.size (hash k % t.size)).map fun n =>
    { t with count := t.count + 1, table := Function.update t.table n (.used k v), entries := t.entries ++ [n] }

/-- The loop of lh_table_resize over the entries of the old table. -/
def reinsert (insert : LhTable κ ν → κ → ν → Option (LhTable κ ν)) (t new : LhTable κ ν) (n : Nat) :
    Option (LhTable κ ν) :=
  match t.table n with
  | .used k v => insert new k v
  | _ => some new

def lhTableResize (insert : LhTable κ ν → κ → ν → Option (LhTable κ ν)) (t : LhTable κ ν) (newSize : Nat) :
    Option (LhTable κ ν) :=
  (t.entries.foldlM (reinsert insert t) (lhTableNew newSize)).map fun new => { new with count := t.count }

/-- `depth` bounds how deep lh_table_insert and lh_table_resize call each other. For the sizes a table
has, powers of 2 from 16 on, `count > size * 0.66` compares as the integers do here. -/
def lhTableInsert : Nat → LhTable κ ν → κ → ν → Option (LhTable κ ν)
  | 0,_,_,_ => none
  | depth + 1,t,k,v => do
    let t ← if 66 * t.size < 100 * t.count then lhTableResize (lhTableInsert depth) t (2 * t.size) else some t
    lhTablePut hash t k v

/-- json_object_object_add on the table of an object. -/
def jsonObjectObjectAdd (t : LhTable κ ν) (k : κ) (v : ν) : Option (LhTable κ ν) := do
  let r ← lhTableDelete hash t k
  lhTableInsert hash 2 r.1 k v

end Functions

/-- JSON_OBJECT_DEF_HASH_ENTRIES -/
def jsonObjectDefHashEntries : Nat := 16

/-- lh_char_hash: characters are signed and the sum is cut to an unsigned int. -/
def lhCharHash (k : List UInt8) : Nat :=
  (k.foldl (fun (h : UInt32) c => h * 129 + c.toInt8.toInt32.toUInt32 + 0x9e370001) 0).toNat

namespace Table
variable {κ ν : Type} [DecidableEq κ]

/-- The pair of a key goes to the end, whether the key is new or not. -/
def put (t : Table κ ν) (k : κ) (v : ν) : Table κ ν := t.remove k ++ [(k,v)]

theorem remove_of_not_mem {t : Table κ ν} {k : κ} (h : ∀ v, (k,v) ∉ t) : t.remove k = t := by
  rw [remove,List.eraseP_of_forall_not]
  rintro ⟨k',w⟩ hmem
  simp only [decide_eq_true_eq]
  rintro rfl
  exact h w hmem

theorem put_of_none {t : Table κ ν} {k : κ} (h : get t k = none) (v : ν) : put t k v = t ++ [(k,v)] := by
  rw [put,remove_of_not_mem]
  intro w hw
  exact get_eq_none.mp h (List.mem_map_of_mem hw)

theorem keys_put_nodup {t : Table κ ν} (hn : (keys t).Nodup) (k : κ) (v : ν) : (keys (put t k v)).Nodup := by
  rw [put,keys,List.map_append]
  refine (keys_remove_nodup hn k).append (List.nodup_singleton k) ?_
  intro k' hk' hk
  rw [List.map_singleton,List.mem_singleton] at hk
  exact (hk ▸ (mem_keys_remove hn).mp hk').2 rfl

theorem get_put {t : Table κ ν} (hn : (keys t).Nodup) (k k' : κ) (v : ν) :
    get (put t k v) k' = if k' = k then some v else get t k' := by
  have hput := keys_put_nodup hn k v
  split
  case isTrue heq =>
    rw [heq]
    exact get_of_mem hput (List.mem_append_right _ List.mem_cons_self)
  case isFalse hne =>
    apply Option.ext
    intro w
    rw [get_iff_mem hput,get_iff_mem hn,put,List.mem_append,mem_remove hn,List.mem_singleton]
    constructor
    · rintro (h | h)
      · exact h.1
      · cases h
        exact absurd rfl hne
    · intro h
      exact .inl ⟨h,hne⟩

/-- Pairs put one after another. -/
def putAll (es : Table κ ν) : Table κ ν := es.foldl (fun t e => put t e.1 e.2) []

theorem putAll_append (es : Table κ ν) (e : κ × ν) : putAll (es ++ [e]) = put (putAll es) e.1 e.2 := by
  rw [putAll,List.foldl_append]
  rfl

theorem keys_putAll_nodup (es : Table κ ν) : (keys (putAll es)).Nodup := by
  induction es using List.reverseRecOn with
  | nil => exact List.nodup_nil
  | append_singleton es e ih =>
    rw [putAll_append]
    exact keys_put_nodup ih e.1 e.2

/-- The last value put for a key is the one it has. -/
theorem get_putAll (es : Table κ ν) (k : κ) : get (putAll es) k = get es.reverse k := by
  induction es using List.reverseRecOn with
  | nil => rfl
  | append_singleton es e ih =>
    rw [putAll_append,get_put (keys_putAll_nodup es),ih,List.reverse_append,List.reverse_singleton,
      List.singleton_append,
      get,get,List.lookup_cons]
    rcases eq_or_ne k e.1 with rfl | hne
    · simp
    · have hb : (k == e.1) = false := beq_eq_false_iff_ne.mpr hne
      rw [if_neg hne,hb]

end Table

namespace LhTable
variable {κ ν : Type} {hash : κ → Nat} {t : LhTable κ ν} {k : κ} {v : ν}

/-- The content in the order of the list. -/
def toList (t : LhTable κ ν) : Table κ ν := t.entries.filterMap fun n => (t.table n).content

/-- Entry `i` is found by going on from entry `n`. -/
def OnPath (t : LhTable κ ν) (n i : Nat) : Prop :=
  ∃ j < t.size, i = (n + j) % t.size ∧ ∀ l < j, t.table ((n + l) % t.size) ≠ .empty

structure Inv (hash : κ → Nat) (t : LhTable κ ν) : Prop where
  size_pos : 0 < t.size
  count_eq : t.count = t.entries.length
  nodup : t.entries.Nodup
  linked : ∀ i, i ∈ t.entries ↔ i < t.size ∧ ∃ k v, t.table i = .used k v
  distinct : ∀ i ∈ t.entries, ∀ j ∈ t.entries, ∀ k v w, t.table i = .used k v → t.table j = .used k w → i = j
  path : ∀ i ∈ t.entries, ∀ k v, t.table i = .used k v → t.OnPath (hash k % t.size) i

/-- The probing loops stop. -/
def HasRoom (t : LhTable κ ν) : Prop := ∃ i < t.size, t.table i = .empty

/-- What tables that are only added to keep: a deleted entry is refilled at once, and the size is that of a new
object or was doubled when two thirds of the half were in use. -/
structure Tight (t : LhTable κ ν) : Prop where
  size_ge : 3 ≤ t.size
  count_lt : t.count < t.size
  not_freed : ∀ i < t.size, t.table i ≠ .freed
  grown : t.size = jsonObjectDefHashEntries ∨ 33 * t.size < 100 * t.count

theorem content_eq_some {e : LhEntry κ ν} : e.content = some (k,v) ↔ e = .used k v := by
  cases e <;> simp [LhEntry.content]

theorem content_isNone {e : LhEntry κ ν} : e.content.isNone = true ↔ e = .empty ∨ e = .freed := by
  cases e <;> simp [LhEntry.content]

theorem mem_toList : (k,v) ∈ t.toList ↔ ∃ i ∈ t.entries, t.table i = .used k v := by
  simp [toList,List.mem_filterMap,content_eq_some]

/-- The table with entry `i` deleted. -/
def deleted (t : LhTable κ ν) (i : Nat) : LhTable κ ν :=
  { t with count := t.count - 1, table := Function.update t.table i .freed, entries := t.entries.erase i }

/-- The table with entry `i` put. -/
def put (t : LhTable κ ν) (k : κ) (v : ν) (i : Nat) : LhTable κ ν :=
  { t with count := t.count + 1, table := Function.update t.table i (.used k v), entries := t.entries ++ [i] }

theorem deleted_table {i j : Nat} (hj : j ≠ i) : (deleted t i).table j = t.table j := Function.update_of_ne hj _ _

theorem deleted_table_self {i : Nat} : (deleted t i).table i = .freed := Function.update_self _ _ _

theorem put_table {i j : Nat} (hj : j ≠ i) : (put t k v i).table j = t.table j := Function.update_of_ne hj _ _

theorem put_table_self {i : Nat} : (put t k v i).table i = .used k v := Function.update_self _ _ _

/-- One index taken out of a list takes its pair out of what the list maps to. -/
private theorem filterMap_erase [DecidableEq κ] {f : Nat → Option (κ × ν)} {l : List Nat} (hn : l.Nodup) {i : Nat}
    (hi : i ∈ l) (hf : f i = some (k,v)) (hother : ∀ j ∈ l, ∀ w, f j = some (k,w) → j = i) :
    (l.erase i).filterMap f = Table.remove (l.filterMap f) k := by
  unfold Table.remove
  induction l with
  | nil => cases hi
  | cons j l ih =>
    rw [List.nodup_cons] at hn
    rcases eq_or_ne j i with rfl | hne
    · rw [List.erase_cons_head,List.filterMap_cons_some hf,List.eraseP_cons_of_pos (by simp)]
    · have hil : i ∈ l := (List.mem_cons.mp hi).resolve_left hne.symm
      have ih := ih hn.2 hil fun j hj => hother j (List.mem_cons_of_mem _ hj)
      rw [List.erase_cons_tail (by simpa using hne)]
      cases hj : f j with
      | none => rw [List.filterMap_cons_none hj,List.filterMap_cons_none hj,ih]
      | some e =>
        have hek : e.1 ≠ k := by
          rintro rfl
          exact hne (hother j List.mem_cons_self e.2 hj)
        rw [List.filterMap_cons_some hj,List.filterMap_cons_some hj,List.eraseP_cons_of_neg (by simpa using hek),ih]

namespace Inv

theorem home_lt (h : t.Inv hash) : hash k % t.size < t.size := Nat.mod_lt _ h.size_pos

theorem keys_nodup (h : t.Inv hash) : (Table.keys t.toList).Nodup := by
  rw [Table.keys,toList,List.Nodup,List.pairwise_map,List.pairwise_filterMap]
  refine h.nodup.imp_of_mem ?_
  rintro i j hi hj hne ⟨k,v⟩ hk ⟨k',w⟩ hk' rfl
  exact hne (h.distinct i hi j hj k v w (content_eq_some.mp hk) (content_eq_some.mp hk'))

theorem length_toList (h : t.Inv hash) : t.toList.length = t.count := by
  rw [h.count_eq,toList,List.length_filterMap_eq_countP,List.countP_eq_length]
  intro i hi
  obtain ⟨_,k,v,hu⟩ := (h.linked i).mp hi
  rw [hu]
  rfl

/-- Some entry is unused as long as the list is shorter than the table. -/
theorem exists_unused (h : t.Inv hash) (hc : t.count < t.size) : ∃ i < t.size, (t.table i).content.isNone = true := by
  by_contra hall
  push Not at hall
  have hsub : List.range t.size ⊆ t.entries := by
    intro i hi
    have hlt := List.mem_range.mp hi
    refine (h.linked i).mpr ⟨hlt,?_⟩
    cases hi : t.table i with
    | empty => exact absurd (content_isNone.mpr (.inl hi)) (hall i hlt)
    | freed => exact absurd (content_isNone.mpr (.inr hi)) (hall i hlt)
    | used k v => exact ⟨k,v,rfl⟩
  have hle := (List.nodup_range.subperm hsub).length_le
  rw [List.length_range,← h.count_eq] at hle
  omega

theorem hasRoom (h : t.Inv hash) (ht : t.Tight) : t.HasRoom := by
  obtain ⟨i,hi,hnone⟩ := h.exists_unused ht.count_lt
  rcases content_isNone.mp hnone with he | hf
  · exact ⟨i,hi,he⟩
  · exact absurd hf (ht.not_freed i hi)

section Lookup
variable [DecidableEq κ]

/-- What the search stops at. -/
theorem stopsAt_iff {n : Nat} : stopsAt t k n = true ↔ t.table n = .empty ∨ ∃ v, t.table n = .used k v := by
  unfold stopsAt
  cases hn : t.table n with
  | empty => simp
  | freed => simp
  | used k' w =>
    simp only [decide_eq_true_eq,reduceCtorEq,LhEntry.used.injEq,false_or]
    constructor
    · rintro rfl
      exact ⟨w,rfl,rfl⟩
    · rintro ⟨_,rfl,_⟩
      rfl

/-- The entry of a present key is the first place the search can stop. -/
theorem probe_of_mem (h : t.Inv hash) {i : Nat} (hi : i ∈ t.entries) (hk : t.table i = .used k v) :
    probe t.size (stopsAt t k) t.size (hash k % t.size) = some i := by
  obtain ⟨j,hj,hij,hpath⟩ := h.path i hi k v hk
  refine (probe_eq_some h.home_lt).mpr ⟨j,hj,hij,stopsAt_iff.mpr (.inr ⟨v,hk⟩),?_⟩
  intro l hl
  refine eq_false_of_ne_true fun hstop => ?_
  rcases stopsAt_iff.mp hstop with he | ⟨w,hw⟩
  · exact hpath l hl he
  · have hlt : (hash k % t.size + l) % t.size < t.size := Nat.mod_lt _ h.size_pos
    have hmem := (h.linked _).mpr ⟨hlt,k,w,hw⟩
    have heq := h.distinct _ hmem i hi k w v hw hk
    have hne : (hash k % t.size + l) % t.size ≠ (hash k % t.size + j) % t.size := by
      intro hmod
      have := Nat.ModEq.add_left_cancel' (hash k % t.size) hmod
      rw [Nat.ModEq,Nat.mod_eq_of_lt (hl.trans hj),Nat.mod_eq_of_lt hj] at this
      omega
    exact hne (heq.trans hij)

/-- The search for an absent key ends at an empty entry. -/
theorem probe_of_not_mem (h : t.Inv hash) (hr : t.HasRoom) (hk : ∀ v, (k,v) ∉ t.toList) :
    ∃ i, probe t.size (stopsAt t k) t.size (hash k % t.size) = some i ∧ t.table i = .empty := by
  obtain ⟨e,he,hempty⟩ := hr
  obtain ⟨i,hi⟩ := probe_isSome (h.home_lt (k := k)) ⟨e,he,stopsAt_iff.mpr (.inl hempty)⟩
  obtain ⟨hlt,hstop,_⟩ := probe_spec h.home_lt hi
  refine ⟨i,hi,(stopsAt_iff.mp hstop).resolve_right ?_⟩
  rintro ⟨v,hv⟩
  exact hk v (mem_toList.mpr ⟨i,(h.linked i).mpr ⟨hlt,k,v,hv⟩,hv⟩)

theorem lookupEntry_of_mem (h : t.Inv hash) {i : Nat} (hi : i ∈ t.entries) (hk : t.table i = .used k v) :
    lhTableLookupEntry hash t k = some (some i) := by
  rw [lhTableLookupEntry,h.probe_of_mem hi hk,Option.map_some,hk]

theorem lookupEntry_of_not_mem (h : t.Inv hash) (hr : t.HasRoom) (hk : ∀ v, (k,v) ∉ t.toList) :
    lhTableLookupEntry hash t k = some none := by
  obtain ⟨i,hi,hempty⟩ := h.probe_of_not_mem hr hk
  rw [lhTableLookupEntry,hi,Option.map_some,hempty]

/-- A lookup returns, with what the list holds for the key. -/
theorem lookup_eq (h : t.Inv hash) (hr : t.HasRoom) (k : κ) : lhTableLookup hash t k = some (t.toList.get k) := by
  cases hg : t.toList.get k with
  | none =>
    have hk : ∀ v, (k,v) ∉ t.toList := by
      intro v hv
      rw [Table.get_of_mem h.keys_nodup hv] at hg
      cases hg
    rw [lhTableLookup,h.lookupEntry_of_not_mem hr hk]
    rfl
  | some v =>
    obtain ⟨i,hi,hk⟩ := mem_toList.mp (Table.mem_of_get hg)
    rw [lhTableLookup,h.lookupEntry_of_mem hi hk,Option.map_some,Option.bind_some,hk]
    rfl

end Lookup

section Delete

theorem mem_erase (h : t.Inv hash) {i j : Nat} : j ∈ (deleted t i).entries ↔ j ≠ i ∧ j ∈ t.entries :=
  h.nodup.mem_erase_iff

protected theorem deleted (h : t.Inv hash) {i : Nat} (hi : i ∈ t.entries) : (deleted t i).Inv hash where
  size_pos := h.size_pos
  count_eq := by
    show t.count - 1 = (t.entries.erase i).length
    rw [List.length_erase_of_mem hi,h.count_eq]
  nodup := h.nodup.erase i
  linked j := by
    rw [h.mem_erase,h.linked j]
    constructor
    · rintro ⟨hne,hlt,hu⟩
      rw [deleted_table hne]
      exact ⟨hlt,hu⟩
    · rintro ⟨hlt,k,v,hu⟩
      have hne : j ≠ i := by
        rintro rfl
        rw [deleted_table_self] at hu
        cases hu
      rw [deleted_table hne] at hu
      exact ⟨hne,hlt,k,v,hu⟩
  distinct j hj l hl k v w hjk hlk := by
    obtain ⟨hji,hj⟩ := h.mem_erase.mp hj
    obtain ⟨hli,hl⟩ := h.mem_erase.mp hl
    rw [deleted_table hji] at hjk
    rw [deleted_table hli] at hlk
    exact h.distinct j hj l hl k v w hjk hlk
  path j hj k v hjk := by
    obtain ⟨hji,hj⟩ := h.mem_erase.mp hj
    rw [deleted_table hji] at hjk
    obtain ⟨d,hd,hjd,hpath⟩ := h.path j hj k v hjk
    refine ⟨d,hd,hjd,fun l hl => ?_⟩
    show (deleted t i).table ((hash k % t.size + l) % t.size) ≠ .empty
    rcases eq_or_ne ((hash k % t.size + l) % t.size) i with he | hne
    · rw [he,deleted_table_self]
      rintro ⟨⟩
    · rw [deleted_table hne]
      exact hpath l hl

variable [DecidableEq κ]

/-- Unlinking takes the pair of the key out of the list. -/
theorem toList_deleted (h : t.Inv hash) {i : Nat} (hi : i ∈ t.entries) (hk : t.table i = .used k v) :
    (deleted t i).toList = t.toList.remove k := by
  have hrest : ∀ j ∈ t.entries.erase i, ((deleted t i).table j).content = (t.table j).content := by
    intro j hj
    rw [deleted_table (h.nodup.mem_erase_iff.mp hj).1]
  rw [toList,show (deleted t i).entries = t.entries.erase i from rfl,List.filterMap_congr hrest]
  refine filterMap_erase h.nodup hi (content_eq_some.mpr hk) fun j hj w hw => ?_
  exact h.distinct j hj i hi k w v (content_eq_some.mp hw) hk

/-- A delete returns; it frees the entry of the key, or finds none. -/
theorem delete_cases (h : t.Inv hash) (hr : t.HasRoom) (k : κ) :
    (∃ i v, i ∈ t.entries ∧ t.table i = .used k v ∧ lhTableDelete hash t k = some (deleted t i,0)) ∨
      (∀ v, (k,v) ∉ t.toList) ∧ lhTableDelete hash t k = some (t,-1) := by
  rcases Classical.em (∃ v, (k,v) ∈ t.toList) with ⟨v,hv⟩ | hnone
  · obtain ⟨i,hi,hk⟩ := mem_toList.mp hv
    refine .inl ⟨i,v,hi,hk,?_⟩
    rw [lhTableDelete,h.lookupEntry_of_mem hi hk]
    simp only [Option.map_some,lhTableDeleteEntry,hk]
    rfl
  · have hnot : ∀ v, (k,v) ∉ t.toList := fun v hv => hnone ⟨v,hv⟩
    refine .inr ⟨hnot,?_⟩
    rw [lhTableDelete,h.lookupEntry_of_not_mem hr hnot,Option.map_some]

end Delete

section Put

theorem not_mem_of_unused (h : t.Inv hash) {i : Nat} (hi : (t.table i).content.isNone = true) : i ∉ t.entries := by
  intro hmem
  obtain ⟨_,k,v,hu⟩ := (h.linked i).mp hmem
  rw [hu] at hi
  cases hi

protected theorem put (h : t.Inv hash) (hk : ∀ v, (k,v) ∉ t.toList) {i j : Nat} (hi : i < t.size)
    (hnone : (t.table i).content.isNone = true) (hj : j < t.size) (hij : i = (hash k % t.size + j) % t.size)
    (hbefore : ∀ l < j, (t.table ((hash k % t.size + l) % t.size)).content.isNone = false) :
    (put t k v i).Inv hash := by
  have hnot := h.not_mem_of_unused hnone
  have hne : ∀ j ∈ t.entries, j ≠ i := fun j hj he => hnot (he ▸ hj)
  have habsent : ∀ j ∈ t.entries, ∀ w, t.table j ≠ .used k w := fun j hj w hw => hk w (mem_toList.mpr ⟨j,hj,hw⟩)
  have hmem : ∀ j, j ∈ (put t k v i).entries ↔ j ∈ t.entries ∨ j = i := by
    intro j
    rw [put,List.mem_append,List.mem_singleton]
  refine ⟨h.size_pos,?_,?_,?_,?_,?_⟩
  · show t.count + 1 = (t.entries ++ [i]).length
    rw [List.length_append,h.count_eq,List.length_singleton]
  · exact h.nodup.append (List.nodup_singleton i) (by simpa using hnot)
  · intro j
    rw [hmem,h.linked j]
    rcases eq_or_ne j i with rfl | hj
    · simp [put,hi]
    · simp [hj,put]
  · intro j hj l hl k' w w' hjk hlk
    rcases (hmem j).mp hj with hj' | hj' <;> rcases (hmem l).mp hl with hl' | hl'
    · rw [put_table (hne j hj')] at hjk
      rw [put_table (hne l hl')] at hlk
      exact h.distinct j hj' l hl' k' w w' hjk hlk
    · rw [put_table (hne j hj')] at hjk
      rw [hl',put_table_self] at hlk
      cases hlk
      exact absurd hjk (habsent j hj' w)
    · rw [put_table (hne l hl')] at hlk
      rw [hj',put_table_self] at hjk
      cases hjk
      exact absurd hlk (habsent l hl' w')
    · rw [hj',hl']
  · intro j' hj' k' w hjk
    have hstay : ∀ n, t.table n ≠ .empty → (put t k v i).table n ≠ .empty := by
      intro n hn
      rcases eq_or_ne n i with rfl | hni
      · rw [put_table_self]
        rintro ⟨⟩
      · rwa [put_table hni]
    rcases (hmem j').mp hj' with hj' | rfl
    · rw [put_table (hne j' hj')] at hjk
      obtain ⟨d,hd,hjd,hpath⟩ := h.path j' hj' k' w hjk
      exact ⟨d,hd,hjd,fun l hl => hstay _ (hpath l hl)⟩
    · rw [put_table_self] at hjk
      cases hjk
      refine ⟨j,hj,hij,fun l hl => hstay ((hash k % t.size + l) % t.size) ?_⟩
      intro he
      have hb := hbefore l hl
      rw [he] at hb
      cases hb

theorem toList_put (h : t.Inv hash) {i : Nat} (hnone : (t.table i).content.isNone = true) :
    (put t k v i).toList = t.toList ++ [(k,v)] := by
  have hrest : ∀ j ∈ t.entries, ((put t k v i).table j).content = (t.table j).content := by
    intro j hj
    rw [put_table]
    rintro rfl
    exact h.not_mem_of_unused hnone hj
  rw [toList,show (put t k v i).entries = t.entries ++ [i] from rfl,List.filterMap_append,List.filterMap_congr hrest,
    List.filterMap_cons_some (by rw [put_table_self]; rfl)]
  rfl

/-- A put returns if some entry is unused. It takes the first such entry from the home of the key on. -/
theorem put_cases (h : t.Inv hash) (hu : ∃ i < t.size, (t.table i).content.isNone = true)
    (hk : ∀ v, (k,v) ∉ t.toList) (v : ν) :
    ∃ i < t.size, lhTablePut hash t k v = some (put t k v i) ∧ (put t k v i).Inv hash ∧
      (put t k v i).toList = t.toList ++ [(k,v)] ∧
      ∃ j < t.size, i = (hash k % t.size + j) % t.size ∧
        ∀ l < j, (t.table ((hash k % t.size + l) % t.size)).content.isNone = false := by
  obtain ⟨i,hi⟩ := probe_isSome (h.home_lt (k := k)) hu
  obtain ⟨hlt,hnone,j,hj,hij,hbefore⟩ := probe_spec h.home_lt hi
  refine ⟨i,hlt,?_,h.put hk hlt hnone hj hij hbefore,h.toList_put hnone,j,hj,hij,hbefore⟩
  rw [lhTablePut,hi]
  rfl

end Put
end Inv

section Resize

/-- What a resizing starts from, and what every one of its insertions keeps. -/
structure Fresh (hash : κ → Nat) (size : Nat) (t : LhTable κ ν) : Prop where
  inv : t.Inv hash
  size_eq : t.size = size
  not_freed : ∀ i < t.size, t.table i ≠ .freed

theorem fresh_new {size : Nat} (hs : 0 < size) : Fresh hash size (lhTableNew size : LhTable κ ν) where
  inv := by
    refine ⟨hs,rfl,List.nodup_nil,?_,?_,?_⟩
    · intro i
      simp [lhTableNew]
    · rintro i ⟨⟩
    · rintro i ⟨⟩
  size_eq := rfl
  not_freed _ _ := by simp [lhTableNew]

/-- A table that is not filled beyond the limit is put into as it is. -/
theorem insert_of_le {depth : Nat} (h : 100 * t.count ≤ 66 * t.size) :
    lhTableInsert hash (depth + 1) t k v = lhTablePut hash t k v := by
  rw [lhTableInsert,if_neg (by omega)]
  rfl

theorem Fresh.put {size : Nat} (h : Fresh hash size t) (hc : t.count < size) (hk : ∀ v, (k,v) ∉ t.toList) :
    ∃ t', lhTablePut hash t k v = some t' ∧ Fresh hash size t' ∧ t'.toList = t.toList ++ [(k,v)] ∧
      t'.count = t.count + 1 := by
  obtain ⟨i,_,hput,hinv,hlist,_⟩ := h.inv.put_cases (h.inv.exists_unused (h.size_eq ▸ hc)) hk v
  refine ⟨_,hput,⟨hinv,h.size_eq,?_⟩,hlist,rfl⟩
  intro n hn
  rcases eq_or_ne n i with rfl | hne
  · rw [put_table_self]
    rintro ⟨⟩
  · rw [put_table hne]
    exact h.not_freed n hn

/-- The loop of a resizing: what is still to be moved and what has been moved make up the old content. -/
private theorem reinsert_all (h : t.Inv hash) {depth : Nat} {l : List Nat} (hl : l ⊆ t.entries) {new : LhTable κ ν}
    (hnew : Fresh hash (2 * t.size) new) (hlist : new.toList ++ l.filterMap (fun n => (t.table n).content) = t.toList)
    (hlen : new.count + l.length < t.size) :
    ∃ new', l.foldlM (reinsert (lhTableInsert hash (depth + 1)) t) new = some new' ∧ Fresh hash (2 * t.size) new' ∧
      new'.toList = t.toList ∧ new'.count = new.count + l.length := by
  induction l generalizing new with
  | nil => exact ⟨new,rfl,hnew,by simpa using hlist,rfl⟩
  | cons n l ih =>
    obtain ⟨_,k,v,hu⟩ := (h.linked n).mp (hl List.mem_cons_self)
    rw [List.filterMap_cons,content_eq_some.mpr hu] at hlist
    rw [List.length_cons] at hlen
    have hfresh : ∀ w, (k,w) ∉ new.toList := by
      intro w hw
      have hnodup := h.keys_nodup
      rw [← hlist,Table.keys,List.map_append,List.map_cons,List.nodup_append] at hnodup
      exact hnodup.2.2 k (List.mem_map.mpr ⟨_,hw,rfl⟩) k List.mem_cons_self rfl
    obtain ⟨t',hput,hfresh',hlist',hcount⟩ := hnew.put (v := v) (by omega) hfresh
    obtain ⟨new',hrun,hdone,hall,hcount'⟩ := ih (List.subset_of_cons_subset hl) hfresh'
      (by rw [hlist',List.append_assoc]; exact hlist) (by omega)
    refine ⟨new',?_,hdone,hall,by rw [hcount',hcount,List.length_cons]; omega⟩
    have hturn : reinsert (lhTableInsert hash (depth + 1)) t new n = some t' := by
      unfold reinsert
      rw [hu]
      exact (insert_of_le (by rw [hnew.size_eq]; omega)).trans hput
    rw [List.foldlM_cons,hturn]
    exact hrun

/-- A resizing keeps the content in its order, and drops the freed entries. -/
theorem Inv.resize_eq (h : t.Inv hash) (hc : t.count < t.size) {depth : Nat} :
    ∃ t', lhTableResize (lhTableInsert hash (depth + 1)) t (2 * t.size) = some t' ∧ Fresh hash (2 * t.size) t' ∧
      t'.toList = t.toList ∧ t'.count = t.count := by
  have hpos := h.size_pos
  have hcount := h.count_eq
  obtain ⟨t',hrun,hfresh,hlist,hn⟩ := @reinsert_all _ _ hash t h depth _ (List.Subset.refl _) _
    (fresh_new (by omega)) rfl (by rw [show (lhTableNew (2 * t.size) : LhTable κ ν).count = 0 from rfl]; omega)
  have hn' : t'.count = t.count := by rw [hn,hcount]; exact Nat.zero_add _
  refine ⟨t',?_,hfresh,hlist,hn'⟩
  rw [lhTableResize,hrun,Option.map_some,← hn']

end Resize

section Add

/-- Where an insertion without resizing puts the key. -/
def place (hash : κ → Nat) (t : LhTable κ ν) (k : κ) : Option Nat :=
  probe t.size (fun n => (t.table n).content.isNone) t.size (hash k % t.size)

/-- An insertion appends the pair. No freed entry is left if there was none but the one it takes. -/
theorem Inv.insert_eq (h : t.Inv hash) (hs : 3 ≤ t.size) (hc : t.count < t.size)
    (hg : t.size = jsonObjectDefHashEntries ∨ 33 * t.size < 100 * (t.count + 1)) (hk : ∀ v, (k,v) ∉ t.toList)
    (hfreed : ∀ i < t.size, t.table i = .freed → place hash t k = some i) (v : ν) :
    ∃ t', lhTableInsert hash 2 t k v = some t' ∧ t'.Inv hash ∧ t'.Tight ∧ t'.toList = t.toList ++ [(k,v)] := by
  rcases Nat.lt_or_ge (66 * t.size) (100 * t.count) with hlt | hge
  · obtain ⟨t₁,hres,hfresh,hlist,hcount⟩ := h.resize_eq hc
    obtain ⟨t₂,hput,hfresh₂,hlist₂,hcount₂⟩ := hfresh.put (by omega) (by rwa [hlist]) (v := v)
    have hsize := hfresh₂.size_eq
    refine ⟨t₂,?_,hfresh₂.inv,⟨by omega,by omega,hfresh₂.not_freed,.inr (by omega)⟩,by rw [hlist₂,hlist]⟩
    rw [lhTableInsert,if_pos hlt,hres]
    exact hput
  · obtain ⟨i,_,hput,hinv,hlist,_⟩ := h.put_cases (h.exists_unused hc) hk v
    have hplace : place hash t k = some i := by
      rw [lhTablePut,Option.map_eq_some_iff] at hput
      obtain ⟨n,hn,heq⟩ := hput
      have hni : n = i := by simpa [put] using congrArg LhTable.entries heq
      rw [← hni]
      exact hn
    refine ⟨put t k v i,(insert_of_le hge).trans hput,hinv,⟨hs,?_,?_,hg⟩,hlist⟩
    · show t.count + 1 < t.size
      omega
    · intro n hn
      rcases eq_or_ne n i with rfl | hne
      · rw [put_table_self]
        rintro ⟨⟩
      · rw [put_table hne]
        intro hf
        exact hne (Option.some.inj ((hfreed n hn hf).symm.trans hplace))

/-- The freed entry of a key is where the key is put again. -/
theorem Inv.place_deleted (h : t.Inv hash) (ht : t.Tight) {i : Nat} (hi : i ∈ t.entries) (hk : t.table i = .used k v) :
    place hash (deleted t i) k = some i := by
  obtain ⟨d,hd,hid,hpath⟩ := h.path i hi k v hk
  refine (probe_eq_some h.home_lt).mpr ⟨d,hd,hid,?_,?_⟩
  · rw [deleted_table_self]
    rfl
  · intro l hl
    have hne : (hash k % t.size + l) % t.size ≠ i := by
      intro hmod
      have := Nat.ModEq.add_left_cancel' (hash k % t.size) (hmod.trans hid)
      rw [Nat.ModEq,Nat.mod_eq_of_lt (hl.trans hd),Nat.mod_eq_of_lt hd] at this
      omega
    refine eq_false_of_ne_true fun hnone => ?_
    rw [deleted_table hne] at hnone
    rcases content_isNone.mp hnone with he | hf
    · exact hpath l hl he
    · exact ht.not_freed _ (Nat.mod_lt _ h.size_pos) hf

/-- Adding a key takes its old value out and puts the new one at the end of the list. -/
theorem Inv.add_eq [DecidableEq κ] (h : t.Inv hash) (ht : t.Tight) (k : κ) (v : ν) :
    ∃ t', jsonObjectObjectAdd hash t k v = some t' ∧ t'.Inv hash ∧ t'.Tight ∧
      t'.toList = t.toList.put k v := by
  have hs := ht.size_ge
  have hc := ht.count_lt
  rcases h.delete_cases (h.hasRoom ht) k with ⟨i,w,hi,hk,hdel⟩ | ⟨hnot,hdel⟩
  · have hgone : ∀ w', (k,w') ∉ (deleted t i).toList := by
      intro w'
      rw [h.toList_deleted hi hk,Table.mem_remove h.keys_nodup]
      simp
    have honly : ∀ n < t.size, (deleted t i).table n = .freed → place hash (deleted t i) k = some n := by
      intro n hn hf
      rcases eq_or_ne n i with rfl | hne
      · exact h.place_deleted ht hi hk
      · rw [deleted_table hne] at hf
        exact absurd hf (ht.not_freed n hn)
    have hpos : 0 < t.count := h.count_eq ▸ List.length_pos_of_mem hi
    have hg : t.size = jsonObjectDefHashEntries ∨ 33 * t.size < 100 * (t.count - 1 + 1) := by
      rw [Nat.sub_add_cancel hpos]
      exact ht.grown
    obtain ⟨t',hins,hinv,htight,hlist⟩ := (h.deleted hi).insert_eq hs
      (Nat.lt_of_le_of_lt (Nat.sub_le _ _) hc) hg hgone honly v
    refine ⟨t',?_,hinv,htight,by rw [hlist,h.toList_deleted hi hk,Table.put]⟩
    rw [jsonObjectObjectAdd,hdel]
    exact hins
  · obtain ⟨t',hins,hinv,htight,hlist⟩ := h.insert_eq hs hc (ht.grown.imp_right fun hlt => by omega) hnot
      (fun n hn hf => absurd hf (ht.not_freed n hn)) v
    refine ⟨t',?_,hinv,htight,?_⟩
    · rw [jsonObjectObjectAdd,hdel]
      exact hins
    · rw [hlist,Table.put,Table.remove_of_not_mem hnot]

/-- An object that is only added to answers every call, in tables of any hash function: the list holds
the pairs in the order of their last adding, and a lookup finds the last value. Up to 2^28 keys the size of the
table can be doubled once more in an int. -/
theorem adds_refine [DecidableEq κ] (hash : κ → Nat) (es : Table κ ν) :
    ∃ t, es.foldlM (fun t e => jsonObjectObjectAdd hash t e.1 e.2) (lhTableNew jsonObjectDefHashEntries) = some t ∧
      t.toList = es.putAll ∧ t.count = es.putAll.length ∧ (t.count ≤ 2^28 → 2 * t.size < 2^31) ∧
        ∀ k, lhTableLookup hash t k = some (Table.get es.reverse k) := by
  have hrun : ∃ t, es.foldlM (fun t e => jsonObjectObjectAdd hash t e.1 e.2) (lhTableNew jsonObjectDefHashEntries) =
      some t ∧ t.Inv hash ∧ t.Tight ∧ t.toList = es.putAll := by
    induction es using List.reverseRecOn with
    | nil =>
      have hfresh : Fresh hash jsonObjectDefHashEntries (lhTableNew jsonObjectDefHashEntries : LhTable κ ν) :=
        fresh_new (by decide)
      exact ⟨_,rfl,hfresh.inv,⟨Nat.le_add_right 3 13,Nat.zero_lt_succ 15,hfresh.not_freed,.inl rfl⟩,rfl⟩
    | append_singleton es e ih =>
      obtain ⟨t,hrun,hinv,htight,hlist⟩ := ih
      obtain ⟨t',hadd,hinv',htight',hlist'⟩ := hinv.add_eq htight e.1 e.2
      refine ⟨t',?_,hinv',htight',by rw [hlist',hlist,Table.putAll_append]⟩
      rw [List.foldlM_append,hrun]
      exact (bind_pure _).trans hadd
  obtain ⟨t,hrun,hinv,htight,hlist⟩ := hrun
  refine ⟨t,hrun,hlist,by rw [← hlist,hinv.length_toList],fun hfew => ?_,fun k => ?_⟩
  · rcases htight.grown with hnew | hgrown
    · rw [hnew]
      decide
    · omega
  · rw [hinv.lookup_eq (hinv.hasRoom htight),hlist,Table.get_putAll]

/-- A key that is added again goes to the end of the list. -/
example : (do
    let t ← jsonObjectObjectAdd lhCharHash (lhTableNew jsonObjectDefHashEntries) [97] 1
    let t ← jsonObjectObjectAdd lhCharHash t [200] 2
    let t ← jsonObjectObjectAdd lhCharHash t [97] 3
    pure t.toList) = some [([200],2),([97],3)] := by decide +kernel

end Add
end LhTable
end Memqueue
