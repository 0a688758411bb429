import Mathlib

/-! Insertion-ordered finite maps, the abstract content of a chained hash table. -/
namespace Memqueue

/-- Entries in insertion order; keys are kept distinct by `insert`. -/
abbrev Table (κ α : Type) := List (κ × α)

namespace Table
variable {κ α : Type} [DecidableEq κ]

def get (t : Table κ α) (k : κ) : Option α := List.lookup k t

/-- A present key is left alone, as `h_insert` returning -1 does. -/
def insert (t : Table κ α) (k : κ) (a : α) : Table κ α :=
  if (get t k).isSome then t else t ++ [(k,a)]

def remove (t : Table κ α) (k : κ) : Table κ α := t.eraseP (fun e => e.1 = k)

def keys (t : Table κ α) : List κ := t.map Prod.fst

/-- Changes the value of a present key. -/
def modify (t : Table κ α) (k : κ) (f : α → α) : Table κ α := t.map fun e => if e.1 = k then (e.1,f e.2) else e

private theorem get_cons_ne {t : Table κ α} {k k' : κ} {b : α} (h : k ≠ k') :
    get ((k',b) :: t) k = get t k := by
  have hb : (k == k') = false := beq_eq_false_iff_ne.mpr h
  rw [get,get,List.lookup_cons,hb]

private theorem get_cons_self {t : Table κ α} {k : κ} {b : α} : get ((k,b) :: t) k = some b := by
  simp [get]

theorem mem_of_get {t : Table κ α} {k : κ} {a : α} (h : get t k = some a) : (k,a) ∈ t := by
  induction t with
  | nil => cases h
  | cons e t ih =>
    obtain ⟨k',b⟩ := e
    by_cases hk : k = k'
    · subst hk
      rw [get_cons_self] at h
      cases h
      exact List.mem_cons_self
    · rw [get_cons_ne hk] at h
      exact List.mem_cons_of_mem _ (ih h)

theorem get_eq_none {t : Table κ α} {k : κ} : get t k = none ↔ k ∉ keys t := by
  induction t with
  | nil => simp [get,keys]
  | cons e t ih =>
    obtain ⟨k',b⟩ := e
    by_cases hk : k = k'
    · subst hk
      simp [get_cons_self,keys]
    · rw [get_cons_ne hk,ih]
      simp [keys,hk]

theorem get_of_mem {t : Table κ α} (hn : (keys t).Nodup) {k : κ} {a : α} (h : (k,a) ∈ t) :
    get t k = some a := by
  induction t with
  | nil => cases h
  | cons e t ih =>
    obtain ⟨k',b⟩ := e
    rw [keys,List.map_cons,List.nodup_cons] at hn
    rcases List.mem_cons.mp h with he | ht
    · cases he
      exact get_cons_self
    · have hne : k ≠ k' := by
        rintro rfl
        exact hn.1 (List.mem_map.mpr ⟨_,ht,rfl⟩)
      rw [get_cons_ne hne]
      exact ih hn.2 ht

theorem get_iff_mem {t : Table κ α} (hn : (keys t).Nodup) {k : κ} {a : α} :
    get t k = some a ↔ (k,a) ∈ t := ⟨mem_of_get,get_of_mem hn⟩

theorem get_append (t u : Table κ α) (k : κ) : get (t ++ u) k = (get t k).or (get u k) := List.lookup_append

theorem insert_of_none {t : Table κ α} {k : κ} (h : get t k = none) (a : α) :
    insert t k a = t ++ [(k,a)] := by simp [insert,h]

theorem mem_of_insert {t : Table κ α} {k : κ} {a : α} {e : κ × α} (h : e ∈ insert t k a) : e ∈ t ∨ e = (k,a) := by
  rw [insert] at h
  split at h
  · exact .inl h
  · rwa [List.mem_append,List.mem_singleton] at h

/-- An insertion appends, or changes nothing. -/
theorem extends_insert (t : Table κ α) (k : κ) (a : α) : t <+: insert t k a := by
  rw [insert]
  split
  · exact List.prefix_rfl
  · exact List.prefix_append t _

theorem get_insert_self {t : Table κ α} {k : κ} (h : get t k = none) (a : α) :
    get (insert t k a) k = some a := by
  rw [insert_of_none h]
  induction t with
  | nil => exact get_cons_self
  | cons e t ih =>
    obtain ⟨k',b⟩ := e
    have hne : k ≠ k' := by
      rintro rfl
      rw [get_cons_self] at h
      cases h
    rw [get_cons_ne hne] at h
    rw [List.cons_append,get_cons_ne hne]
    exact ih h

theorem get_insert_of_some {t : Table κ α} {k k' : κ} {a : α} (h : get t k = some a) (b : α) :
    get (insert t k' b) k = some a := by
  unfold insert
  split
  · exact h
  · rw [get,List.lookup_append]
    rw [get] at h
    rw [h]
    rfl

theorem get_none_of_insert {t : Table κ α} {k k' : κ} {a : α} (h : get (insert t k a) k' = none) : get t k' = none := by
  rw [get_eq_none] at h ⊢
  unfold insert at h
  split at h
  · exact h
  · intro hk
    exact h (by simp only [keys,List.map_append,List.mem_append] at hk ⊢; exact .inl hk)

theorem keys_insert_nodup {t : Table κ α} (hn : (keys t).Nodup) (k : κ) (a : α) :
    (keys (insert t k a)).Nodup := by
  unfold insert
  split
  · exact hn
  · rename_i h
    have hk : k ∉ keys t := get_eq_none.mp (by simpa using h)
    simp only [keys,List.map_append,List.map_cons,List.map_nil]
    exact List.nodup_append.mpr ⟨hn,by simp,by
      rintro x hx y hy rfl
      exact hk (by simpa using (List.mem_singleton.mp hy) ▸ hx)⟩

theorem get_insert (t : Table κ α) (k k' : κ) (a : α) :
    get (insert t k a) k' = (get t k').or (if k' = k then some a else none) := by
  cases h' : get t k' with
  | some b =>
    rw [get_insert_of_some h' a,Option.some_or]
  | none =>
    rw [Option.none_or]
    split
    · rename_i hk
      subst hk
      exact get_insert_self h' a
    · rename_i hk
      rw [get_eq_none] at h' ⊢
      cases h : get t k with
      | none =>
        rw [insert_of_none h]
        simpa [keys,hk] using h'
      | some b => simpa [insert,h] using h'

section InsertAll
variable (es : Table κ α)

/-- Many entries one after the other: an earlier one of the same key wins. -/
def insertAll (t : Table κ α) : Table κ α := es.foldl (fun t e => insert t e.1 e.2) t

theorem get_insertAll (t : Table κ α) (k : κ) : get (insertAll es t) k = (get t k).or (get es k) := by
  induction es generalizing t with
  | nil => exact (Option.or_none).symm
  | cons e es ih =>
    have hhead : (if k = e.1 then some e.2 else none).or (get es k) = get (e :: es) k := by
      split
      · rename_i hk
        rw [hk,get_cons_self,Option.some_or]
      · rename_i hk
        rw [get_cons_ne hk,Option.none_or]
    rw [← hhead,← Option.or_assoc,← get_insert]
    exact ih _

theorem keys_insertAll_nodup {t : Table κ α} (hn : (keys t).Nodup) : (keys (insertAll es t)).Nodup := by
  induction es generalizing t with
  | nil => exact hn
  | cons e es ih => exact ih (keys_insert_nodup hn e.1 e.2)

end InsertAll

theorem keys_remove_nodup {t : Table κ α} (hn : (keys t).Nodup) (k : κ) : (keys (remove t k)).Nodup :=
  hn.sublist ((List.eraseP_sublist).map _)

theorem mem_remove {t : Table κ α} (hn : (keys t).Nodup) {k k' : κ} {a : α} :
    (k',a) ∈ remove t k ↔ (k',a) ∈ t ∧ k' ≠ k := by
  induction t with
  | nil => simp [remove]
  | cons e t ih =>
    obtain ⟨k₀,b⟩ := e
    rw [keys,List.map_cons,List.nodup_cons] at hn
    by_cases hk : k₀ = k
    · subst hk
      have hr : remove ((k₀,b) :: t) k₀ = t := by simp [remove]
      rw [hr]
      constructor
      · intro h
        refine ⟨List.mem_cons_of_mem _ h,?_⟩
        rintro rfl
        exact hn.1 (List.mem_map.mpr ⟨_,h,rfl⟩)
      · rintro ⟨h,hne⟩
        rcases List.mem_cons.mp h with he | ht
        · cases he
          exact absurd rfl hne
        · exact ht
    · have hr : remove ((k₀,b) :: t) k = (k₀,b) :: remove t k := by simp [remove,hk]
      rw [hr,List.mem_cons,List.mem_cons,ih hn.2]
      constructor
      · rintro (he | ⟨h,hne⟩)
        · cases he
          exact ⟨.inl rfl,hk⟩
        · exact ⟨.inr h,hne⟩
      · rintro ⟨he | h,hne⟩
        · exact .inl he
        · exact .inr ⟨h,hne⟩

theorem mem_keys_insert {t : Table κ α} {k k' : κ} (h : get t k = none) (a : α) :
    k' ∈ keys (insert t k a) ↔ k' ∈ keys t ∨ k' = k := by
  rw [insert_of_none h]
  simp [keys]

theorem mem_keys_remove {t : Table κ α} (hn : (keys t).Nodup) {k k' : κ} :
    k' ∈ keys (remove t k) ↔ k' ∈ keys t ∧ k' ≠ k := by
  constructor
  · intro h
    obtain ⟨⟨_,a⟩,hm,rfl⟩ := List.mem_map.mp h
    obtain ⟨hm,hne⟩ := (mem_remove hn).mp hm
    exact ⟨List.mem_map.mpr ⟨_,hm,rfl⟩,hne⟩
  · rintro ⟨h,hne⟩
    obtain ⟨⟨_,a⟩,hm,rfl⟩ := List.mem_map.mp h
    exact List.mem_map.mpr ⟨_,(mem_remove hn).mpr ⟨hm,hne⟩,rfl⟩

theorem length_remove {t : Table κ α} {k : κ} {a : α} (h : (k,a) ∈ t) :
    (remove t k).length + 1 = t.length := by
  have := List.length_eraseP_of_mem (p := fun e : κ × α => decide (e.1 = k)) h (by simp)
  have hpos := List.length_pos_of_mem h
  simp only [remove]
  omega

@[simp] theorem keys_modify (t : Table κ α) (k : κ) (f : α → α) : keys (modify t k f) = keys t := by
  rw [keys,modify,List.map_map]
  apply List.map_congr_left
  intro e _
  simp only [Function.comp_apply]
  split <;> rfl

theorem get_modify (t : Table κ α) (k k' : κ) (f : α → α) :
    get (modify t k f) k' = if k' = k then (get t k').map f else get t k' := by
  induction t with
  | nil => simp [modify,get]
  | cons e t ih =>
    obtain ⟨k₀,a⟩ := e
    by_cases h0 : k' = k₀
    · subst h0
      by_cases hk : k' = k
      · simp [modify,hk,get_cons_self]
      · simp [modify,hk,get_cons_self]
    · have hhead : ∀ b, get ((k₀,b) :: modify t k f) k' = get (modify t k f) k' := fun b => get_cons_ne h0
      rw [get_cons_ne h0,← ih]
      simp only [modify,List.map_cons]
      split <;> exact hhead _

theorem modify_of_none {t : Table κ α} {k : κ} (h : get t k = none) (f : α → α) : modify t k f = t := by
  rw [get_eq_none] at h
  conv_rhs => rw [← List.map_id t]
  apply List.map_congr_left
  intro e he
  apply if_neg
  rintro rfl
  exact h (List.mem_map_of_mem he)

/-- A new entry, changed at once. -/
theorem modify_insert {t : Table κ α} {k : κ} (h : get t k = none) (a : α) (f : α → α) :
    modify (insert t k a) k f = insert t k (f a) := by
  rw [insert_of_none h,insert_of_none h]
  have hold := modify_of_none h f
  rw [modify] at hold ⊢
  rw [List.map_append,hold]
  simp

section MapValues
variable {β : Type}

/-- The same keys with other values. -/
def mapValues (f : α → β) (t : Table κ α) : Table κ β := t.map fun e => (e.1,f e.2)

omit [DecidableEq κ] in
@[simp] theorem keys_mapValues (f : α → β) (t : Table κ α) : keys (mapValues f t) = keys t := by
  rw [keys,mapValues,List.map_map]
  rfl

theorem get_mapValues (f : α → β) (t : Table κ α) (k : κ) : get (mapValues f t) k = (get t k).map f := by
  induction t with
  | nil => rfl
  | cons e t ih =>
    obtain ⟨k',a⟩ := e
    rcases eq_or_ne k k' with rfl | hne
    · rw [get_cons_self]
      exact get_cons_self
    · rw [get_cons_ne hne,← ih]
      exact get_cons_ne hne

theorem mapValues_insert (f : α → β) (t : Table κ α) (k : κ) (a : α) :
    mapValues f (insert t k a) = insert (mapValues f t) k (f a) := by
  rw [insert,insert,get_mapValues,Option.isSome_map]
  split
  · rfl
  · exact List.map_append

/-- Two changes of a value that `f` carries into each other. -/
theorem mapValues_modify {f : α → β} (g : α → α) (g' : β → β) (h : ∀ a, f (g a) = g' (f a)) (t : Table κ α) (k : κ) :
    mapValues f (modify t k g) = modify (mapValues f t) k g' := by
  rw [mapValues,mapValues,modify,modify,List.map_map,List.map_map]
  apply List.map_congr_left
  intro e _
  simp only [Function.comp_apply]
  split
  · rw [h]
  · rfl

end MapValues

end Table
end Memqueue
