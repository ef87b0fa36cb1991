import Mathlib.Data.List.Pairwise
import Mathlib.Order.Lattice

/-!
# Ordered finite maps

A finite map kept as a list of entries in strictly increasing key order, which is what an iterator over an
ordered key-value store sees.
-/

universe u v

@[ext]
structure SortedMap (K : Type u) (V : Type v) [LinearOrder K] where
  entries : List (K × V)
  sorted : entries.Pairwise fun a b => a.1 < b.1

namespace SortedMap

variable {K : Type u} {V : Type v} [LinearOrder K]

instance [DecidableEq V] : DecidableEq (SortedMap K V) := fun m m' =>
  decidable_of_iff (m.entries = m'.entries) SortedMap.ext_iff.symm

def empty : SortedMap K V := ⟨[], .nil⟩

def lookup (k : K) : List (K × V) → Option V
  | [] => none
  | (k', v) :: rest => if k' = k then some v else lookup k rest

def get? (m : SortedMap K V) (k : K) : Option V := lookup k m.entries

def insertEntry (k : K) (v : V) : List (K × V) → List (K × V)
  | [] => [(k, v)]
  | (k', v') :: rest =>
    if k < k' then (k, v) :: (k', v') :: rest
    else if k = k' then (k, v) :: rest
    else (k', v') :: insertEntry k v rest

variable {l : List (K × V)}

theorem mem_insertEntry {k : K} {v : V} {e : K × V} (h : e ∈ insertEntry k v l) : e = (k, v) ∨ e ∈ l := by
  induction l with
  | nil => simpa [insertEntry] using h
  | cons hd rest ih =>
    obtain ⟨k', v'⟩ := hd
    unfold insertEntry at h
    split at h
    · simpa using h
    · split at h
      · rcases List.mem_cons.mp h with h | h
        · exact .inl h
        · exact .inr (List.mem_cons_of_mem _ h)
      · rcases List.mem_cons.mp h with h | h
        · exact .inr (by simp [h])
        · exact (ih h).imp id (List.mem_cons_of_mem _)

theorem pairwise_insertEntry (k : K) (v : V) (h : l.Pairwise fun a b => a.1 < b.1) :
    (insertEntry k v l).Pairwise fun a b => a.1 < b.1 := by
  induction l with
  | nil => simp [insertEntry]
  | cons hd rest ih =>
    obtain ⟨k', v'⟩ := hd
    obtain ⟨hhd, hrest⟩ := List.pairwise_cons.mp h
    unfold insertEntry
    split
    · rename_i hlt
      refine List.pairwise_cons.mpr ⟨fun e he => ?_, h⟩
      rcases List.mem_cons.mp he with rfl | he
      · exact hlt
      · exact hlt.trans (hhd e he)
    · rename_i hnlt
      split
      · rename_i heq
        subst heq
        exact List.pairwise_cons.mpr ⟨hhd, hrest⟩
      · rename_i hne
        refine List.pairwise_cons.mpr ⟨fun e he => ?_, ih hrest⟩
        rcases mem_insertEntry he with rfl | he
        · exact lt_of_le_of_ne (not_lt.mp hnlt) (Ne.symm hne)
        · exact hhd e he

def insert (m : SortedMap K V) (k : K) (v : V) : SortedMap K V :=
  ⟨insertEntry k v m.entries, pairwise_insertEntry k v m.sorted⟩

def erase (m : SortedMap K V) (k : K) : SortedMap K V :=
  ⟨m.entries.filter fun e => e.1 ≠ k, m.sorted.filter _⟩

variable (m : SortedMap K V) (k k' : K) (v : V)

@[simp] theorem get?_empty : (empty : SortedMap K V).get? k = none := rfl

@[simp] theorem lookup_insertEntry_self (l : List (K × V)) : lookup k (insertEntry k v l) = some v := by
  induction l with
  | nil => simp [insertEntry, lookup]
  | cons hd rest ih =>
    obtain ⟨k', v'⟩ := hd
    unfold insertEntry
    split
    · simp [lookup]
    · split
      · simp [lookup]
      · rename_i hne
        simp [lookup, Ne.symm hne, ih]

theorem lookup_insertEntry_of_ne {k k' : K} (h : k' ≠ k) (l : List (K × V)) :
    lookup k' (insertEntry k v l) = lookup k' l := by
  induction l with
  | nil => simp [insertEntry, lookup, Ne.symm h]
  | cons hd rest ih =>
    obtain ⟨k₁, v₁⟩ := hd
    unfold insertEntry
    split
    · simp [lookup, Ne.symm h]
    · split
      · rename_i heq
        subst heq
        simp [lookup, Ne.symm h]
      · simp [lookup, ih]

theorem lookup_filter_self (l : List (K × V)) : lookup k (l.filter fun e => e.1 ≠ k) = none := by
  induction l with
  | nil => rfl
  | cons hd rest ih =>
    by_cases hk : hd.1 = k
    · rw [List.filter_cons_of_neg (by simp [hk])]
      exact ih
    · rw [List.filter_cons_of_pos (by simp [hk]), lookup, if_neg hk]
      exact ih

theorem lookup_filter_of_ne {k k' : K} (h : k' ≠ k) (l : List (K × V)) :
    lookup k' (l.filter fun e => e.1 ≠ k) = lookup k' l := by
  induction l with
  | nil => rfl
  | cons hd rest ih =>
    by_cases hk : hd.1 = k
    · rw [List.filter_cons_of_neg (by simp [hk]), lookup, if_neg (by rw [hk]; exact Ne.symm h)]
      exact ih
    · rw [List.filter_cons_of_pos (by simp [hk]), lookup, lookup, ih]

@[simp] theorem get?_insert_self : (m.insert k v).get? k = some v := lookup_insertEntry_self k v _

theorem get?_insert_of_ne {k k' : K} (h : k' ≠ k) : (m.insert k v).get? k' = m.get? k' :=
  lookup_insertEntry_of_ne v h _

theorem get?_insert : (m.insert k v).get? k' = if k' = k then some v else m.get? k' := by
  split
  · rename_i h
    subst h
    exact get?_insert_self m k' v
  · rename_i h
    exact get?_insert_of_ne m v h

@[simp] theorem get?_erase_self : (m.erase k).get? k = none := lookup_filter_self k _

theorem get?_erase_of_ne {k k' : K} (h : k' ≠ k) : (m.erase k).get? k' = m.get? k' :=
  lookup_filter_of_ne h _

theorem get?_erase : (m.erase k).get? k' = if k' = k then none else m.get? k' := by
  split
  · rename_i h
    subst h
    exact get?_erase_self m k'
  · rename_i h
    exact get?_erase_of_ne m h

/-! ### Entries and lookups -/

theorem mem_of_lookup {k : K} {v : V} (h : lookup k l = some v) : (k, v) ∈ l := by
  induction l with
  | nil => cases h
  | cons hd rest ih =>
    obtain ⟨k', v'⟩ := hd
    unfold lookup at h
    split at h
    · rename_i heq
      subst heq
      cases h
      simp
    · exact List.mem_cons_of_mem _ (ih h)

theorem lookup_of_mem (hs : l.Pairwise fun a b => a.1 < b.1) {k : K} {v : V}
    (h : (k, v) ∈ l) : lookup k l = some v := by
  induction l with
  | nil => cases h
  | cons hd rest ih =>
    obtain ⟨k', v'⟩ := hd
    obtain ⟨hhd, hrest⟩ := List.pairwise_cons.mp hs
    unfold lookup
    rcases List.mem_cons.mp h with h | h
    · cases h
      simp
    · have hne : k' ≠ k := (hhd _ h).ne
      rw [if_neg hne]
      exact ih hrest h

theorem mem_entries {m : SortedMap K V} {k : K} {v : V} : (k, v) ∈ m.entries ↔ m.get? k = some v :=
  ⟨lookup_of_mem m.sorted, mem_of_lookup⟩

theorem dropWhile_lt {p : K × V → Bool} (hp : ∀ e, p e = true ↔ e.1 < k) :
    m.entries.dropWhile p = m.entries.filter fun e => !p e := by
  have hentries (l : List (K × V)) (hl : l.Pairwise fun a b => a.1 < b.1) :
      l.dropWhile p = l.filter fun e => !p e := by
    induction l with
    | nil => rfl
    | cons e l ih =>
      obtain ⟨hhead, htail⟩ := List.pairwise_cons.mp hl
      by_cases he : p e = true
      · rw [List.dropWhile_cons_of_pos he, ih htail, List.filter_cons_of_neg (by simp [he])]
      · rw [List.dropWhile_cons_of_neg he]
        refine (List.filter_eq_self.mpr fun e' he' => ?_).symm
        rw [Bool.not_eq_true', ← Bool.not_eq_true, hp]
        rw [hp] at he
        obtain rfl | he' := List.mem_cons.mp he'
        · exact he
        · exact fun hlt => he ((hhead e' he').trans hlt)
  exact hentries m.entries m.sorted

variable {keys : List K}

theorem entries_foldl_erase {p : K × V → Bool} (hp : ∀ e, p e = true ↔ e.1 ∉ keys) :
    (keys.foldl erase m).entries = m.entries.filter p := by
  induction keys generalizing m p with
  | nil => exact (List.filter_eq_self.mpr fun e _ => (hp e).mpr List.not_mem_nil).symm
  | cons key keys ih =>
    rw [List.foldl_cons, ih (m.erase key) (p := fun e => decide (e.1 ∉ keys)) fun e => decide_eq_true_iff]
    simp only [erase, List.filter_filter]
    refine List.filter_congr fun e _ => ?_
    rw [Bool.eq_iff_iff, hp]
    simp [and_comm]

theorem mem_of_mem_foldl_erase {m : SortedMap K V} {e : K × V}
    (h : e ∈ (keys.foldl erase m).entries) : e ∈ m.entries := by
  rw [entries_foldl_erase m (p := fun e => decide (e.1 ∉ keys)) fun e => decide_eq_true_iff] at h
  exact (List.mem_filter.mp h).1

theorem perm_insert {m : SortedMap K V} {k : K} (h : m.get? k = none) (v : V) :
    (m.insert k v).entries.Perm ((k, v) :: m.entries) := by
  have hentries (l : List (K × V)) (hl : lookup k l = none) : (insertEntry k v l).Perm ((k, v) :: l) := by
    induction l with
    | nil => exact .refl _
    | cons e rest ih =>
      obtain ⟨k', v'⟩ := e
      unfold lookup at hl
      split_ifs at hl with hk
      unfold insertEntry
      rw [if_neg (Ne.symm hk)]
      split
      · exact .refl _
      · exact ((ih hl).cons _).trans (.swap ..)
  exact hentries m.entries h

theorem length_le_insert : m.entries.length ≤ (m.insert k v).entries.length := by
  have hentries (l : List (K × V)) : l.length ≤ (insertEntry k v l).length := by
    induction l with
    | nil => exact Nat.zero_le _
    | cons e l ih =>
      rw [insertEntry]
      split_ifs <;> simp only [List.length_cons] <;> omega
  exact hentries m.entries

theorem length_entries {m : SortedMap K V} (hkeys : keys.Nodup)
    (h : ∀ k, k ∈ keys ↔ ∃ v, m.get? k = some v) : m.entries.length = keys.length := by
  have hnodup : (m.entries.map Prod.fst).Nodup := by
    rw [List.Nodup, List.pairwise_map]
    exact m.sorted.imp fun hlt => hlt.ne
  have hperm : (m.entries.map Prod.fst).Perm keys := by
    rw [List.perm_ext_iff_of_nodup hnodup hkeys]
    intro k
    rw [h, List.mem_map]
    constructor
    · rintro ⟨⟨k, v⟩, hmem, rfl⟩
      exact ⟨v, mem_entries.mp hmem⟩
    · rintro ⟨v, hv⟩
      exact ⟨(k, v), mem_entries.mpr hv, rfl⟩
  rw [← hperm.length_eq, List.length_map]

theorem perm_erase {m : SortedMap K V} {k : K} {v : V} (h : m.get? k = some v) :
    m.entries.Perm ((k, v) :: (m.erase k).entries) := by
  have hentries (l : List (K × V)) (hs : l.Pairwise fun a b => a.1 < b.1)
      (hl : lookup k l = some v) : l.Perm ((k, v) :: l.filter fun e => e.1 ≠ k) := by
    induction l with
    | nil => cases hl
    | cons e rest ih =>
      obtain ⟨k', v'⟩ := e
      obtain ⟨hhd, hrest⟩ := List.pairwise_cons.mp hs
      unfold lookup at hl
      split_ifs at hl with hk
      · cases hl
        subst hk
        have hself : rest.filter (fun e => e.1 ≠ k') = rest :=
          List.filter_eq_self.mpr fun e he => by simpa using (hhd e he).ne'
        rw [List.filter_cons_of_neg (by simp), hself]
      · rw [List.filter_cons_of_pos (by simpa using hk)]
        exact ((ih hrest hl).cons _).trans (.swap ..)
  exact hentries m.entries m.sorted h

end SortedMap
