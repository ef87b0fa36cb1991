import Mathlib.Data.List.Sort

/-!
# Ordered multimaps

Entries in the order of their keys, where a key may have several entries. A new entry is placed after
the entries of the same key, as `std::multimap` places it.
-/

universe u v

@[ext]
structure Multimap (K : Type u) (V : Type v) [LinearOrder K] where
  entries : List (K × V)
  sorted : entries.Pairwise fun a b => a.1 ≤ b.1

namespace Multimap

variable {K : Type u} {V : Type v} [LinearOrder K]

def empty : Multimap K V := ⟨[], .nil⟩

def insertEntry (k : K) (v : V) : List (K × V) → List (K × V)
  | [] => [(k, v)]
  | e :: rest => if k < e.1 then (k, v) :: e :: rest else e :: insertEntry k v rest

theorem perm_insertEntry (k : K) (v : V) (l : List (K × V)) : (insertEntry k v l).Perm ((k, v) :: l) := by
  induction l with
  | nil => exact .refl _
  | cons e rest ih =>
    unfold insertEntry
    split
    · exact .refl _
    · exact (ih.cons e).trans (.swap ..)

theorem pairwise_insertEntry (k : K) (v : V) {l : List (K × V)} (h : l.Pairwise fun a b => a.1 ≤ b.1) :
    (insertEntry k v l).Pairwise fun a b => a.1 ≤ b.1 := by
  induction l with
  | nil => exact List.pairwise_singleton ..
  | cons e rest ih =>
    obtain ⟨hhd, hrest⟩ := List.pairwise_cons.mp h
    unfold insertEntry
    split
    · rename_i hlt
      refine List.pairwise_cons.mpr ⟨fun e' he' => ?_, h⟩
      rcases List.mem_cons.mp he' with rfl | he'
      · exact hlt.le
      · exact hlt.le.trans (hhd e' he')
    · rename_i hge
      refine List.pairwise_cons.mpr ⟨fun e' he' => ?_, ih hrest⟩
      rcases List.mem_cons.mp ((perm_insertEntry k v rest).mem_iff.mp he') with rfl | he'
      · exact not_lt.mp hge
      · exact hhd e' he'

theorem insertEntry_eq_append {k : K} {l : List (K × V)} (h : ∀ e ∈ l, e.1 ≤ k) (v : V) :
    insertEntry k v l = l ++ [(k, v)] := by
  induction l with
  | nil => rfl
  | cons e rest ih =>
    rw [insertEntry, if_neg (not_lt.mpr (h e (by simp))),
      ih fun e' he' => h e' (List.mem_cons_of_mem _ he'), List.cons_append]

def insert (m : Multimap K V) (k : K) (v : V) : Multimap K V :=
  ⟨insertEntry k v m.entries, pairwise_insertEntry k v m.sorted⟩

def tail (m : Multimap K V) : Multimap K V := ⟨m.entries.tail, m.sorted.tail⟩

def erase [DecidableEq V] (m : Multimap K V) (k : K) (v : V) : Multimap K V :=
  ⟨m.entries.erase (k, v), m.sorted.sublist List.erase_sublist⟩

variable {m : Multimap K V} {k : K} {v : V} {e : K × V}

theorem perm_insert : (m.insert k v).entries.Perm ((k, v) :: m.entries) := perm_insertEntry k v _

theorem mem_insert : e ∈ (m.insert k v).entries ↔ e = (k, v) ∨ e ∈ m.entries := by
  rw [perm_insert.mem_iff, List.mem_cons]

theorem insert_eq_append (h : ∀ e ∈ m.entries, e.1 ≤ k) :
    (m.insert k v).entries = m.entries ++ [(k, v)] := insertEntry_eq_append h v

theorem mem_of_mem_tail (h : e ∈ m.tail.entries) : e ∈ m.entries := List.mem_of_mem_tail h

theorem mem_of_mem_erase [DecidableEq V] {k' : K} {v' : V} (h : e ∈ (m.erase k' v').entries) :
    e ∈ m.entries := List.mem_of_mem_erase h

theorem perm_erase [DecidableEq V] (h : (k, v) ∈ m.entries) :
    m.entries.Perm ((k, v) :: (m.erase k v).entries) := List.perm_cons_erase h

theorem mem_erase_of_ne [DecidableEq V] {k' : K} {v' : V} (hne : e.2 ≠ v') (h : e ∈ m.entries) :
    e ∈ (m.erase k' v').entries :=
  (List.mem_erase_of_ne fun heq => hne (congrArg Prod.snd heq)).mpr h

theorem getElem?_erase [DecidableEq V] {i : Nat} {v' : V} (k' : K) (hne : e.2 ≠ v')
    (h : m.entries[i]? = some e) : ∃ j ≤ i, (m.erase k' v').entries[j]? = some e := by
  have herase (l : List (K × V)) (i : Nat) (h : l[i]? = some e) : ∃ j ≤ i, (l.erase (k', v'))[j]? = some e := by
    induction l generalizing i with
    | nil => cases h
    | cons c l ih =>
      by_cases hc : c = (k', v')
      · subst hc
        rw [List.erase_cons_head]
        cases i with
        | zero => exact absurd (congrArg Prod.snd (Option.some.inj h)).symm hne
        | succ i => exact ⟨i, by omega, h⟩
      · rw [List.erase_cons_tail (by simpa using hc)]
        cases i with
        | zero => exact ⟨0, by omega, h⟩
        | succ i =>
          obtain ⟨j, hj, hget⟩ := ih i h
          exact ⟨j + 1, by omega, hget⟩
  exact herase m.entries i h

end Multimap
