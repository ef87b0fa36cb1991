import HustStore.Lib.SortedMap
import Mathlib.Algebra.Ring.Nat
import Mathlib.Data.List.Nodup

/-!
# Which rows hold an element

Elements are given row by row, and the table is turned around: for every element the numbers of the rows that
hold it, as often as they hold it.
-/

universe u v

namespace Incidence

variable {α : Type u} {V : Type v}

def listed (k : Nat) : List (List α) → List (Nat × α)
  | [] => []
  | row :: rows => row.map (fun a => (k, a)) ++ listed (k + 1) rows

section

variable [DecidableEq α]

def holders (k : Nat) (rows : List (List α)) (a : α) : List Nat :=
  ((listed k rows).filter fun e => e.2 = a).map Prod.fst

theorem filter_map_pair (k : Nat) (row : List α) (a : α) :
    ((row.map fun b => (k, b)).filter fun e => e.2 = a).map Prod.fst = List.replicate (row.count a) k := by
  induction row with
  | nil => rfl
  | cons b row ih =>
    by_cases hb : b = a
    · subst hb
      simpa [List.replicate_succ] using ih
    · simpa [hb] using ih

@[simp] theorem holders_nil (k : Nat) (a : α) : holders k [] a = [] := rfl

@[simp] theorem holders_cons (k : Nat) (row : List α) (rows : List (List α)) (a : α) :
    holders k (row :: rows) a = List.replicate (row.count a) k ++ holders (k + 1) rows a := by
  rw [holders, listed, List.filter_append, List.map_append, filter_map_pair]
  rfl

theorem length_holders (k : Nat) (rows : List (List α)) (a : α) :
    (holders k rows a).length = (rows.map fun row => row.count a).sum := by
  induction rows generalizing k with
  | nil => rfl
  | cons row rows ih => simp [ih]

theorem mem_holders_iff {k s : Nat} {rows : List (List α)} {a : α} :
    s ∈ holders k rows a ↔ ∃ row i, s = k + i ∧ rows[i]? = some row ∧ a ∈ row := by
  induction rows generalizing k with
  | nil => simp
  | cons row rows ih =>
    rw [holders_cons, List.mem_append, List.mem_replicate, ih]
    constructor
    · rintro (⟨hcount, rfl⟩ | ⟨row', i, rfl, hrow', ha⟩)
      · exact ⟨row, 0, rfl, rfl, List.count_pos_iff.mp (Nat.pos_of_ne_zero hcount)⟩
      · exact ⟨row', i + 1, by omega, hrow', ha⟩
    · rintro ⟨row', i, rfl, hrow', ha⟩
      cases i with
      | zero =>
        rw [List.getElem?_cons_zero, Option.some.injEq] at hrow'
        subst hrow'
        exact .inl ⟨(List.count_pos_iff.mpr ha).ne', rfl⟩
      | succ i => exact .inr ⟨row', i, by omega, hrow', ha⟩

theorem nodup_holders_iff {k : Nat} {rows : List (List α)} {a : α} :
    (holders k rows a).Nodup ↔ ∀ row ∈ rows, row.count a ≤ 1 := by
  induction rows generalizing k with
  | nil => simp
  | cons row rows ih =>
    have hdisjoint : (List.replicate (row.count a) k).Disjoint (holders (k + 1) rows a) := by
      intro s hs hs'
      obtain ⟨-, i, rfl, -⟩ := mem_holders_iff.mp hs'
      have := List.eq_of_mem_replicate hs
      omega
    rw [holders_cons, List.nodup_append', List.nodup_replicate, ih, List.forall_mem_cons]
    exact ⟨fun h => ⟨h.1, h.2.1⟩, fun h => ⟨h.1, h.2, hdisjoint⟩⟩

end

/-! ### Maps that are built along the table -/

section

variable [LinearOrder α] {add : Option V → Nat → V}

def note (add : Option V → Nat → V) (m : SortedMap α V) (e : Nat × α) : SortedMap α V :=
  m.insert e.2 (add (m.get? e.2) e.1)

theorem get?_foldl_note (m : SortedMap α V) (l : List (Nat × α)) (a : α) : (l.foldl (note add) m).get? a
      = ((l.filter fun e => e.2 = a).map Prod.fst).foldl (fun o i => some (add o i)) (m.get? a) := by
  induction l generalizing m with
  | nil => rfl
  | cons e l ih =>
    rw [List.foldl_cons, ih, note, SortedMap.get?_insert]
    by_cases he : e.2 = a
    · simp [he]
    · have hne : a ≠ e.2 := fun h => he h.symm
      simp [he, hne]

theorem foldl_concat (l acc : List Nat) :
    l.foldl (fun (o : Option (List Nat)) i => some (o.getD [] ++ [i])) (some acc) = some (acc ++ l) := by
  induction l generalizing acc with
  | nil => simp
  | cons i l ih => simp [ih]

theorem foldl_concat_none (l : List Nat) : l.foldl (fun (o : Option (List Nat)) i => some (o.getD [] ++ [i])) none
      = if l = [] then none else some l := by
  cases l with
  | nil => rfl
  | cons i l => simp [foldl_concat]

theorem foldl_succ (l : List Nat) (n : Nat) :
    l.foldl (fun (o : Option Nat) _ => some (o.getD 0 + 1)) (some n) = some (n + l.length) := by
  induction l generalizing n with
  | nil => rfl
  | cons i l ih =>
    rw [List.foldl_cons, Option.getD_some, ih, List.length_cons]
    congr 1
    omega

theorem foldl_succ_none (l : List Nat) : l.foldl (fun (o : Option Nat) _ => some (o.getD 0 + 1)) none
      = if l = [] then none else some l.length := by
  cases l with
  | nil => rfl
  | cons i l =>
    rw [List.foldl_cons, Option.getD_none, foldl_succ, if_neg (List.cons_ne_nil i l), List.length_cons]
    congr 1
    omega

end

end Incidence
