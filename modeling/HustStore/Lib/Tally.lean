import Mathlib.Algebra.BigOperators.Ring.Finset

/-!
# Totals of finite partial maps

A number is kept beside a partial map with finitely many keys as the sum of what each entry counts for. The
rules say how the number follows when an entry comes, goes or is replaced.
-/

namespace Tally

variable {K V : Type*} {f : K → V → ℤ} {m : K → Option V} {n : ℤ} {k : K} {v old : V}

def Covers (keys : Finset K) (m : K → Option V) : Prop := ∀ k, k ∈ keys ↔ (m k).isSome

def share (f : K → V → ℤ) (m : K → Option V) (k : K) : ℤ := (m k).elim 0 (f k)

def Totals (f : K → V → ℤ) (m : K → Option V) (n : ℤ) : Prop :=
  ∃ keys : Finset K, Covers keys m ∧ n = ∑ k ∈ keys, share f m k

theorem Covers.unique {keys keys' : Finset K} (h : Covers keys m) (h' : Covers keys' m) : keys = keys' := by
  ext k
  rw [h k, h' k]

theorem totals_empty (hm : ∀ k, m k = none) : Totals f m 0 := by
  refine ⟨∅, fun k => ?_, rfl⟩
  simp [hm k]

variable {keys : Finset K}

theorem Totals.eq_card (h : Totals (fun _ _ => 1) m n) (hcovers : Covers keys m) : n = keys.card := by
  obtain ⟨keys', hcovers', rfl⟩ := h
  rw [hcovers'.unique hcovers, Finset.card_eq_sum_ones, Nat.cast_sum]
  apply Finset.sum_congr rfl
  intro k hk
  obtain ⟨v, hv⟩ := Option.isSome_iff_exists.mp ((hcovers k).mp hk)
  rw [share, hv]
  rfl

theorem Totals.eq_sum (h : Totals f m n) (hcovers : Covers keys m) : n = ∑ k ∈ keys, share f m k := by
  obtain ⟨keys', hcovers', rfl⟩ := h
  rw [hcovers'.unique hcovers]

theorem Totals.eq_zero (h : Totals f m n) (hf : ∀ k v, f k v = 0) : n = 0 := by
  obtain ⟨keys, -, rfl⟩ := h
  refine Finset.sum_eq_zero fun k _ => ?_
  unfold share
  cases m k with
  | none => rfl
  | some v => exact hf k v

variable [DecidableEq K]

theorem share_update (o : Option V) (hk : k ∉ keys) :
    ∑ k' ∈ keys, share f (Function.update m k o) k' = ∑ k' ∈ keys, share f m k' := by
  apply Finset.sum_congr rfl
  intro k' hk'
  have hne : k' ≠ k := by
    rintro rfl
    exact hk hk'
  rw [share, share, Function.update_of_ne hne]

theorem Totals.insert (h : Totals f m n) (hk : m k = none) : Totals f (Function.update m k (some v)) (n + f k v) := by
  obtain ⟨keys, hcovers, rfl⟩ := h
  have hnot : k ∉ keys := by
    rw [hcovers k, hk]
    simp
  refine ⟨Insert.insert k keys, fun k' => ?_, ?_⟩
  · by_cases hne : k' = k
    · simp [hne]
    · rw [Function.update_of_ne hne, Finset.mem_insert, hcovers k', or_iff_right hne]
  · rw [Finset.sum_insert hnot, share_update _ hnot, share, Function.update_self]
    exact add_comm _ _

theorem Totals.erase (h : Totals f m n) (hk : m k = some old) :
    Totals f (Function.update m k none) (n - f k old) := by
  obtain ⟨keys, hcovers, rfl⟩ := h
  have hmem : k ∈ keys := by
    rw [hcovers k, hk]
    rfl
  refine ⟨keys.erase k, fun k' => ?_, ?_⟩
  · by_cases hne : k' = k
    · simp [hne]
    · rw [Function.update_of_ne hne, Finset.mem_erase, hcovers k', and_iff_right hne]
  · rw [share_update _ (Finset.notMem_erase k keys), ← Finset.add_sum_erase keys _ hmem, share, hk]
    exact add_sub_cancel_left _ _

theorem Totals.replace (h : Totals f m n) (hk : m k = some old) (heq : f k v = f k old) :
    Totals f (Function.update m k (some v)) n := by
  have hgone := (h.erase hk).insert (v := v) (Function.update_self k none m)
  rwa [Function.update_idem, heq, sub_add_cancel] at hgone

end Tally
