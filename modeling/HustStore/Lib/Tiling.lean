import Mathlib.Data.List.Count
import Mathlib.Order.Lattice

/-!
# Ranges that follow one another

A list of half-open ranges, each of which starts where the one before it stops. Such a path may run backwards in
places, and then it covers some points more than once.
-/

namespace Tiling

variable {α : Type} [LinearOrder α]

def Covers (b : α) (r : α × α) : Prop := r.1 ≤ b ∧ b < r.2

instance decidableCovers (b : α) (r : α × α) : Decidable (Covers b r) :=
  inferInstanceAs (Decidable (r.1 ≤ b ∧ b < r.2))

inductive Path : α → α → List (α × α) → Prop
  | nil (x : α) : Path x x []
  | cons {x y z : α} {rs : List (α × α)} : Path y z rs → Path x z ((x, y) :: rs)

def hits (b : α) (rs : List (α × α)) : Nat := rs.countP fun r => decide (Covers b r)

def backward (b : α) (rs : List (α × α)) : Nat := rs.countP fun r => decide (Covers b r.swap)

variable {x y z lo hi b : α} {rs ss : List (α × α)}

omit [LinearOrder α] in
theorem Path.append (h : Path x y rs) (h' : Path y z ss) : Path x z (rs ++ ss) := by
  induction h with
  | nil => exact h'
  | cons _ ih => exact .cons (ih h')

theorem Path.hits_add (h : Path x y rs) (b : α) : hits b rs + (if Covers b (y, x) then 1 else 0) =
      backward b rs + if Covers b (x, y) then 1 else 0 := by
  induction h with
  | nil => rfl
  | @cons x y z rs _ ih =>
    simp only [hits, backward, List.countP_cons, Prod.swap_prod_mk, Covers, decide_eq_true_eq,
      ← not_le (a := x), ← not_le (a := y), ← not_le (a := z)] at ih ⊢
    by_cases hx : x ≤ b <;> by_cases hy : y ≤ b <;> by_cases hz : z ≤ b <;>
      simp only [hx, hy, hz, not_true_eq_false, not_false_eq_true, and_true, and_false, and_self,
        if_true, if_false] at ih ⊢ <;> omega

structure Exact (lo hi : α) (rs : List (α × α)) : Prop where
  inside : ∀ r ∈ rs, ∀ b, Covers b r → lo ≤ b ∧ b < hi
  once : ∀ b, lo ≤ b → b < hi → hits b rs = 1

theorem hits_eq_zero (h : ∀ r ∈ rs, ¬ Covers b r) : hits b rs = 0 :=
  List.countP_eq_zero.mpr fun r hr hcovers => h r hr (of_decide_eq_true hcovers)

theorem hits_pos_iff : 0 < hits b rs ↔ ∃ r ∈ rs, Covers b r := by
  rw [hits, List.countP_pos_iff]
  constructor
  · rintro ⟨r, hr, hcovers⟩
    exact ⟨r, hr, of_decide_eq_true hcovers⟩
  · rintro ⟨r, hr, hcovers⟩
    exact ⟨r, hr, decide_eq_true hcovers⟩

theorem backward_eq_zero (h : ∀ r ∈ rs, r.1 ≤ r.2) : backward b rs = 0 := by
  apply List.countP_eq_zero.mpr
  intro r hr hcovers
  have hswap := of_decide_eq_true hcovers
  exact absurd (hswap.1.trans_lt hswap.2) (not_lt_of_ge (h r hr))

theorem backward_pos {r : α × α} (hr : r ∈ rs) (h : r.2 < r.1) : 0 < backward r.2 rs :=
  List.countP_pos_iff.mpr ⟨r, hr, decide_eq_true ⟨le_refl _, h⟩⟩

theorem not_covers_of_le (h : lo ≤ hi) : ¬ Covers b (hi, lo) := by
  rintro ⟨hle, hlt⟩
  exact absurd (hle.trans_lt hlt) (not_lt_of_ge h)

theorem Path.exact_of_forward (h : Path lo hi rs) (hle : lo ≤ hi) (hforward : ∀ r ∈ rs, r.1 ≤ r.2) :
    Exact lo hi rs := by
  have hhits (b : α) : hits b rs = if Covers b (lo, hi) then 1 else 0 := by
    have hadd := h.hits_add b
    rw [if_neg (not_covers_of_le hle), backward_eq_zero hforward] at hadd
    omega
  constructor
  · intro r hr b hb
    have hpos : 0 < hits b rs := hits_pos_iff.mpr ⟨r, hr, hb⟩
    rw [hhits b] at hpos
    by_cases hcovers : Covers b (lo, hi)
    · exact hcovers
    · rw [if_neg hcovers] at hpos
      exact absurd hpos (Nat.lt_irrefl 0)
  · intro b hlo hhi
    rw [hhits b, if_pos ⟨hlo, hhi⟩]

theorem Path.forward_of_exact (h : Path lo hi rs) (hle : lo ≤ hi) (hexact : Exact lo hi rs) :
    ∀ r ∈ rs, r.1 ≤ r.2 := by
  intro r hr
  by_contra hback
  have hpos := backward_pos hr (lt_of_not_ge hback)
  have hadd := h.hits_add r.2
  rw [if_neg (not_covers_of_le hle)] at hadd
  by_cases hcovers : Covers r.2 (lo, hi)
  · rw [if_pos hcovers, hexact.once r.2 hcovers.1 hcovers.2] at hadd
    omega
  · -- outside the bounds nothing is hit, so nothing runs back over the point either
    have hzero : hits r.2 rs = 0 := hits_eq_zero fun s hs hcov => hcovers (hexact.inside s hs _ hcov)
    rw [if_neg hcovers, hzero] at hadd
    omega

theorem Exact.stop_unique (h : Exact lo hi rs) (h' : Exact lo y rs) (hhi : lo ≤ hi) (hy : lo ≤ y) : y = hi := by
  rcases lt_trichotomy y hi with hlt | heq | hgt
  · have hpos : 0 < hits y rs := by rw [h.once y hy hlt]; exact Nat.one_pos
    obtain ⟨r, hr, hcovers⟩ := hits_pos_iff.mp hpos
    exact absurd (h'.inside r hr y hcovers).2 (lt_irrefl y)
  · exact heq
  · have hpos : 0 < hits hi rs := by rw [h'.once hi hhi hgt]; exact Nat.one_pos
    obtain ⟨r, hr, hcovers⟩ := hits_pos_iff.mp hpos
    exact absurd (h.inside r hr hi hcovers).2 (lt_irrefl hi)

end Tiling
