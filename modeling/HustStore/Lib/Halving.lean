import Mathlib.Data.List.Sort

/-!
# Searching by halving

A search looks at the middle of an interval of positions and, unless it hits there, goes on in the half before
or behind it.
-/

namespace Halving

inductive Verdict
  | hit
  | before
  | behind
  deriving DecidableEq

def middle (low high : Nat) : Nat := (low + (high - 1)) / 2

def search (verdict : Nat → Verdict) : Nat → Nat → Nat → Bool
  | 0, _, _ => false
  | fuel + 1, low, high =>
    if low < high then
      match verdict (middle low high) with
      | .hit => true
      | .before => search verdict fuel low (middle low high)
      | .behind => search verdict fuel (middle low high + 1) high
    else false

def probes : Nat → Nat → Nat → Nat → List Nat
  | 0, _, _, _ => []
  | fuel + 1, low, high, gap =>
    if low < high then
      middle low high ::
        if gap ≤ middle low high then probes fuel low (middle low high) gap
        else probes fuel (middle low high + 1) high gap
    else []

theorem le_middle {low high : Nat} (h : low < high) : low ≤ middle low high := by
  unfold middle
  omega

theorem middle_lt {low high : Nat} (h : low < high) : middle low high < high := by
  unfold middle
  omega

theorem lt_of_mem_probes {fuel low high gap i : Nat} (h : i ∈ probes fuel low high gap) :
    i < high := by
  induction fuel generalizing low high with
  | zero => simp [probes] at h
  | succ fuel ih =>
    rw [probes] at h
    split_ifs at h with hlt hgap
    · obtain rfl | h := List.mem_cons.mp h
      · exact middle_lt hlt
      · exact (ih h).trans (middle_lt hlt)
    · obtain rfl | h := List.mem_cons.mp h
      · exact middle_lt hlt
      · exact ih h
    · simp at h

theorem pred_mem_probes {fuel low high gap : Nat} (hlow : low < gap) (hhigh : gap ≤ high)
    (hfuel : high ≤ low + fuel) : gap - 1 ∈ probes fuel low high gap := by
  induction fuel generalizing low high with
  | zero => omega
  | succ fuel ih =>
    have hlt : low < high := hlow.trans_le hhigh
    have hle := le_middle hlt
    have hlt' := middle_lt hlt
    rw [probes, if_pos hlt]
    split_ifs with hgap
    · exact List.mem_cons_of_mem _ (ih hlow hgap (by omega))
    · by_cases hmid : gap = middle low high + 1
      · rw [hmid]
        exact List.mem_cons_self
      · exact List.mem_cons_of_mem _ (ih (by omega) hhigh (by omega))

theorem search_eq_any {verdict : Nat → Verdict} {fuel low high : Nat} (gap : Nat)
    (hbefore : ∀ i < high, verdict i = .before → gap ≤ i)
    (hbehind : ∀ i < high, verdict i = .behind → i < gap) :
    search verdict fuel low high = (probes fuel low high gap).any (verdict · = .hit) := by
  induction fuel generalizing low high with
  | zero => rfl
  | succ fuel ih =>
    rw [search, probes]
    split_ifs with hlt hgap
    -- A verdict that sends the search to the other side of the gap is ruled out.
    · have hmid := middle_lt hlt
      cases hv : verdict (middle low high) with
      | hit => simp [hv]
      | before =>
        simp only [List.any_cons, hv, reduceCtorEq, decide_false, Bool.false_or]
        exact ih (fun i hi => hbefore i (hi.trans hmid)) fun i hi => hbehind i (hi.trans hmid)
      | behind => exact absurd (hbehind _ hmid hv) (by omega)
    · have hmid := middle_lt hlt
      cases hv : verdict (middle low high) with
      | hit => simp [hv]
      | before => exact absurd (hbefore _ hmid hv) hgap
      | behind =>
        simp only [List.any_cons, hv, reduceCtorEq, decide_false, Bool.false_or]
        exact ih hbefore hbehind
    · rfl

end Halving
