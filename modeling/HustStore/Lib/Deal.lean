import HustStore.Lib.Incidence
import Mathlib.Data.List.Perm.Subperm
import Mathlib.Data.Nat.ModEq

/-!
# Dealing in turn

The elements of a list are dealt to a number of hands in turn. Every hand gets the elements whose
turn is its own, and none is lost. An element that is dealt no more often than there are hands
reaches different hands.
-/

universe u

namespace Deal

variable {α : Type u}

def deal (hands : List (List α)) (token : Nat) : List α → List (List α)
  | [] => hands
  | a :: l => deal (hands.modify (token % hands.length) fun hand => hand ++ [a]) (token + 1) l

def share (n s : Nat) : Nat → List α → List α
  | _, [] => []
  | token, a :: l => if token % n = s then a :: share n s (token + 1) l else share n s (token + 1) l

@[simp] theorem length_deal (hands : List (List α)) (token : Nat) (l : List α) :
    (deal hands token l).length = hands.length := by
  induction l generalizing hands token with
  | nil => rfl
  | cons a l ih => rw [deal, ih, List.length_modify]

theorem getElem?_deal (hands : List (List α)) (token s : Nat) (l : List α) :
    (deal hands token l)[s]? = hands[s]?.map fun hand => hand ++ share hands.length s token l := by
  induction l generalizing hands token with
  | nil => simp [deal, share]
  | cons a l ih =>
    rw [deal, ih, List.getElem?_modify, List.length_modify, share]
    cases hands[s]? with
    | none => rfl
    | some hand =>
      by_cases hs : token % hands.length = s
      · simp [hs]
      · simp [hs]

theorem getElem?_deal_replicate {n s : Nat} (h : s < n) (token : Nat) (l : List α) :
    (deal (List.replicate n []) token l)[s]? = some (share n s token l) := by
  rw [getElem?_deal, List.getElem?_replicate_of_lt h, List.length_replicate]
  rfl

theorem share_sublist (n s token : Nat) (l : List α) : (share n s token l).Sublist l := by
  induction l generalizing token with
  | nil => exact .slnil
  | cons a l ih =>
    rw [share]
    split_ifs
    · exact (ih (token + 1)).cons_cons a
    · exact (ih (token + 1)).cons a

theorem share_append (n s token : Nat) (l l' : List α) :
    share n s token (l ++ l') = share n s token l ++ share n s (token + l.length) l' := by
  induction l generalizing token with
  | nil => rfl
  | cons a l ih =>
    rw [List.cons_append, share, share, ih, List.length_cons,
      show token + 1 + l.length = token + (l.length + 1) by omega]
    split_ifs
    · rfl
    · rfl

theorem share_eq_nil_iff {n s token : Nat} {l : List α} :
    share n s token l = [] ↔ ∀ j < l.length, (token + j) % n ≠ s := by
  induction l generalizing token with
  | nil => simp [share]
  | cons a l ih =>
    rw [share]
    by_cases hs : token % n = s
    · rw [if_pos hs]
      constructor
      · simp
      · intro h
        exact absurd hs (h 0 (by simp))
    · rw [if_neg hs, ih]
      constructor
      · intro h j hj
        cases j with
        | zero => exact hs
        | succ j =>
          rw [List.length_cons] at hj
          have := h j (by omega)
          rwa [show token + (j + 1) = token + 1 + j by omega]
      · intro h j hj
        have := h (j + 1) (by rw [List.length_cons]; omega)
        rwa [show token + 1 + j = token + (j + 1) by omega]

theorem share_zero_eq_nil_iff {n s : Nat} (hs : s < n) {l : List α} : share n s 0 l = [] ↔ l.length ≤ s := by
  rw [share_eq_nil_iff]
  constructor
  · intro h
    by_contra hlt
    exact h s (by omega) (by rw [Nat.zero_add, Nat.mod_eq_of_lt hs])
  · intro h j hj
    rw [Nat.zero_add, Nat.mod_eq_of_lt (by omega)]
    omega

theorem length_share_le_one {n s token : Nat} {l : List α} (h : l.length ≤ n) : (share n s token l).length ≤ 1 := by
  induction l generalizing token with
  | nil => simp [share]
  | cons a l ih =>
    rw [List.length_cons] at h
    rw [share]
    split_ifs with hs
    · have hrest : share n s (token + 1) l = [] := by
        rw [share_eq_nil_iff]
        intro j hj heq
        have hmod : token ≡ token + 1 + j [MOD n] := by
          rw [Nat.ModEq, hs, heq]
        have hdvd : n ∣ j + 1 := by
          have := (Nat.modEq_iff_dvd' (show token ≤ token + 1 + j by omega)).mp hmod
          rwa [show token + 1 + j - token = j + 1 by omega] at this
        have := Nat.le_of_dvd (Nat.succ_pos j) hdvd
        omega
      simp [hrest]
    · exact ih (by omega)

section

variable [DecidableEq α]

theorem count_share_le_one {n s c token : Nat} {vs : List α} (hvs : vs.Nodup) (hc : c ≤ n) (a : α) :
    (share n s token (vs.flatMap fun v => List.replicate c v)).count a ≤ 1 := by
  induction vs generalizing token with
  | nil => simp [share]
  | cons v vs ih =>
    obtain ⟨hv, hvs⟩ := List.nodup_cons.mp hvs
    rw [List.flatMap_cons, share_append, List.count_append]
    by_cases ha : a = v
    · subst ha
      have hfirst : (share n s token (List.replicate c a)).count a ≤ 1 :=
        List.count_le_length.trans (length_share_le_one (by rwa [List.length_replicate]))
      have hrest : a ∉ share n s (token + (List.replicate c a).length) (vs.flatMap fun v => List.replicate c v) := by
        intro hmem
        obtain ⟨v, hv', hrep⟩ := List.mem_flatMap.mp ((share_sublist _ _ _ _).mem hmem)
        rw [List.eq_of_mem_replicate hrep] at hv
        exact hv hv'
      rw [List.count_eq_zero.mpr hrest]
      exact hfirst
    · have hfirst : a ∉ share n s token (List.replicate c v) := by
        intro hmem
        exact ha (List.eq_of_mem_replicate ((share_sublist _ _ _ _).mem hmem))
      rw [List.count_eq_zero.mpr hfirst, Nat.zero_add]
      exact ih hvs

theorem length_share_le {n s c token : Nat} {vs : List α} (hvs : vs.Nodup) (hc : c ≤ n) :
    (share n s token (vs.flatMap fun v => List.replicate c v)).length ≤ vs.length := by
  have hnodup : (share n s token (vs.flatMap fun v => List.replicate c v)).Nodup :=
    List.nodup_iff_count_le_one.mpr (count_share_le_one hvs hc)
  apply (hnodup.subperm ?_).length_le
  intro a ha
  obtain ⟨v, hv, hrep⟩ := List.mem_flatMap.mp ((share_sublist _ _ _ _).mem ha)
  rwa [List.eq_of_mem_replicate hrep]

theorem sum_count_modify {hands : List (List α)} {i : Nat} (h : i < hands.length) (a b : α) :
    ((hands.modify i fun hand => hand ++ [b]).map fun hand => hand.count a).sum
      = (hands.map fun hand => hand.count a).sum + [b].count a := by
  induction hands generalizing i with
  | nil => simp at h
  | cons hand hands ih =>
    cases i with
    | zero =>
      simp only [List.modify_zero_cons, List.map_cons, List.sum_cons, List.count_append]
      omega
    | succ i =>
      rw [List.length_cons] at h
      simp only [List.modify_succ_cons, List.map_cons, List.sum_cons, ih (show i < hands.length by omega)]
      omega

theorem sum_count_deal {hands : List (List α)} (hne : hands ≠ []) (token : Nat) (l : List α) (a : α) :
    ((deal hands token l).map fun hand => hand.count a).sum
      = (hands.map fun hand => hand.count a).sum + l.count a := by
  induction l generalizing hands token with
  | nil => simp [deal]
  | cons b l ih =>
    have hpos := List.length_pos_of_ne_nil hne
    have hcons : (b :: l).count a = [b].count a + l.count a := by
      rw [← List.count_append, List.singleton_append]
    rw [deal, ih (by simpa [← List.length_pos_iff_ne_nil] using hpos), sum_count_modify (Nat.mod_lt _ hpos), hcons]
    omega

theorem length_holders_deal {n : Nat} (hn : 0 < n) (token : Nat) (l : List α) (a : α) :
    (Incidence.holders 0 (deal (List.replicate n []) token l) a).length = l.count a := by
  have hne : List.replicate n ([] : List α) ≠ [] := by
    simpa using hn.ne'
  rw [Incidence.length_holders, sum_count_deal hne]
  simp

end

end Deal
