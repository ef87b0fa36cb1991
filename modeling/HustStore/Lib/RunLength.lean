import Mathlib.Data.List.Chain

/-!
# Where the runs of a list start

A list with long runs of one value is written down as the places where a value differs from the one
before it, each with its new value.
-/

namespace RunLength

variable {α : Type*} [DecidableEq α]

def starts (last : α) : Nat → List α → List (Nat × α)
  | _, [] => []
  | i, a :: l => if a ≠ last then (i, a) :: starts a (i + 1) l else starts last (i + 1) l

theorem le_of_mem_starts {last : α} {i : Nat} {l : List α} {e : Nat × α} (h : e ∈ starts last i l) :
    i ≤ e.1 ∧ e.1 < i + l.length ∧ e.2 ∈ l := by
  induction l generalizing last i with
  | nil => simp [starts] at h
  | cons a l ih =>
    have hnext : ∀ last', e ∈ starts last' (i + 1) l → i ≤ e.1 ∧ e.1 < i + (a :: l).length ∧ e.2 ∈ a :: l := by
      intro last' he
      obtain ⟨hle, hlt, hmem⟩ := ih he
      refine ⟨by omega, ?_, List.mem_cons_of_mem _ hmem⟩
      rw [List.length_cons]
      omega
    rw [starts] at h
    split_ifs at h
    · rcases List.mem_cons.mp h with rfl | h
      · exact ⟨Nat.le_refl i, by simp, List.mem_cons_self⟩
      · exact hnext _ h
    · exact hnext _ h

theorem lookup_starts_of_lt {last : α} {i k : Nat} (l : List α) (h : k < i) : (starts last i l).lookup k = none := by
  rw [List.lookup_eq_none_iff]
  intro e he
  have := (le_of_mem_starts he).1
  simp only [bne_iff_ne, ne_eq]
  omega

theorem starts_replicate (a : α) (i r : Nat) : starts a i (List.replicate r a) = [] := by
  induction r generalizing i with
  | zero => rfl
  | succ r ih =>
    rw [List.replicate_succ, starts, if_neg (by simp)]
    exact ih (i + 1)

theorem starts_replicate_append (a : α) (i r : Nat) (l : List α) :
    starts a i (List.replicate r a ++ l) = starts a (i + r) l := by
  induction r generalizing i with
  | zero => simp
  | succ r ih =>
    rw [List.replicate_succ, List.cons_append, starts, if_neg (by simp), ih]
    congr 1
    omega

theorem length_starts_blocks {last : α} {vs : List α} (h : (last :: vs).IsChain (· ≠ ·)) (i q r : Nat) :
    (starts last i ((vs.flatMap fun v => List.replicate (q + 1) v)
      ++ List.replicate r ((last :: vs).getLast (List.cons_ne_nil _ _)))).length = vs.length := by
  induction vs generalizing last i with
  | nil => simp [starts_replicate]
  | cons v vs ih =>
    obtain ⟨hne, hrest⟩ := List.isChain_cons_cons.mp h
    rw [List.flatMap_cons, List.replicate_succ, List.cons_append, List.cons_append, starts,
      if_pos (Ne.symm hne), List.append_assoc, starts_replicate_append, List.length_cons,
      List.length_cons, List.getLast_cons (List.cons_ne_nil v vs), ih hrest]

end RunLength
