import Mathlib.Logic.Function.Basic

/-!
# Partial maps that are written at one key

An entry after a write is the new one or an old one under another key. So a relation between the
entries under different keys survives when the new entry has it with the old ones.
-/

namespace PartialMap

variable {K V : Type*} [DecidableEq K] {m : K → Option V} {k j : K} {o : Option V} {v w : V} {r : V → V → Prop}

theorem update_eq_some_iff : Function.update m k o j = some v ↔ j = k ∧ o = some v ∨ j ≠ k ∧ m j = some v := by
  by_cases h : j = k
  · subst h
    simp
  · simp [h]

theorem update_none_eq_some_iff : Function.update m k none j = some v ↔ j ≠ k ∧ m j = some v := by
  simp [update_eq_some_iff]

def Pairwise (r : V → V → Prop) (m : K → Option V) : Prop :=
  ∀ i j v w, i ≠ j → m i = some v → m j = some w → r v w

theorem Pairwise.update_some (h : Pairwise r m) (hsymm : ∀ v w, r v w → r w v)
    (hnew : ∀ j w, j ≠ k → m j = some w → r v w) : Pairwise r (Function.update m k (some v)) := by
  intro i j a b hij hi hj
  rw [update_eq_some_iff] at hi hj
  rcases hi with ⟨rfl, ha⟩ | ⟨hne, hi⟩
  · cases ha
    rcases hj with ⟨heq, -⟩ | ⟨hne, hj⟩
    · exact absurd heq.symm hij
    · exact hnew j b hne hj
  · rcases hj with ⟨rfl, hb⟩ | ⟨-, hj⟩
    · cases hb
      exact hsymm v a (hnew i a hne hi)
    · exact h i j a b hij hi hj

theorem Pairwise.update_none (h : Pairwise r m) : Pairwise r (Function.update m k none) :=
  fun i j v w hij hi hj => h i j v w hij (update_none_eq_some_iff.mp hi).2 (update_none_eq_some_iff.mp hj).2

end PartialMap
