import Mathlib.Algebra.Order.BigOperators.Group.List
import Mathlib.Algebra.Ring.Int.Defs

/-!
# Threads over a shared state

Every thread runs a sequence of sections, each of which reads and writes the shared state at once. An
interleaving is the order in which the sections run: in each step a thread is started, or one thread runs its
next section.
-/

namespace Threads

structure Pool (σ τ : Type*) where
  shared : σ
  threads : List τ

namespace Pool

variable {σ τ : Type*} {p : Pool σ τ} {i j : Nat} {t u : τ} {f : σ → τ → σ × τ}

def spawn (p : Pool σ τ) (t : τ) : Pool σ τ := { p with threads := p.threads ++ [t] }

def run (p : Pool σ τ) (f : σ → τ → σ × τ) (i : Nat) : Pool σ τ :=
  match p.threads[i]? with
  | none => p
  | some t => ⟨(f p.shared t).1, p.threads.set i (f p.shared t).2⟩

def At (p : Pool σ τ) (i : Nat) (t : τ) : Prop := p.threads[i]? = some t

theorem At.unique (h : p.At i t) (h' : p.At i u) : t = u := Option.some.inj (h.symm.trans h')

theorem At.lt (h : p.At i t) : i < p.threads.length := (List.getElem?_eq_some_iff.mp h).1

theorem run_of_at (h : p.At i t) : p.run f i = ⟨(f p.shared t).1, p.threads.set i (f p.shared t).2⟩ := by
  rw [run, show p.threads[i]? = some t from h]

theorem shared_run (h : p.At i t) : (p.run f i).shared = (f p.shared t).1 := by rw [run_of_at h]

theorem at_spawn : (p.spawn t).At j u ↔ p.At j u ∨ j = p.threads.length ∧ u = t := by
  unfold At spawn
  rcases Nat.lt_trichotomy j p.threads.length with hlt | rfl | hgt
  · simp [List.getElem?_append_left hlt, Nat.ne_of_lt hlt]
  · simp [eq_comm]
  · have hnone : (p.threads ++ [t])[j]? = none := by
      rw [List.getElem?_eq_none_iff, List.length_append, List.length_singleton]
      exact hgt
    simp [hnone, Nat.le_of_lt hgt, Nat.ne_of_gt hgt]

theorem at_run (h : p.At i t) : (p.run f i).At j u ↔ j = i ∧ u = (f p.shared t).2 ∨ j ≠ i ∧ p.At j u := by
  rw [run_of_at h]
  by_cases hji : j = i
  · subst hji
    simp [At, List.getElem?_set_self h.lt, eq_comm]
  · simp [At, List.getElem?_set_ne (Ne.symm hji), hji]

theorem forall_run {P Q : τ → Prop} (h : p.At i t) (hall : ∀ j u, p.At j u → P u)
    (hself : Q (f p.shared t).2) (hothers : ∀ j u, j ≠ i → p.At j u → P u → Q u) :
    ∀ j u, (p.run f i).At j u → Q u := by
  intro j u hu
  rcases (at_run h).mp hu with ⟨-, rfl⟩ | ⟨hne, hu⟩
  · exact hself
  · exact hothers j u hne hu (hall j u hu)

def total (p : Pool σ τ) (g : τ → ℤ) : ℤ := (p.threads.map g).sum

theorem total_spawn (g : τ → ℤ) : (p.spawn t).total g = p.total g + g t := by
  simp [total, spawn]

theorem total_run (h : p.At i t) (g : τ → ℤ) : (p.run f i).total g = p.total g - g t + g (f p.shared t).2 := by
  have hi : i < (p.threads.map g).length := by simpa using h.lt
  have hold : (p.threads.map g)[i] = g t := by
    rw [List.getElem_map]
    exact congrArg g (List.getElem?_eq_some_iff.mp h).2
  rw [run_of_at h, total, total, List.map_set, List.sum_set', dif_pos hi, hold]
  omega

theorem total_add (g g' : τ → ℤ) : p.total (fun t => g t + g' t) = p.total g + p.total g' :=
  List.sum_map_add

theorem total_sub (g g' : τ → ℤ) : p.total (fun t => g t - g' t) = p.total g - p.total g' := by
  rw [eq_sub_iff_add_eq, ← total_add]
  exact congrArg p.total (funext fun t => sub_add_cancel _ _)

variable {g : τ → ℤ}

theorem total_nonneg (h : ∀ t, 0 ≤ g t) : 0 ≤ p.total g := by
  refine List.sum_nonneg fun z hz => ?_
  obtain ⟨t, -, rfl⟩ := List.mem_map.mp hz
  exact h t

theorem total_eq_of_at (h : p.At i t) (hothers : ∀ j u, j ≠ i → p.At j u → g u = 0) : p.total g = g t := by
  have hi : i < (p.threads.map g).length := by simpa using h.lt
  have hold : (p.threads.map g)[i] = g t := by
    rw [List.getElem_map]
    exact congrArg g (List.getElem?_eq_some_iff.mp h).2
  -- Without the contribution of the thread nothing is left.
  have hzero : ((p.threads.map g).set i 0).sum = 0 := by
    refine List.sum_eq_zero fun z hz => ?_
    obtain ⟨j, hj⟩ := List.mem_iff_getElem?.mp hz
    by_cases hji : j = i
    · subst hji
      rw [List.getElem?_set_self hi] at hj
      exact (Option.some.inj hj).symm
    · rw [List.getElem?_set_ne (Ne.symm hji), List.getElem?_map] at hj
      obtain ⟨u, hu, rfl⟩ := Option.map_eq_some_iff.mp hj
      exact hothers j u hji hu
  rw [List.sum_set', dif_pos hi, hold] at hzero
  rw [total]
  omega

theorem total_eq_zero (h : ∀ j u, p.At j u → g u = 0) : p.total g = 0 := by
  refine List.sum_eq_zero fun z hz => ?_
  obtain ⟨u, hu, rfl⟩ := List.mem_map.mp hz
  obtain ⟨j, hj⟩ := List.mem_iff_getElem?.mp hu
  exact h j u hj

end Pool

end Threads
