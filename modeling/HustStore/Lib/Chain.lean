import Mathlib.Logic.Function.Basic
import Mathlib.Data.List.Nodup

/-!
# Intrusive chains

A chain links its nodes through a field that each node carries, and ends at a marker that is no node. It is what
a free list looks like when the free cells themselves hold the links.
-/

namespace Intrusive

variable {α : Type}

def Chain (next : α → α) (last : α) : α → List α → Prop
  | head, [] => head = last
  | head, x :: xs => head = x ∧ Chain next last (next x) xs

variable {next next' : α → α} {last head x : α} {xs : List α}

@[simp] theorem chain_nil : Chain next last head [] ↔ head = last := Iff.rfl

@[simp] theorem chain_cons : Chain next last head (x :: xs) ↔ head = x ∧ Chain next last (next x) xs := Iff.rfl

section

variable (h : Chain next last head xs)
include h

theorem Chain.congr (heq : ∀ y ∈ xs, next' y = next y) :
    Chain next' last head xs := by
  induction xs generalizing head with
  | nil => exact h
  | cons y ys ih =>
    obtain ⟨rfl, hrest⟩ := h
    refine ⟨rfl, ?_⟩
    rw [heq head (by simp)]
    exact ih hrest fun z hz => heq z (by simp [hz])

theorem Chain.push (hx : next' x = head) (heq : ∀ y ∈ xs, next' y = next y) : Chain next' last x (x :: xs) :=
  ⟨rfl, by rw [hx]; exact h.congr heq⟩

theorem Chain.exists_cons (hhead : head ≠ last) : ∃ ys, xs = head :: ys ∧ Chain next last (next head) ys := by
  cases xs with
  | nil => exact absurd h hhead
  | cons y ys =>
    obtain ⟨rfl, hrest⟩ := h
    exact ⟨ys, rfl, hrest⟩

theorem Chain.head_mem : head = last ∨ head ∈ xs := by
  cases xs with
  | nil => exact .inl h
  | cons y ys => exact .inr (by simp [h.1])

theorem Chain.next_mem (hx : x ∈ xs) : next x = last ∨ next x ∈ xs := by
  induction xs generalizing head with
  | nil => cases hx
  | cons y ys ih =>
    obtain ⟨rfl, hrest⟩ := h
    rcases List.mem_cons.mp hx with rfl | hx
    · exact hrest.head_mem.imp_right (List.mem_cons_of_mem _)
    · exact (ih hrest hx).imp_right (List.mem_cons_of_mem _)

end

theorem Chain.forall_mem {P : α → Prop} (h : Chain next last head xs) (hhead : P head)
    (hnext : ∀ y, P y → P (next y)) : ∀ y ∈ xs, P y := by
  induction xs generalizing head with
  | nil => simp
  | cons x xs ih =>
    obtain ⟨rfl, hrest⟩ := h
    exact List.forall_mem_cons.2 ⟨hhead, ih hrest (hnext head hhead)⟩

end Intrusive
