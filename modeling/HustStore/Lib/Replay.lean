import Mathlib.Data.Set.Function
import Mathlib.Order.Lattice

/-!
# Replaying requests on a replica

A replica is a map that takes requests: to set a key to a record, which it refuses when the record it holds does
not give way, and to clear a key.
-/

namespace Replay

variable {α β κ : Type*} [DecidableEq α]

inductive Request (α β : Type*)
  | set (a : α) (b : β)
  | clear (a : α)

variable (newer : β → β → Prop) [DecidableRel newer]

def apply (m : α → Option β) : Request α β → α → Option β
  | .set a b => if ∀ old ∈ m a, newer b old then Function.update m a (some b) else m
  | .clear a => Function.update m a none

def replay (m : α → Option β) (rs : List (Request α β)) : α → Option β := rs.foldl (apply newer) m

structure Covers (used : Set α) (m target : α → Option β) (rs : List (Request α β)) : Prop where
  current : ∀ a b, .set a b ∈ rs → target a = some b
  behind : ∀ a b, .set a b ∈ rs → .clear a ∈ rs ∨ ∀ old ∈ m a, newer b old ∨ old = b
  cleared : ∀ a ∈ used, (∀ b, .set a b ∉ rs) → .clear a ∈ rs → target a = none
  kept : ∀ a ∈ used, (∀ b, .set a b ∉ rs) → .clear a ∉ rs → m a = target a

def Ordered (rs : List (Request α β)) : Prop :=
  rs.Pairwise fun r r' => ∀ a b, r = .set a b → r' ≠ .clear a

variable {newer} {used : Set α} {m target : α → Option β} {r : Request α β}
  {rs rest : List (Request α β)} {a : α} {b : β}

theorem apply_clear : apply newer m (.clear a) = Function.update m a none := rfl

theorem apply_set (h : ∀ old ∈ m a, newer b old ∨ old = b) :
    apply newer m (.set a b) = Function.update m a (some b) := by
  rw [apply]
  split_ifs with hnewer
  · rfl
  · rw [not_forall₂] at hnewer
    obtain ⟨old, hold, hrefuse⟩ := hnewer
    obtain rfl := (h old hold).resolve_left hrefuse
    rw [← Option.mem_def.mp hold, Function.update_eq_self]

theorem apply_of_ne (hset : ∀ b, r ≠ .set a b) (hclear : r ≠ .clear a) : apply newer m r a = m a := by
  cases r with
  | clear a' => exact Function.update_of_ne (fun h => hclear (by rw [h])) _ _
  | set a' b =>
    have hne : a ≠ a' := fun h => hset b (by rw [h])
    rw [apply]
    split_ifs
    · exact Function.update_of_ne hne _ _
    · rfl

theorem Covers.tail (h : Covers newer used m target (r :: rest)) (horder : Ordered (r :: rest)) :
    Covers newer used (apply newer m r) target rest := by
  have hafter (a b) (hr : r = .set a b) : .clear a ∉ rest :=
    fun hmem => (List.pairwise_cons.mp horder).1 _ hmem a b hr rfl
  have hset (a b) (hr : r = .set a b) : apply newer m r a = some b := by
    subst hr
    rcases h.behind a b (by simp) with hmem | hold
    · exact absurd (List.mem_of_ne_of_mem (by simp) hmem) (hafter a b rfl)
    · rw [apply_set hold, Function.update_self]
  have hclear (a) (hr : r = .clear a) : apply newer m r a = none := by
    rw [hr, apply_clear, Function.update_self]
  refine ⟨fun a b hmem => h.current a b (List.mem_cons_of_mem _ hmem), fun a b hmem => ?_,
    fun a ha hnone hmem => ?_, fun a ha hnone hmem => ?_⟩
  · by_cases hr : ∃ b', r = .set a b'
    · -- The record is the present one, so the replica has it already.
      obtain ⟨b', hr⟩ := hr
      have htarget := h.current a b' (by simp [hr])
      rw [h.current a b (List.mem_cons_of_mem _ hmem)] at htarget
      right
      intro old hold
      rw [hset a b' hr] at hold
      exact .inr (Option.some.inj (htarget.trans hold)).symm
    · by_cases hr' : r = .clear a
      · right
        intro old hold
        rw [hclear a hr'] at hold
        cases hold
      · rw [apply_of_ne (fun b' hb => hr ⟨b', hb⟩) hr']
        refine (h.behind a b (List.mem_cons_of_mem _ hmem)).imp_left fun hmem => ?_
        exact List.mem_of_ne_of_mem (Ne.symm hr') hmem
  · by_cases hr : ∃ b, r = .set a b
    · obtain ⟨b, hr⟩ := hr
      exact absurd hmem (hafter a b hr)
    · refine h.cleared a ha (fun b hb => ?_) (List.mem_cons_of_mem _ hmem)
      rcases List.mem_cons.mp hb with hb | hb
      · exact hr ⟨b, hb.symm⟩
      · exact hnone b hb
  · by_cases hr : ∃ b, r = .set a b
    · obtain ⟨b, hr⟩ := hr
      rw [hset a b hr, h.current a b (by simp [hr])]
    · have hnone' (b) : .set a b ∉ r :: rest := by
        intro hb
        rcases List.mem_cons.mp hb with hb | hb
        · exact hr ⟨b, hb.symm⟩
        · exact hnone b hb
      by_cases hr' : r = .clear a
      · rw [hclear a hr', h.cleared a ha hnone' (by simp [hr'])]
      · rw [apply_of_ne (fun b hb => hr ⟨b, hb⟩) hr']
        refine h.kept a ha hnone' fun hmem' => ?_
        exact hmem (List.mem_of_ne_of_mem (Ne.symm hr') hmem')

theorem replay_eqOn (h : Covers newer used m target rs) (horder : Ordered rs) :
    Set.EqOn (replay newer m rs) target used := by
  induction rs generalizing m with
  | nil => exact fun a ha => h.kept a ha (by simp) (by simp)
  | cons r rest ih => exact ih (h.tail horder) (List.pairwise_cons.mp horder).2

theorem replay_clear (hrest : ∀ b, .set a b ∉ rest) : replay newer m (rs ++ .clear a :: rest) a = none := by
  have hgone (m' : α → Option β) (hm : m' a = none) : replay newer m' rest a = none := by
    induction rest generalizing m' with
    | nil => exact hm
    | cons r rest ih =>
      refine ih (fun b hb => hrest b (List.mem_cons_of_mem _ hb)) _ ?_
      by_cases hr : r = .clear a
      · rw [hr, apply_clear, Function.update_self]
      · rw [apply_of_ne (fun b hb => hrest b (by simp [hb])) hr, hm]
  rw [replay, List.foldl_append]
  exact hgone _ (by rw [apply_clear, Function.update_self])

/-! ### Requests in the order of their keys -/

variable [LinearOrder κ] {log : List (κ × Request α β)} {setKey clearKey : α → κ}

theorem replay_eqOn_iff (h : Covers newer used m target (log.map Prod.snd))
    (hsorted : log.Pairwise fun x y => x.1 < y.1)
    (hset : ∀ k a b, (k, .set a b) ∈ log → a ∈ used ∧ k = setKey a)
    (hclear : ∀ k a, (k, .clear a) ∈ log → k = clearKey a) :
    Set.EqOn (replay newer m (log.map Prod.snd)) target used ↔
      ∀ a b, (setKey a, .set a b) ∈ log → (clearKey a, .clear a) ∈ log → clearKey a < setKey a := by
  constructor
  · intro heq a b hmem hmem'
    by_contra hnot
    obtain ⟨before, after, rfl⟩ := List.append_of_mem hmem'
    -- What follows the deletion has larger keys, so the key is not set again.
    have hrest (b') : .set a b' ∉ after.map Prod.snd := by
      intro hb'
      obtain ⟨⟨k, r⟩, hk, rfl⟩ := List.mem_map.mp hb'
      have hlt := (List.pairwise_cons.mp (List.pairwise_append.mp hsorted).2.1).1 _ hk
      have hkey := (hset k a b' (by simp [hk])).2
      exact hnot (hkey ▸ hlt)
    have hnone : replay newer m ((before ++ (clearKey a, .clear a) :: after).map Prod.snd) a = none := by
      rw [List.map_append, List.map_cons]
      exact replay_clear hrest
    rw [heq (hset _ a b hmem).1, h.current a b (List.mem_map_of_mem hmem)] at hnone
    cases hnone
  · intro hkeys
    refine replay_eqOn h ?_
    rw [Ordered, List.pairwise_map]
    refine hsorted.imp_of_mem fun {x y} hx hy hlt a b hr hr' => ?_
    obtain ⟨k, r⟩ := x
    obtain ⟨k', r'⟩ := y
    simp only at hr hr' hlt
    subst hr hr'
    obtain rfl := (hset k a b hx).2
    obtain rfl := hclear k' a hy
    exact (hkeys a b hx hy).not_gt hlt

end Replay
