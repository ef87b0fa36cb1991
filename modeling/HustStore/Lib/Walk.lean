import Mathlib.Data.List.Lex
import Mathlib.Data.List.Pairwise
import Mathlib.Data.List.TakeWhile
import Mathlib.Order.Lattice

/-!
# Walks over ordered keys

An iterator over keys in increasing order is moved to a place and goes on while the keys begin with a given
word, a page at a time. What it passes is what begins with the word: the keys that do stand together.
-/

namespace Walk

/-! ### Pages -/

section Pages

variable {α β : Type*}

def page (l : List α) (size i : Nat) : List α := (l.take (i * size + size)).drop (i * size)

theorem flatMap_page (l : List α) (size n : Nat) : (List.range n).flatMap (page l size) = l.take (n * size) := by
  induction n with
  | zero => simp
  | succ n ih =>
    rw [List.range_succ, List.flatMap_append, ih, List.flatMap_singleton, page, Nat.succ_mul]
    have htake : l.take (n * size) = (l.take (n * size + size)).take (n * size) := by
      rw [List.take_take, Nat.min_eq_left (Nat.le_add_right _ _)]
    rw [htake, List.take_append_drop]

def Initial (p : α → Bool) (l : List α) : Prop := l.Pairwise fun a b => p b → p a

theorem Initial.sublist {p : α → Bool} {l l' : List α} (h : Initial p l) (hsub : l'.Sublist l) :
    Initial p l' := List.Pairwise.sublist hsub h

theorem Initial.takeWhile_eq_filter {p : α → Bool} {l : List α} (h : Initial p l) : l.takeWhile p = l.filter p := by
  induction l with
  | nil => rfl
  | cons a l ih =>
    obtain ⟨hhead, htail⟩ := List.pairwise_cons.mp h
    by_cases ha : p a
    · rw [List.takeWhile_cons_of_pos ha, List.filter_cons_of_pos ha, ih htail]
    · have hnone : ∀ b ∈ l, ¬p b := fun b hb hpb => ha (hhead b hb hpb)
      rw [List.takeWhile_cons_of_neg ha, List.filter_cons_of_neg ha, List.filter_eq_nil_iff.mpr hnone]

theorem flatMap_takeWhile_page {p : α → Bool} {l : List α} (h : Initial p l) (f : α → Option β)
    (size n : Nat) (hn : l.length ≤ n * size) :
    ((List.range n).flatMap fun i => ((page l size i).takeWhile p).filterMap f) = (l.filter p).filterMap f := by
  have hpage (i : Nat) : (page l size i).takeWhile p = (page l size i).filter p := by
    apply Initial.takeWhile_eq_filter
    exact h.sublist ((List.drop_sublist _ _).trans (List.take_sublist _ _))
  calc
    ((List.range n).flatMap fun i => ((page l size i).takeWhile p).filterMap f)
      = (((List.range n).flatMap (page l size)).filter p).filterMap f := by
        simp only [hpage, List.filter_flatMap, List.filterMap_flatMap]
    _ = (l.filter p).filterMap f := by rw [flatMap_page, List.take_of_length_le hn]

theorem nodup_filterMap_iff {l : List α} (hl : l.Nodup) (g : α → Option β) : (l.filterMap g).Nodup ↔
      ∀ x ∈ l, ∀ y ∈ l, ∀ b, g x = some b → g y = some b → x = y := by
  rw [List.Nodup, List.pairwise_filterMap]
  constructor
  · intro hpair x hx y hy b hxb hyb
    by_contra hne
    have hsymm : Std.Symm fun x y : α => ∀ b, g x = some b → ∀ b', g y = some b' → b ≠ b' :=
      ⟨fun x y hxy b hb b' hb' heq => hxy b' hb' b hb heq.symm⟩
    exact hpair.forall hx hy hne b hxb b hyb rfl
  · intro hinj
    refine hl.imp_of_mem ?_
    rintro x y hx hy hne b hb b' hb' rfl
    exact hne (hinj x hx y hy b hb hb')

end Pages

/-! ### Words -/

section Words

variable {α : Type*} [LinearOrder α]

theorem not_lt_of_isPrefix {t a : List α} (h : t <+: a) : ¬a < t := by
  obtain ⟨rest, rfl⟩ := h
  induction t with
  | nil => exact List.not_lt_nil _
  | cons x t ih =>
    intro hlt
    rcases List.cons_lt_cons_iff.mp hlt with hx | ⟨-, htail⟩
    · exact lt_irrefl x hx
    · exact ih htail

theorem isPrefix_of_between {t a b : List α} (hta : ¬a < t) (hab : ¬b < a) (h : t <+: b) : t <+: a := by
  induction t generalizing a b with
  | nil => exact List.nil_prefix
  | cons x t ih =>
    obtain ⟨rest, rfl⟩ := h
    cases a with
    | nil => exact absurd (List.nil_lt_cons x t) hta
    | cons y a =>
      have hyx : ¬y < x := fun hlt => hta (List.cons_lt_cons_iff.mpr (.inl hlt))
      have hxy : ¬x < y := fun hlt => hab (List.cons_lt_cons_iff.mpr (.inl hlt))
      have heq : x = y := le_antisymm (not_lt.mp hyx) (not_lt.mp hxy)
      subst heq
      rw [List.cons_prefix_cons]
      refine ⟨rfl, ih ?_ ?_ (List.prefix_append t rest)⟩
      · exact fun hlt => hta (List.cons_lt_cons_iff.mpr (.inr ⟨rfl, hlt⟩))
      · exact fun hlt => hab (List.cons_lt_cons_iff.mpr (.inr ⟨rfl, hlt⟩))

theorem append_lt_append_iff {a b x y : List α} (h : a.length = b.length) :
    a ++ x < b ++ y ↔ a < b ∨ a = b ∧ x < y := by
  induction a generalizing b with
  | nil =>
    obtain rfl : b = [] := List.length_eq_zero_iff.mp h.symm
    simp
  | cons c a ih =>
    cases b with
    | nil => simp at h
    | cons d b =>
      rw [List.cons_append, List.cons_append, List.cons_lt_cons_iff, List.cons_lt_cons_iff,
        ih (by simpa using h), List.cons.injEq]
      tauto

theorem eq_replicate_of_lt {a : List α} {c : α} (hc : ∀ d, ¬d < c) {n : Nat}
    (h : a < List.replicate n c) : ∀ d ∈ a, d = c := by
  induction n generalizing a with
  | zero => exact absurd h (List.not_lt_nil _)
  | succ n ih =>
    cases a with
    | nil => simp
    | cons d a =>
      rw [List.replicate_succ, List.cons_lt_cons_iff] at h
      obtain hlt | ⟨rfl, hlt⟩ := h
      · exact absurd hlt (hc d)
      · simpa using ih hlt

def seek (t : List α) (l : List (List α)) : List (List α) := l.dropWhile (· < t)

variable {l : List (List α)}

theorem seek_eq_filter (h : l.Pairwise (· < ·)) (t : List α) : seek t l = l.filter (¬· < t) := by
  induction l with
  | nil => rfl
  | cons a l ih =>
    obtain ⟨hhead, htail⟩ := List.pairwise_cons.mp h
    unfold seek at ih ⊢
    by_cases ha : a < t
    · rw [List.dropWhile_cons_of_pos (by simpa using ha), ih htail, List.filter_cons_of_neg (by simpa using ha)]
    · have hall : ∀ b ∈ a :: l, ¬b < t := by
        intro b hb hlt
        rcases List.mem_cons.mp hb with rfl | hb
        · exact ha hlt
        · exact ha (lt_trans (hhead b hb) hlt)
      rw [List.dropWhile_cons_of_neg (by simpa using ha)]
      exact (List.filter_eq_self.mpr fun b hb => decide_eq_true (hall b hb)).symm

variable [BEq α] [LawfulBEq α]

theorem initial_seek (h : l.Pairwise (· < ·)) (t : List α) : Initial (fun key => t.isPrefixOf key) (seek t l) := by
  have hfrom : ∀ a ∈ seek t l, ¬a < t := by
    intro a ha
    rw [seek_eq_filter h, List.mem_filter] at ha
    exact of_decide_eq_true ha.2
  have hsorted : (seek t l).Pairwise (· < ·) := h.sublist (List.dropWhile_sublist _)
  refine List.Pairwise.imp_of_mem ?_ hsorted
  intro a b ha _ hab hb
  rw [List.isPrefixOf_iff_prefix] at hb ⊢
  exact isPrefix_of_between (hfrom a ha) (lt_asymm hab) hb

theorem filter_seek (h : l.Pairwise (· < ·)) (t : List α) :
    (seek t l).filter (fun key => t.isPrefixOf key) = l.filter fun key => t.isPrefixOf key := by
  rw [seek_eq_filter h, List.filter_filter]
  apply List.filter_congr
  intro a _
  rw [Bool.and_eq_left_iff_imp]
  intro ha
  exact decide_eq_true (not_lt_of_isPrefix (List.isPrefixOf_iff_prefix.mp ha))

end Words

end Walk
