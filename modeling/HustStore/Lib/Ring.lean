import Mathlib.Data.List.Nodup

/-!
# Windows on a ring

The places of a ring are the numbers below `n`, and the place after the last one is the first one. Two places
`a` and `b` cut out the window `(a, b]`: what is met when one walks from `a` to `b`.
-/

namespace Ring

variable {n a b t k : Nat}

def next (n a : Nat) : Nat := (a + 1) % n

def dist (n a b : Nat) : Nat := (b + n - a) % n

def places (n a : Nat) : Nat → List Nat
  | 0 => []
  | k + 1 => next n a :: places n (next n a) k

def window (n a b : Nat) : List Nat := places n a (dist n a b)

def Mem (n a b t : Nat) : Prop := 0 < dist n a t ∧ dist n a t ≤ dist n a b

instance : Decidable (Mem n a b t) := inferInstanceAs (Decidable (_ ∧ _))

/-! ### Arithmetic without remainders -/

theorem next_eq (ha : a < n) : next n a = if a + 1 < n then a + 1 else 0 := by
  unfold next
  split
  · rename_i hlt
    exact Nat.mod_eq_of_lt hlt
  · rename_i hge
    have hn : a + 1 = n := by omega
    rw [hn, Nat.mod_self]

theorem dist_eq (ha : a < n) (hb : b < n) : dist n a b = if a ≤ b then b - a else n - a + b := by
  unfold dist
  split
  · rename_i hle
    have hsplit : b + n - a = b - a + n := by omega
    rw [hsplit, Nat.add_mod_right, Nat.mod_eq_of_lt (by omega)]
  · rename_i hgt
    rw [Nat.mod_eq_of_lt (by omega)]
    omega

theorem next_lt (ha : a < n) : next n a < n := Nat.mod_lt _ (by omega)

theorem dist_lt (ha : a < n) : dist n a b < n := Nat.mod_lt _ (by omega)

theorem dist_self (ha : a < n) : dist n a a = 0 := by
  rw [dist_eq ha ha, if_pos (Nat.le_refl a), Nat.sub_self]

theorem dist_next (ha : a < n) (hb : b < n) (h : dist n a b + 1 < n) : dist n a (next n b) = dist n a b + 1 := by
  rw [dist_eq ha hb] at h
  rw [dist_eq ha (next_lt hb), dist_eq ha hb, next_eq hb]
  split_ifs at h ⊢ <;> omega

theorem dist_from_next (ha : a < n) (hb : b < n) (h : 0 < dist n a b) : dist n a b = dist n (next n a) b + 1 := by
  rw [dist_eq ha hb] at h
  rw [dist_eq (next_lt ha) hb, dist_eq ha hb, next_eq ha]
  split_ifs at h ⊢ <;> omega

/-! ### Windows as lists -/

@[simp] theorem length_places : (places n a k).length = k := by
  induction k generalizing a with
  | zero => rfl
  | succ k ih => rw [places, List.length_cons, ih]

@[simp] theorem length_window : (window n a b).length = dist n a b := length_places

theorem window_self (ha : a < n) : window n a a = [] := by
  rw [window, dist_self ha, places]

theorem window_pop (ha : a < n) (hb : b < n) (h : 0 < dist n a b) :
    window n a b = next n a :: window n (next n a) b := by
  rw [window, dist_from_next ha hb h, places, window]

theorem window_push (ha : a < n) (hb : b < n) (h : dist n a b + 1 < n) :
    window n a (next n b) = window n a b ++ [next n b] := by
  induction hk : dist n a b generalizing a with
  | zero =>
    have heq : b = a := by
      rw [dist_eq ha hb] at hk
      split_ifs at hk <;> omega
    subst heq
    rw [window, window, dist_next ha ha h, hk]
    rfl
  | succ k ih =>
    have hpos : 0 < dist n a b := by omega
    have hstep := dist_from_next ha hb hpos
    have hlast := dist_next ha hb h
    rw [window_pop ha hb hpos, window_pop ha (next_lt hb) (by omega),
      ih (next_lt ha) (by omega) (by omega), List.cons_append]

theorem mem_places (ha : a < n) (hk : k < n) : t ∈ places n a k ↔ t < n ∧ 0 < dist n a t ∧ dist n a t ≤ k := by
  induction k generalizing a with
  | zero =>
    simp only [places, List.not_mem_nil, false_iff]
    omega
  | succ k ih =>
    rw [places, List.mem_cons, ih (next_lt ha) (by omega)]
    by_cases ht : t < n
    · have hnext := next_eq ha
      rw [dist_eq ha ht, dist_eq (next_lt ha) ht]
      split_ifs at hnext ⊢ <;> omega
    · have hne : t ≠ next n a := by
        have := next_lt ha
        omega
      simp only [hne, ht, false_and, or_self]

theorem mem_window (ha : a < n) (ht : t < n) : t ∈ window n a b ↔ Mem n a b t := by
  rw [window, mem_places ha (dist_lt ha), Mem]
  simp only [ht, true_and]

theorem lt_of_mem_window (ha : a < n) (ht : t ∈ window n a b) : t < n :=
  ((mem_places ha (dist_lt ha)).mp ht).1

theorem places_eq_range (n b k : Nat) : places n (b % n) k = (List.range' (b + 1) k).map (· % n) := by
  induction k generalizing b with
  | zero => rfl
  | succ k ih =>
    have hnext : next n (b % n) = (b + 1) % n := by rw [next, Nat.mod_add_mod]
    rw [places, hnext, ih, List.range'_succ, List.map_cons]

theorem nodup_places (ha : a < n) (hk : k < n) : (places n a k).Nodup := by
  induction k generalizing a with
  | zero => exact List.nodup_nil
  | succ k ih =>
    rw [places, List.nodup_cons, mem_places (next_lt ha) (by omega), dist_self (next_lt ha)]
    exact ⟨by omega, ih (next_lt ha) (by omega)⟩

theorem nodup_window (ha : a < n) : (window n a b).Nodup := nodup_places ha (dist_lt ha)

end Ring
