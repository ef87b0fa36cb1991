import Mathlib.Data.List.TakeWhile
import Mathlib.Tactic.IntervalCases

/-!
# Base64

Three bytes are four numbers of six bits, each written as one character; a group that is not full is filled up
with equals signs.
-/

namespace Base64

def char (n : Nat) : UInt8 :=
  .ofNat (if n < 26 then n + 65 else if n < 52 then n + 71 else if n < 62 then n - 4
    else if n = 62 then 43 else 47)

def value (c : UInt8) : Option Nat :=
  if 65 ≤ c ∧ c ≤ 90 then some (c.toNat - 65)
  else if 97 ≤ c ∧ c ≤ 122 then some (c.toNat - 71)
  else if 48 ≤ c ∧ c ≤ 57 then some (c.toNat + 4)
  else if c = 43 then some 62
  else if c = 47 then some 63
  else none

def encode : List UInt8 → List UInt8
  | [] => []
  | [a] => [char (a.toNat / 4), char (a.toNat % 4 * 16), 61, 61]
  | [a, b] =>
    [char (a.toNat / 4), char (a.toNat % 4 * 16 + b.toNat / 16), char (b.toNat % 16 * 4), 61]
  | a :: b :: c :: rest =>
    char (a.toNat / 4) :: char (a.toNat % 4 * 16 + b.toNat / 16) ::
      char (b.toNat % 16 * 4 + c.toNat / 64) :: char (c.toNat % 64) :: encode rest

def join : List Nat → List UInt8
  | a :: b :: c :: d :: rest =>
    .ofNat (a * 4 + b / 16) :: .ofNat (b * 16 + c / 4) :: .ofNat (c * 64 + d) :: join rest
  | [a, b, c] => [.ofNat (a * 4 + b / 16), .ofNat (b * 16 + c / 4)]
  | [a, b] => [.ofNat (a * 4 + b / 16)]
  | _ => []

def decode (text : List UInt8) : Option (List UInt8) :=
  ((text.takeWhile (· ≠ 61)).mapM value).bind fun numbers =>
    if numbers.length % 4 = 1 then none else some (join numbers)

def sextets : List UInt8 → List Nat
  | [] => []
  | [a] => [a.toNat / 4, a.toNat % 4 * 16]
  | [a, b] => [a.toNat / 4, a.toNat % 4 * 16 + b.toNat / 16, b.toNat % 16 * 4]
  | a :: b :: c :: rest =>
    a.toNat / 4 :: (a.toNat % 4 * 16 + b.toNat / 16) :: (b.toNat % 16 * 4 + c.toNat / 64) ::
      c.toNat % 64 :: sextets rest

def padding (n : Nat) : List UInt8 := if n % 3 = 1 then [61, 61] else if n % 3 = 2 then [61] else []

theorem encode_eq (text : List UInt8) : encode text = (sextets text).map char ++ padding text.length := by
  induction text using encode.induct with
  | case1 => rfl
  | case2 a => rfl
  | case3 a b => rfl
  | case4 a b c rest ih =>
    have hpad : padding (a :: b :: c :: rest).length = padding rest.length := by
      have hmod : (a :: b :: c :: rest).length % 3 = rest.length % 3 := by
        simp only [List.length_cons]
        omega
      simp only [padding, hmod]
    rw [encode, ih, hpad]
    rfl

theorem length_encode (text : List UInt8) : (encode text).length = (text.length + 2) / 3 * 4 := by
  induction text using encode.induct with
  | case1 => rfl
  | case2 a => simp [encode]
  | case3 a b => simp [encode]
  | case4 a b c rest ih =>
    simp only [encode, List.length_cons, ih]
    omega

theorem sextets_lt (text : List UInt8) : ∀ n ∈ sextets text, n < 64 := by
  have hbyte (a : UInt8) : a.toNat < 256 := a.toNat_lt
  induction text using sextets.induct with
  | case1 => simp [sextets]
  | case2 a =>
    have ha := hbyte a
    simp only [sextets, List.forall_mem_cons, List.not_mem_nil, false_imp_iff, implies_true, and_true]
    omega
  | case3 a b =>
    have ha := hbyte a
    have hb := hbyte b
    simp only [sextets, List.forall_mem_cons, List.not_mem_nil, false_imp_iff, implies_true, and_true]
    omega
  | case4 a b c rest ih =>
    have ha := hbyte a
    have hb := hbyte b
    have hc := hbyte c
    simp only [sextets, List.forall_mem_cons]
    exact ⟨by omega, by omega, by omega, by omega, ih⟩

theorem length_sextets_mod (text : List UInt8) : (sextets text).length % 4 ≠ 1 := by
  induction text using sextets.induct with
  | case1 => decide
  | case2 a => simp [sextets]
  | case3 a b => simp [sextets]
  | case4 a b c rest ih =>
    simp only [sextets, List.length_cons]
    omega

theorem ofNat_eq {n : Nat} {a : UInt8} (h : n % 256 = a.toNat) : UInt8.ofNat n = a := by
  apply UInt8.toNat_inj.mp
  rw [UInt8.toNat_ofNat']
  exact h

theorem join_sextets (text : List UInt8) : join (sextets text) = text := by
  have hbyte (a : UInt8) : a.toNat < 256 := a.toNat_lt
  induction text using sextets.induct with
  | case1 => rfl
  | case2 a =>
    have ha := hbyte a
    simp only [sextets, join]
    rw [ofNat_eq (a := a) (by omega)]
  | case3 a b =>
    have ha := hbyte a
    have hb := hbyte b
    simp only [sextets, join]
    rw [ofNat_eq (a := a) (by omega), ofNat_eq (a := b) (by omega)]
  | case4 a b c rest ih =>
    have ha := hbyte a
    have hb := hbyte b
    have hc := hbyte c
    simp only [sextets, join]
    rw [ofNat_eq (a := a) (by omega), ofNat_eq (a := b) (by omega), ofNat_eq (a := c) (by omega), ih]

theorem value_char {n : Nat} (h : n < 64) : value (char n) = some n := by
  interval_cases n <;> decide

theorem char_ne {n : Nat} (h : n < 64) : char n ≠ 61 := by
  interval_cases n <;> decide

theorem mapM_value {numbers : List Nat} (h : ∀ n ∈ numbers, n < 64) :
    (numbers.map char).mapM value = some numbers := by
  induction numbers with
  | nil => rfl
  | cons n numbers ih =>
    obtain ⟨hn, hnumbers⟩ := List.forall_mem_cons.mp h
    rw [List.map_cons, List.mapM_cons, value_char hn, ih hnumbers]
    rfl

theorem decode_encode (text : List UInt8) : decode (encode text) = some text := by
  have hlt := sextets_lt text
  have htake : (encode text).takeWhile (· ≠ 61) = (sextets text).map char := by
    rw [encode_eq, List.takeWhile_append_of_pos]
    · have hpad : (padding text.length).takeWhile (· ≠ 61) = [] := by
        rw [padding]
        split
        · rfl
        · split <;> rfl
      rw [hpad, List.append_nil]
    · intro c hc
      obtain ⟨n, hn, rfl⟩ := List.mem_map.mp hc
      exact decide_eq_true (char_ne (hlt n hn))
  rw [decode, htake, mapM_value hlt, Option.bind_some, if_neg (length_sextets_mod text), join_sextets]

end Base64
