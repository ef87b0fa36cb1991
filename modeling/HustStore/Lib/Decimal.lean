import Mathlib.Data.List.Lex
import Mathlib.Data.List.TakeWhile
import Mathlib.Tactic.Ring

/-!
# Decimal text

Integers as ASCII text: digits of a fixed width, the shortest text, and the C library's `strtoll`.
-/

namespace Decimal

def digit (d : Nat) : UInt8 := .ofNat (48 + d)

def isDigit (b : UInt8) : Bool := 48 ≤ b.toNat && b.toNat ≤ 57

def isSpace (b : UInt8) : Bool := b.toNat = 32 || (9 ≤ b.toNat && b.toNat ≤ 13)

def pad : Nat → Nat → List UInt8
  | 0, _ => []
  | w + 1, n => pad w (n / 10) ++ [digit (n % 10)]

def ofDigits (ds : List UInt8) : Nat := ds.foldl (fun n b => n * 10 + (b.toNat - 48)) 0

def digits (w n : Nat) : List UInt8 :=
  if n = 0 then [digit 0] else (pad w n).dropWhile (· = digit 0)

def print (w : Nat) (z : Int) : List UInt8 :=
  if z < 0 then 45 :: digits w z.natAbs else digits w z.natAbs

def printField (w : Nat) (z : Int) : List UInt8 :=
  if z < 0 then 45 :: pad w z.natAbs else pad (w + 1) z.natAbs

def sign : List UInt8 → Bool × List UInt8
  | 45 :: rest => (true, rest)
  | 43 :: rest => (false, rest)
  | s => (false, s)

def strtoll (s : List UInt8) : Option (Int × List UInt8) :=
  let (neg, rest) := sign (s.dropWhile isSpace)
  let ds := rest.takeWhile isDigit
  let z : Int := if neg then -ofDigits ds else ofDigits ds
  if ds = [] ∨ z < -2 ^ 63 ∨ 2 ^ 63 ≤ z then none else some (z, rest.dropWhile isDigit)

/-! ### Reading back -/

theorem toNat_digit {d : Nat} (h : d < 10) : (digit d).toNat = 48 + d := by
  rw [digit, UInt8.toNat_ofNat']
  omega

theorem isDigit_digit {d : Nat} (h : d < 10) : isDigit (digit d) := by
  simp [isDigit, toNat_digit h]
  omega

@[simp] theorem length_pad (w n : Nat) : (pad w n).length = w := by
  induction w generalizing n with
  | zero => rfl
  | succ w ih => simp [pad, ih]

variable {w n : Nat}

theorem isDigit_of_mem_pad {b : UInt8} (h : b ∈ pad w n) : isDigit b := by
  induction w generalizing n with
  | zero => simp [pad] at h
  | succ w ih =>
    rcases List.mem_append.mp h with h | h
    · exact ih h
    · rw [List.mem_singleton.mp h]
      exact isDigit_digit (Nat.mod_lt _ (by decide))

theorem ofDigits_append (ds : List UInt8) (b : UInt8) : ofDigits (ds ++ [b]) = ofDigits ds * 10 + (b.toNat - 48) := by
  simp [ofDigits]

theorem ofDigits_pad (w n : Nat) : ofDigits (pad w n) = n % 10 ^ w := by
  induction w generalizing n with
  | zero => simp [pad, ofDigits, Nat.mod_one]
  | succ w ih =>
    have hlast : n % 10 < 10 := Nat.mod_lt _ (by decide)
    rw [pad, ofDigits_append, ih, toNat_digit hlast, pow_succ', Nat.mod_mul]
    omega

theorem ofDigits_dropWhile (ds : List UInt8) : ofDigits (ds.dropWhile (· = digit 0)) = ofDigits ds := by
  induction ds with
  | nil => rfl
  | cons b ds ih =>
    by_cases hb : b = digit 0
    · subst hb
      rw [List.dropWhile_cons_of_pos (by simp), ih]
      simp [ofDigits, toNat_digit]
    · rw [List.dropWhile_cons_of_neg (by simpa using hb)]

theorem isDigit_of_mem_digits {b : UInt8} (h : b ∈ digits w n) : isDigit b := by
  unfold digits at h
  split_ifs at h
  · rw [List.mem_singleton.mp h]
    exact isDigit_digit (by decide)
  · exact isDigit_of_mem_pad ((List.dropWhile_suffix _).mem h)

theorem ofDigits_digits (h : n < 10 ^ w) : ofDigits (digits w n) = n := by
  unfold digits
  split_ifs with hn
  · rw [hn]
    rfl
  · rw [ofDigits_dropWhile, ofDigits_pad, Nat.mod_eq_of_lt h]

theorem digits_ne_nil (h : n < 10 ^ w) : digits w n ≠ [] := by
  intro hnil
  have hvalue := ofDigits_digits h
  rw [hnil] at hvalue
  have hzero : n = 0 := hvalue.symm
  simp [digits, hzero] at hnil

theorem not_isSpace_of_isDigit {b : UInt8} (h : isDigit b) : isSpace b = false := by
  simp only [isDigit, Bool.and_eq_true, decide_eq_true_eq] at h
  simp only [isSpace, Bool.or_eq_false_iff, decide_eq_false_iff_not, Bool.and_eq_false_iff]
  omega

theorem sign_print {w : Nat} (z : Int) (h : z.natAbs < 10 ^ w) :
    sign ((print w z).dropWhile isSpace) = (decide (z < 0), digits w z.natAbs) := by
  unfold print
  split_ifs with hz
  · rw [List.dropWhile_cons_of_neg (by decide)]
    simp [sign, hz]
  · obtain ⟨b, ds, hds⟩ := List.exists_cons_of_ne_nil (digits_ne_nil h)
    have hb : isDigit b := isDigit_of_mem_digits (by rw [hds]; exact List.mem_cons_self)
    rw [hds, List.dropWhile_cons_of_neg (by simp [not_isSpace_of_isDigit hb])]
    have hsign : ∀ c : UInt8, isDigit c → c ≠ 45 ∧ c ≠ 43 := by
      intro c hc
      constructor <;> (intro heq; subst heq; exact absurd hc (by decide))
    obtain ⟨h45, h43⟩ := hsign b hb
    unfold sign
    split
    · rename_i heq
      exact absurd (List.cons.inj heq).1 h45
    · rename_i heq
      exact absurd (List.cons.inj heq).1 h43
    · simp [hz]

theorem strtoll_print {w : Nat} {z : Int} (h : z.natAbs < 10 ^ w) (hlo : -2 ^ 63 ≤ z)
    (hhi : z < 2 ^ 63) : strtoll (print w z) = some (z, []) := by
  have hall : ∀ b ∈ digits w z.natAbs, isDigit b := fun b hb => isDigit_of_mem_digits hb
  unfold strtoll
  rw [sign_print z h]
  simp only [List.takeWhile_eq_self_iff.mpr hall, List.dropWhile_eq_nil_iff.mpr hall,
    ofDigits_digits h, decide_eq_true_eq]
  have hz : (if z < 0 then -(z.natAbs : Int) else (z.natAbs : Int)) = z := by omega
  rw [hz, if_neg]
  rintro (hnil | hrange | hrange)
  · exact digits_ne_nil h hnil
  · omega
  · omega

theorem strtoll_of_isDigit {ds : List UInt8} (hne : ds ≠ []) (hall : ∀ b ∈ ds, isDigit b)
    (hrange : ofDigits ds < 2 ^ 63) : strtoll ds = some ((ofDigits ds : Int), []) := by
  obtain ⟨b, rest, rfl⟩ := List.exists_cons_of_ne_nil hne
  have hb : isDigit b := hall b List.mem_cons_self
  have hsign : sign ((b :: rest).dropWhile isSpace) = (false, b :: rest) := by
    rw [List.dropWhile_cons_of_neg (by simp [not_isSpace_of_isDigit hb])]
    unfold sign
    split
    · rename_i heq
      exact absurd (by rw [← (List.cons.inj heq).1]; exact hb) (by decide : ¬isDigit 45)
    · rename_i heq
      exact absurd (by rw [← (List.cons.inj heq).1]; exact hb) (by decide : ¬isDigit 43)
    · rfl
  unfold strtoll
  rw [hsign]
  simp only [List.takeWhile_eq_self_iff.mpr hall, List.dropWhile_eq_nil_iff.mpr hall]
  rw [if_neg]
  · simp
  · simp only [reduceCtorEq, Bool.false_eq_true, if_false, false_or]
    omega

/-! ### Order -/

theorem lt_of_digits_lt {c d : Nat} (h : c < d) (hd : d < 10) : digit c < digit d := by
  rw [UInt8.lt_iff_toNat_lt, toNat_digit (h.trans hd), toNat_digit hd]
  omega

theorem append_lt_append_of_lt {a b : List UInt8} (hlen : a.length = b.length) (h : a < b)
    (x y : List UInt8) : a ++ x < b ++ y := by
  induction a generalizing b with
  | nil =>
    cases b with
    | nil => exact absurd h (List.lt_irrefl [])
    | cons d b => simp at hlen
  | cons c a ih =>
    cases b with
    | nil => simp at hlen
    | cons d b =>
      rcases List.cons_lt_cons_iff.mp h with hlt | ⟨heq, hlt⟩
      · exact List.cons_lt_cons_iff.mpr (.inl hlt)
      · exact List.cons_lt_cons_iff.mpr (.inr ⟨heq, ih (by simpa using hlen) hlt⟩)

theorem append_lt_append_left {x y : List UInt8} (a : List UInt8) (h : x < y) : a ++ x < a ++ y := by
  induction a with
  | nil => exact h
  | cons c a ih => exact List.cons_lt_cons_iff.mpr (.inr ⟨rfl, ih⟩)

theorem pad_lt_pad {w m n : Nat} (h : m < n) (hn : n < 10 ^ w) : pad w m < pad w n := by
  induction w generalizing m n with
  | zero => simp at hn; omega
  | succ w ih =>
    have hdiv : n / 10 < 10 ^ w := by
      rw [pow_succ] at hn
      omega
    by_cases heq : m / 10 = n / 10
    · rw [pad, pad, heq]
      apply append_lt_append_left
      refine List.cons_lt_cons_iff.mpr (.inl (lt_of_digits_lt ?_ (Nat.mod_lt _ (by decide))))
      omega
    · apply append_lt_append_of_lt (by simp)
      exact ih (by omega) hdiv

theorem pad_lt_pad_iff {w m n : Nat} (hm : m < 10 ^ w) (hn : n < 10 ^ w) :
    pad w m < pad w n ↔ m < n := by
  refine ⟨fun h => ?_, fun h => pad_lt_pad h hn⟩
  rcases Nat.lt_trichotomy m n with hlt | heq | hgt
  · exact hlt
  · subst heq
    exact absurd h (List.lt_irrefl _)
  · exact absurd (pad_lt_pad hgt hm) (List.lt_asymm h)

end Decimal
