import Mathlib.Algebra.Group.Nat.Defs
import Mathlib.Data.List.Lex
import Mathlib.Order.Lattice

/-!
# Bytes, words and result codes

The vocabulary shared by every layer of the server: byte strings in the order leveldb compares
them, the little-endian words that are laid over them, and the `errno` values that the storage
functions return.
-/

namespace HustStore

/-- Bytes are ordered as unsigned characters, as `memcmp` orders them. -/
instance linearOrderUInt8 : LinearOrder UInt8 where
  le_refl := UInt8.le_refl
  le_trans _ _ _ := UInt8.le_trans
  le_antisymm _ _ := UInt8.le_antisymm
  le_total := UInt8.le_total
  lt_iff_le_not_ge a b := by
    rw [UInt8.lt_iff_toNat_lt, UInt8.le_iff_toNat_le, UInt8.le_iff_toNat_le]
    omega
  toDecidableLE := inferInstance
  toDecidableLT := inferInstance
  toDecidableEq := inferInstance
  min_def _ _ := rfl
  max_def _ _ := rfl
  compare_eq_compareOfLessAndEq _ _ := rfl

instance lawfulBEqUInt8 : LawfulBEq UInt8 := inferInstance

abbrev Bytes := List UInt8

def ascii (s : String) : Bytes := s.toList.map fun c => .ofNat c.toNat

def le32 (n : Nat) : Bytes :=
  [.ofNat n, .ofNat (n / 2 ^ 8), .ofNat (n / 2 ^ 16), .ofNat (n / 2 ^ 24)]

def word32 (b0 b1 b2 b3 : UInt8) : Nat :=
  b0.toNat + 2 ^ 8 * b1.toNat + 2 ^ 16 * b2.toNat + 2 ^ 24 * b3.toNat

def readLe32 : Bytes → Nat
  | b0 :: b1 :: b2 :: b3 :: _ => word32 b0 b1 b2 b3
  | _ => 0

@[simp] theorem length_le32 (n : Nat) : (le32 n).length = 4 := rfl

theorem word32_inj {a0 a1 a2 a3 b0 b1 b2 b3 : UInt8} (h : word32 a0 a1 a2 a3 = word32 b0 b1 b2 b3) :
    a0 = b0 ∧ a1 = b1 ∧ a2 = b2 ∧ a3 = b3 := by
  have ha0 := a0.toNat_lt
  have ha1 := a1.toNat_lt
  have ha2 := a2.toNat_lt
  have ha3 := a3.toNat_lt
  have hb0 := b0.toNat_lt
  have hb1 := b1.toNat_lt
  have hb2 := b2.toNat_lt
  have hb3 := b3.toNat_lt
  unfold word32 at h
  simp only [← UInt8.toNat_inj]
  omega

theorem readLe32_le32_append (n : Nat) (rest : Bytes) : readLe32 (le32 n ++ rest) = n % 2 ^ 32 := by
  simp only [le32, List.cons_append, List.nil_append, readLe32, word32, UInt8.toNat_ofNat']
  omega

theorem le32_inj {m n : Nat} (hm : m < 2 ^ 32) (hn : n < 2 ^ 32) (h : le32 m = le32 n) : m = n := by
  have hread : readLe32 (le32 m ++ []) = readLe32 (le32 n ++ []) := by rw [h]
  rwa [readLe32_le32_append, readLe32_le32_append, Nat.mod_eq_of_lt hm, Nat.mod_eq_of_lt hn] at hread

def assign {α β : Type} [DecidableEq α] (f : α → β) (a : α) (b : β) : α → β :=
  fun x => if x = a then b else f x

section Assign

variable {α β : Type} [DecidableEq α] {f : α → β} {a x : α}

@[simp] theorem assign_self (b : β) : assign f a b a = b := if_pos rfl

theorem assign_of_ne (h : x ≠ a) (b : β) : assign f a b x = f x := if_neg h

@[simp] theorem assign_eq_self : assign f a (f a) = f := by
  funext x
  by_cases h : x = a
  · rw [h, assign_self]
  · rw [assign_of_ne h]

@[simp] theorem assign_assign (b c : β) : assign (assign f a b) a c = assign f a c := by
  funext x
  by_cases h : x = a
  · rw [h, assign_self, assign_self]
  · rw [assign_of_ne h, assign_of_ne h, assign_of_ne h]

end Assign

inductive Errno
  | EPERM
  | ENOENT
  | EACCES
  | EFAULT
  | EEXIST
  | EINVAL
  | ENOMEM
  | EKEYREJECTED
  deriving DecidableEq, Repr

inductive Rc
  | ok
  | err (e : Errno)
  deriving DecidableEq, Repr

end HustStore
