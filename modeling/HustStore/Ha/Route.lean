import HustStore.Goha.Write
import HustStore.Md5db.Export
import Mathlib.Data.List.TakeWhile
import Mathlib.Data.Nat.Digits.Lemmas

/-!
# Three ways to a bucket

The nginx front end, goha and the database each compute the bucket of a key on their own.
-/

namespace HustStore.Ha

open Md5db (bucketHash maxBucketNum)
open Goha (locateHashRegion)

/-! ### The parameter of a request -/

/-- What follows the first occurrence of the name with an equals sign behind it. The
search goes on behind an occurrence without one; `skip` counts the bytes that it still has to leave out. -/
def matchKey (name : Bytes) : Nat → Bytes → Option Bytes
  | _, [] => none
  | skip + 1, _ :: rest => matchKey name skip rest
  | 0, b :: rest =>
    if name.isPrefixOf (b :: rest) then
      match (b :: rest).drop name.length with
      | [] => none
      | c :: val => if c = 61 then some val else matchKey name (name.length - 1) rest
    else matchKey name 0 rest

def ngxHttpGetParamVal (args name : Bytes) : Option Bytes :=
  (matchKey name 0 args).map fun val => val.takeWhile (· ≠ 38)

def ngxHashKey (data : Bytes) : Nat := data.foldl (fun key c => (key * 31 + c.toNat) % 2 ^ 64) 0

def getTableElem (key : Bytes) : Nat := ngxHashKey (key.takeWhile (· ≠ 0)) % 1024

def routeOf (args : Bytes) : Option Nat := (ngxHttpGetParamVal args (ascii "key")).map getTableElem

/-! ### Percent-encoding -/

def hexValue (c : UInt8) : Option Nat :=
  if 48 ≤ c ∧ c ≤ 57 then some (c.toNat - 48)
  else if 65 ≤ c ∧ c ≤ 70 then some (c.toNat - 55)
  else if 97 ≤ c ∧ c ≤ 102 then some (c.toNat - 87)
  else none

inductive Encodes : Bytes → Bytes → Prop
  | nil : Encodes [] []
  | literal {b : UInt8} {enc key : Bytes} (hpercent : b ≠ 37) (hamp : b ≠ 38) :
      Encodes enc key → Encodes (b :: enc) (b :: key)
  | escaped {b hi lo : UInt8} {h l : Nat} {enc key : Bytes} (hhi : hexValue hi = some h)
      (hlo : hexValue lo = some l) (hb : b.toNat = 16 * h + l) :
      Encodes enc key → Encodes (37 :: hi :: lo :: enc) (b :: key)

theorem ne_of_hexValue {c : UInt8} {n : Nat} (h : hexValue c = some n) : c ≠ 0 ∧ c ≠ 38 := by
  constructor
  · rintro rfl
    cases h
  · rintro rfl
    cases h

theorem Encodes.plain {enc key : Bytes} (h : Encodes enc key) (hnul : 0 ∉ key) : ∀ b ∈ enc, b ≠ 0 ∧ b ≠ 38 := by
  induction h with
  | nil =>
    intro b hb
    cases hb
  | @literal b enc key hpercent hamp _ ih =>
    intro c hc
    rw [List.mem_cons, not_or] at hnul
    rcases List.mem_cons.mp hc with rfl | hc
    · exact ⟨fun h => hnul.1 h.symm, hamp⟩
    · exact ih hnul.2 c hc
  | @escaped b hi lo h l enc key hhi hlo _ _ ih =>
    intro c hc
    rw [List.mem_cons, not_or] at hnul
    rcases List.mem_cons.mp hc with rfl | hc
    · decide
    rcases List.mem_cons.mp hc with rfl | hc
    · exact ne_of_hexValue hhi
    rcases List.mem_cons.mp hc with rfl | hc
    · exact ne_of_hexValue hlo
    · exact ih hnul.2 c hc

/-! ### What the front end reads -/

def NotBefore (name before : Bytes) : Prop :=
  ∀ n, n < before.length → ¬ name <+: (before ++ name).drop n

structure HasParam (name args text : Bytes) : Prop where
  split : ∃ before rest, args = before ++ (name ++ 61 :: (text ++ rest)) ∧ NotBefore name before ∧
    (rest = [] ∨ ∃ more, rest = 38 :: more)

theorem matchKey_name {name : Bytes} (hname : name ≠ []) (val : Bytes) :
    matchKey name 0 (name ++ 61 :: val) = some val := by
  obtain ⟨c, name, rfl⟩ := List.exists_cons_of_ne_nil hname
  rw [List.cons_append, matchKey, if_pos (by simp), ← List.cons_append, List.drop_left]
  rfl

theorem NotBefore.tail {name before : Bytes} {b : UInt8} (h : NotBefore name (b :: before)) :
    NotBefore name before := by
  intro n hn
  have hn' : n + 1 < (b :: before).length := Nat.succ_lt_succ hn
  exact h (n + 1) hn'

theorem NotBefore.not_isPrefixOf {name before : Bytes} {b : UInt8} (h : NotBefore name (b :: before))
    (val : Bytes) : ¬ name.isPrefixOf (b :: (before ++ (name ++ val))) = true := by
  intro hpre
  have hhere : ¬ name <+: b :: (before ++ name) := h 0 (Nat.succ_pos _)
  apply hhere
  apply List.prefix_of_prefix_length_le (List.isPrefixOf_iff_prefix.mp hpre)
  · exact ⟨val, by simp⟩
  · rw [List.length_cons, List.length_append]
    omega

theorem matchKey_before {name : Bytes} (hname : name ≠ []) (val : Bytes) {before : Bytes}
    (h : NotBefore name before) : matchKey name 0 (before ++ (name ++ 61 :: val)) = some val := by
  induction before with
  | nil => exact matchKey_name hname val
  | cons b before ih =>
    rw [List.cons_append, matchKey, if_neg (h.not_isPrefixOf _)]
    exact ih h.tail

theorem ngxHttpGetParamVal_of_hasParam {name args text : Bytes} (hname : name ≠ [])
    (h : HasParam name args text) (hamp : ∀ b ∈ text, b ≠ 38) :
    ngxHttpGetParamVal args name = some text := by
  obtain ⟨before, rest, rfl, hbefore, hrest⟩ := h.split
  rw [ngxHttpGetParamVal, matchKey_before hname _ hbefore, Option.map_some]
  congr 1
  rw [List.takeWhile_append_of_pos fun b hb => decide_eq_true (hamp b hb)]
  rcases hrest with rfl | ⟨more, rfl⟩
  · exact List.append_nil text
  · exact List.append_nil text

theorem routeOf_of_encodes {args enc key : Bytes} (h : HasParam (ascii "key") args enc)
    (henc : Encodes enc key) (hnul : 0 ∉ key) : routeOf args = some (ngxHashKey enc % 1024) := by
  have hplain := henc.plain hnul
  rw [routeOf, ngxHttpGetParamVal_of_hasParam (by decide) h fun b hb => (hplain b hb).2,
    Option.map_some, getTableElem,
    List.takeWhile_eq_self_iff.mpr fun b hb => decide_eq_true (hplain b hb).1]

/-! ### The hashes as sums -/

def digits (f : UInt8 → Nat) (key : Bytes) : List Nat := (key.map f).reverse

def signBit (b : UInt8) : Nat := if b.toNat < 128 then 0 else 1

theorem ofDigits_digits_concat (f : UInt8 → Nat) (key : Bytes) (b : UInt8) :
    Nat.ofDigits 31 (digits f (key ++ [b])) = f b + 31 * Nat.ofDigits 31 (digits f key) := by
  rw [digits, List.map_append, List.reverse_append]
  rfl

theorem foldl_modEq_ofDigits (f : UInt8 → Nat) {width : Nat} (hwidth : 1024 ∣ width) (key : Bytes) :
    key.foldl (fun hash b => (hash * 31 + f b) % width) 0 ≡ Nat.ofDigits 31 (digits f key) [MOD 1024] := by
  induction key using List.reverseRecOn with
  | nil => rfl
  | append_singleton key b ih =>
    rw [List.foldl_append, ofDigits_digits_concat, List.foldl_cons, List.foldl_nil]
    calc _ ≡ key.foldl (fun hash b => (hash * 31 + f b) % width) 0 * 31 + f b [MOD 1024] :=
          (Nat.mod_modEq _ width).of_dvd hwidth
      _ ≡ Nat.ofDigits 31 (digits f key) * 31 + f b [MOD 1024] := (ih.mul_right 31).add_right _
      _ = f b + 31 * Nat.ofDigits 31 (digits f key) := by omega

theorem ngxHashKey_modEq (enc : Bytes) : ngxHashKey enc ≡ Nat.ofDigits 31 (digits UInt8.toNat enc) [MOD 1024] :=
  foldl_modEq_ofDigits UInt8.toNat (by decide) enc

theorem goha_hash_eq (key : Bytes) : Goha.ngxHashKey key = (digits UInt8.toNat key).sum := by
  induction key using List.reverseRecOn with
  | nil => rfl
  | append_singleton key b ih =>
    rw [Goha.ngxHashKey, List.foldl_append, List.foldl_cons, List.foldl_nil, ← Goha.ngxHashKey, ih, digits,
      digits, List.map_append, List.reverse_append, List.sum_append, Nat.add_comm]
    rfl

theorem ofDigits_signed (key : Bytes) :
    Nat.ofDigits 31 (digits (fun b => if b.toNat < 128 then b.toNat else b.toNat + (2 ^ 32 - 256)) key) +
        256 * Nat.ofDigits 31 (digits signBit key) ≡
      Nat.ofDigits 31 (digits UInt8.toNat key) [MOD 1024] := by
  induction key using List.reverseRecOn with
  | nil => rfl
  | append_singleton key b ih =>
    rw [ofDigits_digits_concat, ofDigits_digits_concat, ofDigits_digits_concat, signBit]
    unfold Nat.ModEq at ih ⊢
    split
    all_goals omega

theorem hustHashKey_modEq (key : Bytes) : hustHashKey key + 256 * Nat.ofDigits 31 (digits signBit key) ≡
      Nat.ofDigits 31 (digits UInt8.toNat key) [MOD 1024] :=
  ((foldl_modEq_ofDigits _ (by decide) key).add_right _).trans (ofDigits_signed key)

theorem bucketHash_eq (key : Bytes) : bucketHash key = hustHashKey key % 1024 :=
  Nat.mod_mod_of_dvd _ (by decide)

theorem encodes_self {key : Bytes} (h : ∀ b ∈ key, b ≠ 37 ∧ b ≠ 38) : Encodes key key := by
  induction key with
  | nil => exact .nil
  | cons b key ih =>
    obtain ⟨hb, hkey⟩ := List.forall_mem_cons.mp h
    exact .literal hb.1 hb.2 (ih hkey)

/-- The three components choose the same bucket exactly under two congruences: the polynomial hash of
the text in the request is the sum of the bytes of the key, and so is the polynomial hash of the key,
apart from 256 for each byte that is negative as a signed character. -/
theorem buckets_agree_iff (args enc key : Bytes) (hargs : HasParam (ascii "key") args enc)
    (henc : Encodes enc key) (hnul : 0 ∉ key) :
    (routeOf args = some (locateHashRegion key) ∧ locateHashRegion key = bucketHash key) ↔
      Nat.ofDigits 31 (digits UInt8.toNat enc) ≡ (digits UInt8.toNat key).sum [MOD 1024] ∧
      Nat.ofDigits 31 (digits UInt8.toNat key) ≡
        (digits UInt8.toNat key).sum + 256 * Nat.ofDigits 31 (digits signBit key) [MOD 1024] := by
  have hroute := routeOf_of_encodes hargs henc hnul
  have hha := ngxHashKey_modEq enc
  have hdb := hustHashKey_modEq key
  rw [hroute, locateHashRegion, goha_hash_eq, bucketHash_eq, Option.some_inj]
  unfold Nat.ModEq at hha hdb ⊢
  omega

theorem hasParam_key (text : Bytes) : HasParam (ascii "key") (ascii "key=" ++ text) text where
  split := ⟨[], [], by simp [ascii], fun _ h => absurd h (Nat.not_lt_zero _), .inl rfl⟩

/-- The key of one letter. -/
theorem buckets_agree_a :
    routeOf (ascii "key=a") = some (locateHashRegion [97]) ∧ locateHashRegion [97] = bucketHash [97] :=
  (buckets_agree_iff _ [97] [97] (hasParam_key [97]) (encodes_self (by decide +kernel)) (by decide)).mpr (by decide)

/-- The key of two letters, sent as it is, and the key of one letter, sent escaped. -/
theorem buckets_differ : (Encodes (ascii "ab") (ascii "ab") ∧ routeOf (ascii "key=ab") = some 33 ∧
      locateHashRegion (ascii "ab") = 195 ∧ bucketHash (ascii "ab") = 33) ∧
    (Encodes (ascii "%61") (ascii "a") ∧ routeOf (ascii "key=%61") = some 416 ∧
      locateHashRegion (ascii "a") = 97 ∧ bucketHash (ascii "a") = 97) := by
  refine ⟨⟨encodes_self (by decide +kernel), by decide, by decide, by decide⟩, ?_, by decide, by decide,
    by decide⟩
  exact .escaped (h := 6) (l := 1) rfl rfl rfl .nil

end HustStore.Ha
