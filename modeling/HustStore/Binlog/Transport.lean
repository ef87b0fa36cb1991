import HustStore.Binlog.Scan
import Mathlib.Tactic.IntervalCases

/-!
# The key of a task on its way

A task for a plain key or a hash carries its key in the query string, percent-encoded by
`task_t::url_encode_all`; the replica decodes it in place with `hustdb_unescape_str`.
-/

namespace HustStore.Binlog

/-! ### Encoding -/

def hexDigit (n : Nat) : UInt8 := .ofNat (if n < 10 then 48 + n else 55 + n)

def standsForItself (b : UInt8) : Bool :=
  48 ≤ b && b ≤ 57 || 65 ≤ b && b ≤ 90 || 97 ≤ b && b ≤ 122 || b ∈ ascii "'(),-.[]_|"

def urlEncodeItem (b : UInt8) : Bytes :=
  if standsForItself b then [b] else [37, hexDigit (b.toNat / 16), hexDigit (b.toNat % 16)]

def urlEncodeAll (src : Bytes) (dstLen : Nat) : Option Bytes :=
  if dstLen < src.length * 3 + 1 then none else some (src.flatMap urlEncodeItem)

def keyArgument (key : Bytes) : Option Bytes :=
  (urlEncodeAll key (3 * key.length + 1)).map (List.takeWhile (· ≠ 0))

/-! ### Decoding -/

inductive Unescape
  | usual
  | quoted
  | quotedSecond (decoded : UInt8)

def isDigit (ch : UInt8) : Bool := 48 ≤ ch && ch ≤ 57

def isHexLetter (c : UInt8) : Bool := 97 ≤ c && c ≤ 102

def unescapeUri : Unescape → Bytes → Bytes
  | _, [] => []
  | .usual, ch :: rest =>
    if ch = 63 then [ch]
    else if ch = 37 then unescapeUri .quoted rest
    else ch :: unescapeUri .usual rest
  | .quoted, ch :: rest =>
    if isDigit ch then unescapeUri (.quotedSecond (ch - 48)) rest
    else
      let c := ch ||| 0x20
      if isHexLetter c then unescapeUri (.quotedSecond (c - 97 + 10)) rest
      else ch :: unescapeUri .usual rest
  | .quotedSecond decoded, ch :: rest =>
    if isDigit ch then ((decoded <<< 4) + ch - 48) :: unescapeUri .usual rest
    else
      let c := ch ||| 0x20
      if isHexLetter c then
        let ch := (decoded <<< 4) + c - 97 + 10
        if ch = 63 then [ch] else ch :: unescapeUri .usual rest
      else unescapeUri .usual rest

def hustdbUnescapeStr (str : Bytes) : Bytes := unescapeUri .usual str

/-! ### The way of a key -/

section Hex

variable {n hi lo : Nat} {b : UInt8} {rest : Bytes}

theorem unescapeUri_quoted (h : n < 16) :
    unescapeUri .quoted (hexDigit n :: rest) = unescapeUri (.quotedSecond (.ofNat n)) rest := by
  interval_cases n <;> rfl

theorem joined_eq : ∀ hi lo : Fin 16, (if isDigit (hexDigit lo) then (UInt8.ofNat hi <<< 4) + hexDigit lo - 48
      else (UInt8.ofNat hi <<< 4) + (hexDigit lo ||| 0x20) - 97 + 10) = .ofNat (hi * 16 + lo) := by
  decide

theorem isHexLetter_hexDigit : ∀ lo : Fin 16,
    isDigit (hexDigit lo) = false → isHexLetter (hexDigit lo ||| 0x20) = true := by
  decide

theorem unescapeUri_second (hhi : hi < 16) (hlo : lo < 16) (hmark : hi * 16 + lo ≠ 63) :
    unescapeUri (.quotedSecond (.ofNat hi)) (hexDigit lo :: rest) =
      .ofNat (hi * 16 + lo) :: unescapeUri .usual rest := by
  have hjoin := joined_eq ⟨hi, hhi⟩ ⟨lo, hlo⟩
  rw [unescapeUri]
  by_cases hdigit : isDigit (hexDigit lo) = true
  · rw [if_pos hdigit] at hjoin ⊢
    rw [hjoin]
  · rw [if_neg hdigit] at hjoin ⊢
    have hne : UInt8.ofNat (hi * 16 + lo) ≠ 63 := fun heq => hmark (by
      have hnat := congrArg UInt8.toNat heq
      rw [UInt8.toNat_ofNat', Nat.mod_eq_of_lt (by omega)] at hnat
      exact hnat)
    simp only [isHexLetter_hexDigit ⟨lo, hlo⟩ (by simpa using hdigit), if_true, hjoin]
    rw [if_neg hne]

theorem unescapeUri_mark : unescapeUri .usual (urlEncodeItem 63 ++ rest) = [63] := rfl

theorem unescapeUri_item (h : b ≠ 63) :
    unescapeUri .usual (urlEncodeItem b ++ rest) = b :: unescapeUri .usual rest := by
  unfold urlEncodeItem
  split
  · rename_i hplain
    have hpercent : b ≠ 37 := by
      rintro rfl
      revert hplain
      decide
    rw [List.singleton_append, unescapeUri, if_neg h, if_neg hpercent]
  · have hlt := b.toNat_lt
    have hsplit : b.toNat / 16 * 16 + b.toNat % 16 = b.toNat := Nat.div_add_mod' b.toNat 16
    have hmark : b.toNat / 16 * 16 + b.toNat % 16 ≠ 63 := by
      rw [hsplit]
      exact fun heq => h (UInt8.toNat_inj.mp heq)
    have hpercent : ∀ text, unescapeUri .usual (37 :: text) = unescapeUri .quoted text :=
      fun _ => rfl
    simp only [List.cons_append, List.nil_append]
    rw [hpercent, unescapeUri_quoted (by omega), unescapeUri_second (by omega) (by omega) hmark,
      hsplit, UInt8.ofNat_toNat]

end Hex

theorem hexDigit_ne_zero : ∀ n : Fin 16, hexDigit n ≠ 0 := by decide

theorem ne_zero_of_mem_urlEncodeItem {b c : UInt8} (h : c ∈ urlEncodeItem b) : c ≠ 0 := by
  unfold urlEncodeItem at h
  split at h
  · rename_i hplain
    rw [List.mem_singleton] at h
    rintro rfl
    rw [← h] at hplain
    revert hplain
    decide
  · have hlt := b.toNat_lt
    simp only [List.mem_cons, List.not_mem_nil, or_false] at h
    rcases h with rfl | rfl | rfl
    · decide
    · exact hexDigit_ne_zero ⟨b.toNat / 16, by omega⟩
    · exact hexDigit_ne_zero ⟨b.toNat % 16, by omega⟩

theorem keyArgument_eq (key : Bytes) : keyArgument key = some (key.flatMap urlEncodeItem) := by
  have hroom : ¬3 * key.length + 1 < key.length * 3 + 1 := by omega
  rw [keyArgument, urlEncodeAll, if_neg hroom, Option.map_some, List.takeWhile_eq_self_iff.mpr]
  intro c hc
  obtain ⟨b, -, hb⟩ := List.mem_flatMap.mp hc
  simpa using ne_zero_of_mem_urlEncodeItem hb

theorem unescape_encode (key : Bytes) : hustdbUnescapeStr (key.flatMap urlEncodeItem) =
      if 63 ∈ key then key.takeWhile (· ≠ 63) ++ [63] else key := by
  unfold hustdbUnescapeStr
  induction key with
  | nil => rfl
  | cons b rest ih =>
    rw [List.flatMap_cons]
    by_cases hb : b = 63
    · subst hb
      rw [unescapeUri_mark, if_pos List.mem_cons_self]
      rfl
    · rw [unescapeUri_item hb, ih, List.takeWhile_cons_of_pos (by simpa using hb)]
      by_cases hrest : 63 ∈ rest
      · rw [if_pos hrest, if_pos (List.mem_cons_of_mem b hrest)]
        rfl
      · rw [if_neg hrest, if_neg (by simp [Ne.symm hb, hrest])]

theorem takeWhile_append_eq_self_iff {key : Bytes} (h : 63 ∈ key) :
    key.takeWhile (· ≠ 63) ++ [63] = key ↔ 63 ∉ key.dropLast := by
  induction key with
  | nil => cases h
  | cons b rest ih =>
    by_cases hb : b = 63
    · subst hb
      cases rest with
      | nil => simp
      | cons c rest => simp
    · have hrest : 63 ∈ rest := (List.mem_cons.mp h).resolve_left (Ne.symm hb)
      obtain ⟨c, rest', rfl⟩ := List.exists_cons_of_ne_nil (List.ne_nil_of_mem hrest)
      rw [List.takeWhile_cons_of_pos (by simpa using hb), List.cons_append, List.cons.injEq,
        List.dropLast_cons_cons, List.mem_cons, not_or]
      constructor
      · rintro ⟨-, hkeep⟩
        exact ⟨Ne.symm hb, (ih hrest).mp hkeep⟩
      · rintro ⟨-, hnot⟩
        exact ⟨rfl, (ih hrest).mpr hnot⟩

theorem unescape_encode_eq_self_iff (key : Bytes) :
    hustdbUnescapeStr (key.flatMap urlEncodeItem) = key ↔ 63 ∉ key.dropLast := by
  rw [unescape_encode]
  by_cases hmark : 63 ∈ key
  · rw [if_pos hmark, takeWhile_append_eq_self_iff hmark]
  · rw [if_neg hmark]
    exact ⟨fun _ hmem => hmark ((List.dropLast_sublist key).subset hmem), fun _ => rfl⟩

/-- A key arrives as it was sent exactly when a question mark is at most its last byte. -/
theorem key_arrives_iff (key : Bytes) : (keyArgument key).map hustdbUnescapeStr = some key ↔ 63 ∉ key.dropLast := by
  rw [keyArgument_eq, Option.map_some, Option.some_inj, unescape_encode_eq_self_iff]

/-- A write to `a?b` is replayed as one to `a?`. -/
theorem key_is_cut_at_question_mark : (keyArgument (ascii "a?b")).map hustdbUnescapeStr = some (ascii "a?") := by
  decide

end HustStore.Binlog
