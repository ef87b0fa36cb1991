import HustStore.Base
import HustStore.Lib.Decimal
import Mathlib.Data.List.DropRight

/-!
# Configuration texts

A configuration is read line by line into sections of named texts. The tables of the reader are fixed: a line
that finds its table full is an error, and so is a line that is no item.
-/

namespace HustStore.Appini

/-! ### Texts -/

def isspace2 (b : UInt8) : Bool := b = 0 || Decimal.isSpace b

def strTrim (s : Bytes) : Bytes := (s.dropWhile isspace2).rdropWhile isspace2

def toVector (s : Bytes) : List Bytes := (s.splitOn 44).map strTrim

def wrap32 (z : Int) : Int := (z + 2 ^ 31) % 2 ^ 32 - 2 ^ 31

def atoi (s : Bytes) : Int :=
  let (neg, rest) := Decimal.sign (s.dropWhile Decimal.isSpace)
  let n := Decimal.ofDigits (rest.takeWhile Decimal.isDigit)
  let z : Int := if neg then -n else n
  wrap32 (max (-2 ^ 63) (min z (2 ^ 63 - 1)))

def printD (z : Int) : Bytes := Decimal.print 10 z

def toLower (b : UInt8) : UInt8 := if 65 ≤ b.toNat ∧ b.toNat ≤ 90 then b + 32 else b

def sameName (a b : Bytes) : Bool := a.map toLower = b.map toLower

/-! ### The reader -/

structure Item where
  key : Bytes
  val : Bytes
  deriving DecidableEq, Repr

structure Section where
  name : Bytes
  items : List Item
  deriving DecidableEq, Repr

def sectionCount : Nat := 32

def itemCount : Nat := 64

structure Reader where
  sections : List Section
  isErr : Bool
  deriving DecidableEq, Repr

namespace Reader

def fail (r : Reader) : Reader := { r with isErr := true }

def readSection (r : Reader) (rest : Bytes) : Reader :=
  if rest.length ≤ 1 then r
  else if r.sections.length ≥ sectionCount then r.fail
  else
    let name := if rest.getLast? = some 93 then rest.dropLast else rest
    { r with sections := r.sections ++ [⟨name, []⟩] }

def readItem (r : Reader) (line : Bytes) : Reader :=
  match r.sections.getLast? with
  | none => r.fail
  | some s =>
    if line.length ≤ 1 ∨ 61 ∉ line then r.fail
    else
      let key := strTrim (line.takeWhile (· ≠ 61))
      let val := strTrim ((line.dropWhile (· ≠ 61)).drop 1)
      if key = [] then r
      else if s.items.length ≥ itemCount then r.fail
      else { r with sections := r.sections.dropLast ++ [{ s with items := s.items ++ [⟨key, val⟩] }] }

def readLine (r : Reader) : Bytes → Reader
  | [] => r
  | b :: rest =>
    if b = 35 ∨ b = 59 then r
    else if b = 91 then r.readSection rest
    else r.readItem (b :: rest)

end Reader

def chopCr (line : Bytes) : Bytes := if line.getLast? = some 13 then line.dropLast else line

def lines (text : Bytes) : List Bytes :=
  let parts := (text.takeWhile (· ≠ 0)).splitOn 10
  parts.dropLast.map chopCr ++ parts.getLast?.toList

abbrev Ini := List Section

def iniOpen2 (text : Bytes) : Option Ini :=
  let r := (lines text).foldl Reader.readLine ⟨[], false⟩
  if r.isErr then none else some r.sections

/-! ### Looking up -/

def iniFindInSection (s : Section) (name : Bytes) : Option Bytes :=
  (s.items.find? fun i => sameName i.key name).map Item.val

def iniGetString (ini : Ini) (sec name : Bytes) : Option Bytes :=
  match ini.find? fun s => sameName s.name sec with
  | none => none
  | some s => iniFindInSection s name

def iniGetInt (ini : Ini) (sec name : Bytes) (dflt : Int) : Int :=
  match iniGetString ini sec name with
  | some (b :: rest) => if b = 45 ∨ Decimal.isDigit b then atoi (b :: rest) else dflt
  | _ => dflt

/-! ### Trimming -/

structure Trimmed (s : Bytes) : Prop where
  ne_nil : s ≠ []
  head : ¬isspace2 (s.head ne_nil)
  getLast : ¬isspace2 (s.getLast ne_nil)

theorem Trimmed.of_forall {s : Bytes} (hne : s ≠ []) (h : ∀ b ∈ s, ¬isspace2 b) : Trimmed s :=
  ⟨hne, h _ (List.head_mem hne), h _ (List.getLast_mem hne)⟩

theorem Trimmed.append {s t : Bytes} (hs : Trimmed s) (ht : Trimmed t) (m : Bytes) :
    Trimmed (s ++ m ++ t) := by
  have hne : s ++ m ++ t ≠ [] := by simp [hs.ne_nil]
  refine ⟨hne, ?_, ?_⟩
  · rw [List.head_append_of_ne_nil (by simp [hs.ne_nil]), List.head_append_of_ne_nil hs.ne_nil]
    exact hs.head
  · rw [List.getLast_append_of_ne_nil hne ht.ne_nil]
    exact ht.getLast

theorem strTrim_of_trimmed {s l r : Bytes} (hs : Trimmed s) (hl : ∀ b ∈ l, isspace2 b)
    (hr : ∀ b ∈ r, isspace2 b) : strTrim (l ++ s ++ r) = s := by
  obtain ⟨b, rest, rfl⟩ := List.exists_cons_of_ne_nil hs.ne_nil
  have hdrop : (l ++ (b :: rest) ++ r).dropWhile isspace2 = (b :: rest) ++ r := by
    rw [List.append_assoc, List.dropWhile_append_of_pos hl, List.cons_append]
    exact List.dropWhile_cons_of_neg hs.head
  have hback : ((b :: rest) ++ r).rdropWhile isspace2 = (b :: rest).rdropWhile isspace2 := by
    simp only [List.rdropWhile, List.reverse_append]
    rw [List.dropWhile_append_of_pos (by simpa using hr)]
  rw [strTrim, hdrop, hback, List.rdropWhile_eq_self_iff]
  intro _
  exact hs.getLast

theorem strTrim_self {s : Bytes} (hs : Trimmed s) : strTrim s = s := by
  have h := @strTrim_of_trimmed s [] [] hs (by simp) (by simp)
  simpa using h

/-! ### Numbers -/

variable {b : UInt8}

theorem isspace2_of_isDigit (h : Decimal.isDigit b) : isspace2 b = false := by
  have hzero : b ≠ 0 := by
    intro heq
    subst heq
    exact absurd h (by decide)
  simp [isspace2, hzero, Decimal.not_isSpace_of_isDigit h]

theorem printD_natCast (n : Nat) : printD n = Decimal.digits 10 n := by
  simp [printD, Decimal.print]

variable {n : Nat}

theorem isDigit_of_mem_printD (h : b ∈ printD n) : Decimal.isDigit b := by
  rw [printD_natCast] at h
  exact Decimal.isDigit_of_mem_digits h

theorem printD_ne_nil (h : n < 10 ^ 10) : printD n ≠ [] := by
  rw [printD_natCast]
  exact Decimal.digits_ne_nil h

theorem trimmed_printD (h : n < 10 ^ 10) : Trimmed (printD n) :=
  .of_forall (printD_ne_nil h) fun b hb => by
    simp [isspace2_of_isDigit (isDigit_of_mem_printD hb)]

theorem printD_inj {m n : Nat} (hm : m < 10 ^ 10) (hn : n < 10 ^ 10) (h : printD m = printD n) : m = n := by
  rw [printD_natCast, printD_natCast] at h
  rw [← Decimal.ofDigits_digits hm, h, Decimal.ofDigits_digits hn]

theorem atoi_printD (h : n < 2 ^ 31) : atoi (printD n) = n := by
  have hwidth : (n : Int).natAbs < 10 ^ 10 := by simp; omega
  have hall : ∀ b ∈ Decimal.digits 10 n, Decimal.isDigit b := fun b hb =>
    Decimal.isDigit_of_mem_digits hb
  unfold atoi printD
  rw [Decimal.sign_print _ hwidth]
  simp only [Int.natAbs_natCast, List.takeWhile_eq_self_iff.mpr hall,
    Decimal.ofDigits_digits (show n < 10 ^ 10 by omega)]
  rw [if_neg (by simp)]
  unfold wrap32
  omega

theorem toLower_of_isDigit (h : Decimal.isDigit b) : toLower b = b := by
  simp only [Decimal.isDigit, Bool.and_eq_true, decide_eq_true_eq] at h
  rw [toLower, if_neg (by omega)]

theorem map_toLower_printD (n : Nat) : (printD n).map toLower = printD n := by
  have h : (printD n).map toLower = (printD n).map id :=
    List.map_congr_left fun b hb => toLower_of_isDigit (isDigit_of_mem_printD hb)
  rw [h, List.map_id]

theorem sameName_append_left (a b c : Bytes) : sameName (a ++ b) (a ++ c) = sameName b c := by
  simp [sameName]

theorem sameName_printD_of_notDigit {name : Bytes} (h : ∃ b ∈ name, ¬Decimal.isDigit (toLower b))
    (k : Nat) : sameName name (printD k) = false := by
  rw [sameName, decide_eq_false_iff_not, map_toLower_printD]
  intro heq
  obtain ⟨b, hb, hdigit⟩ := h
  have hmem : toLower b ∈ printD k := by
    rw [← heq]
    exact List.mem_map_of_mem hb
  exact hdigit (isDigit_of_mem_printD hmem)

theorem sameName_printD {i k : Nat} (hi : i < 10 ^ 10) (hk : k < 10 ^ 10) :
    sameName (printD i) (printD k) = decide (i = k) := by
  rw [sameName, map_toLower_printD, map_toLower_printD, decide_eq_decide]
  exact ⟨printD_inj hi hk, fun h => by rw [h]⟩

/-! ### Plain texts -/

def IsPlain (b : UInt8) : Prop := b ≠ 0 ∧ b ≠ 10 ∧ b ≠ 13

instance : DecidablePred IsPlain := fun _ => inferInstanceAs (Decidable (_ ∧ _ ∧ _))

theorem isPlain_of_isDigit (h : Decimal.isDigit b) : IsPlain b := by
  refine ⟨?_, ?_, ?_⟩ <;> (intro heq; subst heq; exact absurd h (by decide))

structure ItemText where
  key : Bytes
  val : Bytes

def ItemText.line (t : ItemText) : Bytes := t.key ++ 61 :: t.val

def ItemText.item (t : ItemText) : Item := ⟨strTrim t.key, strTrim t.val⟩

structure ItemText.WellFormed (t : ItemText) : Prop where
  plain : ∀ b ∈ t.key ++ t.val, IsPlain b
  closed : 61 ∉ t.key
  named : strTrim t.key ≠ []
  start : ∀ b ∈ t.key.head?, b ≠ 35 ∧ b ≠ 59 ∧ b ≠ 91

structure SectionText where
  name : Bytes
  items : List ItemText

def SectionText.header (s : SectionText) : Bytes := 91 :: (s.name ++ [93])

def SectionText.lines (s : SectionText) : List Bytes := s.header :: s.items.map ItemText.line

def SectionText.toSection (s : SectionText) : Section := ⟨s.name, s.items.map ItemText.item⟩

structure SectionText.WellFormed (s : SectionText) : Prop where
  plain : ∀ b ∈ s.name, IsPlain b
  named : s.name ≠ []
  items : ∀ t ∈ s.items, t.WellFormed

def render (secs : List SectionText) : Bytes :=
  (secs.flatMap SectionText.lines).flatMap fun line => line ++ [10]

theorem ItemText.WellFormed.isPlain_line {t : ItemText} (ht : t.WellFormed) : ∀ b ∈ t.line, IsPlain b := by
  intro b hb
  rw [ItemText.line, List.mem_append, List.mem_cons] at hb
  rcases hb with hb | rfl | hb
  · exact ht.plain b (List.mem_append_left _ hb)
  · decide
  · exact ht.plain b (List.mem_append_right _ hb)

theorem SectionText.WellFormed.isPlain_lines {s : SectionText} (hs : s.WellFormed) {line : Bytes}
    (h : line ∈ s.lines) : ∀ b ∈ line, IsPlain b := by
  rw [SectionText.lines, List.mem_cons, List.mem_map] at h
  rcases h with rfl | ⟨t, ht, rfl⟩
  · intro b hb
    rw [SectionText.header, List.mem_cons, List.mem_append, List.mem_singleton] at hb
    rcases hb with rfl | hb | rfl
    · decide
    · exact hs.plain b hb
    · decide
  · exact (hs.items t ht).isPlain_line

theorem splitOn_lines {ls : List Bytes} (h : ∀ l ∈ ls, ∀ b ∈ l, IsPlain b) :
    (ls.flatMap fun line => line ++ [10]).splitOn 10 = ls ++ [[]] := by
  induction ls with
  | nil => rfl
  | cons l ls ih =>
    have hl : ∀ b ∈ l, (b == (10 : UInt8)) = false := fun b hb => by
      simpa using (h l List.mem_cons_self b hb).2.1
    have hrest := ih fun l' hl' => h l' (List.mem_cons_of_mem _ hl')
    rw [List.splitOn] at hrest ⊢
    rw [List.flatMap_cons, List.append_assoc, List.singleton_append,
      List.splitOnP_append_cons_of_forall_mem hl 10 (by decide), hrest]
    rfl

theorem chopCr_of_plain {line : Bytes} (h : ∀ b ∈ line, IsPlain b) : chopCr line = line := by
  rw [chopCr, if_neg]
  intro hlast
  exact (h 13 (List.mem_of_getLast? hlast)).2.2 rfl

theorem lines_flatMap {ls : List Bytes} (h : ∀ l ∈ ls, ∀ b ∈ l, IsPlain b) :
    lines (ls.flatMap fun line => line ++ [10]) = ls ++ [[]] := by
  have htext : ∀ b ∈ ls.flatMap fun line => line ++ [10], decide (b ≠ 0) = true := by
    intro b hb
    obtain ⟨l, hl, hb⟩ := List.mem_flatMap.mp hb
    rw [List.mem_append, List.mem_singleton] at hb
    rcases hb with hb | rfl
    · simpa using (h l hl b hb).1
    · decide
  have hchop : ls.map chopCr = ls.map id :=
    List.map_congr_left fun l hl => chopCr_of_plain (h l hl)
  simp only [lines, List.takeWhile_eq_self_iff.mpr htext, splitOn_lines h, List.dropLast_concat,
    List.getLast?_concat, hchop, List.map_id, Option.toList_some]

/-! ### What a plain text is read as -/

namespace Reader

variable {r : Reader}

theorem isErr_readSection (h : r.isErr) (rest : Bytes) : (r.readSection rest).isErr := by
  unfold readSection
  by_cases hshort : rest.length ≤ 1
  · rw [if_pos hshort]
    exact h
  · rw [if_neg hshort]
    by_cases hfull : r.sections.length ≥ sectionCount
    · rw [if_pos hfull]
      rfl
    · rw [if_neg hfull]
      exact h

theorem isErr_readItem (h : r.isErr) (line : Bytes) : (r.readItem line).isErr := by
  unfold readItem
  split
  · rfl
  · dsimp only
    split_ifs
    · rfl
    · exact h
    · rfl
    · exact h

theorem isErr_readLine (h : r.isErr) (line : Bytes) : (r.readLine line).isErr := by
  unfold readLine
  split
  · exact h
  · split_ifs
    · exact h
    · exact isErr_readSection h _
    · exact isErr_readItem h _

theorem isErr_foldl (h : r.isErr) (ls : List Bytes) : (ls.foldl readLine r).isErr := by
  induction ls generalizing r with
  | nil => exact h
  | cons line ls ih => exact ih (isErr_readLine h line)

theorem readLine_header (r : Reader) {s : SectionText} (hs : s.WellFormed) : r.readLine s.header
      = if r.sections.length ≥ sectionCount then r.fail
        else { r with sections := r.sections ++ [⟨s.name, []⟩] } := by
  have hlen : ¬(s.name ++ [93]).length ≤ 1 := by
    have := List.length_pos_of_ne_nil hs.named
    simp only [List.length_append, List.length_singleton]
    omega
  simp [readLine, SectionText.header, readSection, -List.length_append, hlen]

theorem readLine_item (secs : List Section) (s : Section) {t : ItemText} (ht : t.WellFormed) :
    Reader.readLine ⟨secs ++ [s], false⟩ t.line = if s.items.length ≥ itemCount then ⟨secs ++ [s], true⟩
        else ⟨secs ++ [{ s with items := s.items ++ [t.item] }], false⟩ := by
  have hkey : ∀ b ∈ t.key, decide (b ≠ 61) = true := by
    intro b hb
    rw [decide_eq_true_eq]
    rintro rfl
    exact ht.closed hb
  have hne : t.key ≠ [] := fun h => ht.named (by rw [h]; rfl)
  obtain ⟨b, rest, hcons⟩ := List.exists_cons_of_ne_nil hne
  obtain ⟨h35, h59, h91⟩ := ht.start b (by simp [hcons])
  have hlen : ¬t.line.length ≤ 1 := by
    simp [ItemText.line, hcons]
  have hbranch : Reader.readLine ⟨secs ++ [s], false⟩ t.line = Reader.readItem ⟨secs ++ [s], false⟩ t.line := by
    simp [ItemText.line, hcons, readLine, h35, h59, h91]
  have hmem : 61 ∈ t.line := by simp [ItemText.line]
  have htake : t.line.takeWhile (fun b => decide (b ≠ 61)) = t.key := by
    rw [ItemText.line, List.takeWhile_append_of_pos hkey, List.takeWhile_cons_of_neg (by simp), List.append_nil]
  have hdrop : t.line.dropWhile (fun b => decide (b ≠ 61)) = 61 :: t.val := by
    rw [ItemText.line, List.dropWhile_append_of_pos hkey, List.dropWhile_cons_of_neg (by simp)]
  rw [hbranch]
  simp only [readItem, List.getLast?_concat, List.dropLast_concat, htake, hdrop, List.drop_one,
    List.tail_cons, hlen, hmem, not_true_eq_false, or_self, if_false, ht.named, fail]
  rfl

theorem foldl_items (secs : List Section) (s : Section) {ts : List ItemText}
    (hts : ∀ t ∈ ts, t.WellFormed) (h : s.items.length + ts.length ≤ itemCount) :
    (ts.map ItemText.line).foldl readLine ⟨secs ++ [s], false⟩
      = ⟨secs ++ [{ s with items := s.items ++ ts.map ItemText.item }], false⟩ := by
  induction ts generalizing s with
  | nil => simp
  | cons t ts ih =>
    obtain ⟨ht, hts⟩ := List.forall_mem_cons.mp hts
    rw [List.length_cons] at h
    rw [List.map_cons, List.foldl_cons, readLine_item secs s ht, if_neg (by omega)]
    rw [ih _ hts (by simp only [List.length_append, List.length_singleton]; omega)]
    simp

theorem isErr_foldl_items (secs : List Section) (s : Section) {ts : List ItemText}
    (hts : ∀ t ∈ ts, t.WellFormed) (hs : s.items.length ≤ itemCount) (h : itemCount < s.items.length + ts.length) :
    ((ts.map ItemText.line).foldl readLine ⟨secs ++ [s], false⟩).isErr := by
  induction ts generalizing s with
  | nil =>
    simp only [List.length_nil] at h
    omega
  | cons t ts ih =>
    obtain ⟨ht, hts⟩ := List.forall_mem_cons.mp hts
    rw [List.length_cons] at h
    rw [List.map_cons, List.foldl_cons, readLine_item secs s ht]
    split_ifs with hfull
    · exact isErr_foldl rfl _
    · apply ih _ hts
      · simp only [List.length_append, List.length_singleton]
        omega
      · simp only [List.length_append, List.length_singleton]
        omega

theorem foldl_sections (done : List Section) {secs : List SectionText}
    (hsecs : ∀ s ∈ secs, s.WellFormed) (hcount : done.length + secs.length ≤ sectionCount)
    (hitems : ∀ s ∈ secs, s.items.length ≤ itemCount) :
    (secs.flatMap SectionText.lines).foldl readLine ⟨done, false⟩
      = ⟨done ++ secs.map SectionText.toSection, false⟩ := by
  induction secs generalizing done with
  | nil => simp
  | cons s secs ih =>
    obtain ⟨hs, hsecs⟩ := List.forall_mem_cons.mp hsecs
    rw [List.length_cons] at hcount
    rw [List.flatMap_cons, List.foldl_append, SectionText.lines, List.foldl_cons, readLine_header _ hs,
      if_neg (by simp only; omega),
      foldl_items _ _ hs.items (by simpa using hitems s List.mem_cons_self)]
    rw [ih _ hsecs (by simp only [List.length_append, List.length_singleton]; omega)
      fun s' hs' => hitems s' (List.mem_cons_of_mem _ hs')]
    simp [SectionText.toSection]

theorem isErr_foldl_sections (done : List Section) {secs : List SectionText} (hsecs : ∀ s ∈ secs, s.WellFormed)
    (h : ¬(done.length + secs.length ≤ sectionCount ∧ ∀ s ∈ secs, s.items.length ≤ itemCount))
    (hdone : done.length ≤ sectionCount) :
    ((secs.flatMap SectionText.lines).foldl readLine ⟨done, false⟩).isErr := by
  induction secs generalizing done with
  | nil => simp [hdone] at h
  | cons s secs ih =>
    obtain ⟨hwf, hsecs⟩ := List.forall_mem_cons.mp hsecs
    rw [List.flatMap_cons, List.foldl_append, SectionText.lines, List.foldl_cons, readLine_header _ hwf]
    split_ifs with hfull
    · exact isErr_foldl (isErr_foldl rfl _) _
    · by_cases hs : s.items.length ≤ itemCount
      · rw [foldl_items _ _ hwf.items (by simpa using hs)]
        apply ih _ hsecs
        · intro hrest
          apply h
          simp only [List.length_append, List.length_singleton] at hrest
          refine ⟨?_, ?_⟩
          · rw [List.length_cons]
            omega
          · intro s' hs'
            rcases List.mem_cons.mp hs' with rfl | hs'
            · exact hs
            · exact hrest.2 s' hs'
        · simp only [List.length_append, List.length_singleton]
          simp only at hfull
          omega
      · exact isErr_foldl (isErr_foldl_items _ _ hwf.items (by simp) (by simpa using hs)) _

end Reader

theorem iniOpen2_render {secs : List SectionText} (hsecs : ∀ s ∈ secs, s.WellFormed) : iniOpen2 (render secs)
      = if secs.length ≤ sectionCount ∧ ∀ s ∈ secs, s.items.length ≤ itemCount then
          some (secs.map SectionText.toSection)
        else none := by
  have hplain : ∀ l ∈ secs.flatMap SectionText.lines, ∀ b ∈ l, IsPlain b := by
    intro l hl
    obtain ⟨s, hs, hl⟩ := List.mem_flatMap.mp hl
    exact (hsecs s hs).isPlain_lines hl
  have hfold : (lines (render secs)).foldl Reader.readLine ⟨[], false⟩
      = (secs.flatMap SectionText.lines).foldl Reader.readLine ⟨[], false⟩ := by
    rw [render, lines_flatMap hplain, List.foldl_append]
    rfl
  rw [iniOpen2, hfold]
  by_cases hfit : secs.length ≤ sectionCount ∧ ∀ s ∈ secs, s.items.length ≤ itemCount
  · rw [if_pos hfit, Reader.foldl_sections _ hsecs (by simpa using hfit.1) hfit.2]
    simp
  · have herr := Reader.isErr_foldl_sections [] hsecs (by simpa using hfit) (by simp)
    rw [if_neg hfit, if_pos herr]

theorem iniFindInSection_cons (sec name key val : Bytes) (items : List Item) :
    iniFindInSection ⟨sec, ⟨key, val⟩ :: items⟩ name
      = if sameName key name then some val else iniFindInSection ⟨sec, items⟩ name := by
  by_cases h : sameName key name
  · simp [iniFindInSection, h]
  · simp [iniFindInSection, h]

theorem iniGetInt_of_printD {ini : Ini} {sec name : Bytes} (h : n < 2 ^ 31)
    (hget : iniGetString ini sec name = some (printD n)) (dflt : Int) :
    iniGetInt ini sec name dflt = n := by
  have hne := printD_ne_nil (show n < 10 ^ 10 by omega)
  obtain ⟨b, rest, hcons⟩ := List.exists_cons_of_ne_nil hne
  have hb : Decimal.isDigit b := isDigit_of_mem_printD (by rw [hcons]; exact List.mem_cons_self)
  rw [iniGetInt, hget, hcons]
  simp only [hb, or_true, if_true]
  rw [← hcons, atoi_printD h]

end HustStore.Appini
