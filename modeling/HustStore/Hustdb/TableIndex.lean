import HustStore.Hustdb.Table
import Mathlib.Data.List.GetD

/-!
# The table index as a map

The names of tables consist of letters, digits and three other characters, and no type byte is among them. The
index finds the statistics of a table under its name.
-/

namespace HustStore

/-! ### Names and type bytes -/

theorem isNameChar_code (type : TableType) : isNameChar type.code = false := by
  cases type <;> decide

theorem forall_isNameChar {name : Bytes} (h : tbNameCheck name) : ∀ b ∈ name, isNameChar b := by
  unfold tbNameCheck at h
  rw [Bool.and_eq_true, List.all_eq_true] at h
  exact h.2

theorem takeWhile_name {name : Bytes} (h : tbNameCheck name) (type : TableType) (rest : Bytes) :
    (name ++ type.code :: rest).takeWhile isNameChar = name := by
  rw [List.takeWhile_append_of_pos (forall_isNameChar h),
    List.takeWhile_cons_of_neg (by rw [isNameChar_code]; simp), List.append_nil]

theorem name_append_inj {name name' : Bytes} (h : tbNameCheck name) (h' : tbNameCheck name')
    {type type' : TableType} {rest rest' : Bytes}
    (heq : name ++ type.code :: rest = name' ++ type'.code :: rest') :
    name = name' ∧ type.code = type'.code ∧ rest = rest' := by
  have hname := congrArg (List.takeWhile isNameChar) heq
  rw [takeWhile_name h, takeWhile_name h'] at hname
  subst hname
  obtain ⟨hcode, hrest⟩ := List.cons.inj (List.append_cancel_left heq)
  exact ⟨rfl, hcode, hrest⟩

namespace Tables

variable {ts : Tables} {i j : Nat} {t : TableStat} {name other : Bytes} {type : TableType}

/-! ### Records in use -/

/-- The record at `i` is that of the table. The first two records are not for tables. -/
structure InUse (ts : Tables) (name : Bytes) (i : Nat) : Prop where
  two_le : 2 ≤ i
  flag : (ts.stat i).flag = true
  table : (ts.stat i).table = name

theorem InUse.lt_length (h : ts.InUse name i) : i < ts.length := by
  by_contra hle
  have hflag := h.flag
  rw [stat, List.getD_eq_default _ _ (Nat.not_lt.mp hle)] at hflag
  cases hflag

theorem stat_add_two (hlt : j < (ts.drop 2).length) : ts.stat (j + 2) = (ts.drop 2)[j] := by
  have hlt' := hlt
  rw [List.length_drop] at hlt'
  rw [stat, List.getD_eq_getElem _ _ (by omega), List.getElem_drop]
  congr 1
  omega

theorem inUse_of_find (h : ts.find name = some i) : ts.InUse name i := by
  obtain ⟨j, hj, rfl⟩ := Option.map_eq_some_iff.mp h
  obtain ⟨hlt, hholds, -⟩ := List.findIdx?_eq_some_iff_getElem.mp hj
  rw [← stat_add_two hlt, Bool.and_eq_true, decide_eq_true_eq] at hholds
  exact ⟨by omega, hholds.1, hholds.2⟩

theorem find_eq_none_iff : ts.find name = none ↔ ∀ i, ¬ts.InUse name i := by
  constructor
  · intro hnone i hi
    have hlt := hi.lt_length
    obtain ⟨j, rfl⟩ := Nat.exists_eq_add_of_le' hi.two_le
    have hall := List.findIdx?_eq_none_iff.mp (Option.map_eq_none_iff.mp hnone)
    have hdrop : j < (ts.drop 2).length := by
      rw [List.length_drop]
      omega
    have hnot := hall _ (List.getElem_mem hdrop)
    rw [← stat_add_two hdrop, hi.flag, hi.table] at hnot
    simp at hnot
  · intro hnone
    cases hfind : ts.find name with
    | none => rfl
    | some i => exact absurd (inUse_of_find hfind) (hnone i)

/-- No table has two records. -/
def Distinct (ts : Tables) : Prop := ∀ name i j, ts.InUse name i → ts.InUse name j → i = j

theorem find_eq_some (hunique : ∀ j, ts.InUse name j → j = i) (h : ts.InUse name i) : ts.find name = some i := by
  cases hfind : ts.find name with
  | none => exact absurd h (find_eq_none_iff.mp hfind i)
  | some j => rw [hunique j (inUse_of_find hfind)]

theorem Distinct.find_iff (h : ts.Distinct) : ts.find name = some i ↔ ts.InUse name i :=
  ⟨inUse_of_find, fun hi => find_eq_some (fun _ hj => h name _ _ hj hi) hi⟩

def entry (ts : Tables) (name : Bytes) : Option TableStat := (ts.find name).map ts.stat

theorem Distinct.entry_eq_some (h : ts.Distinct) : ts.entry name = some t ↔ ∃ i, ts.InUse name i ∧ ts.stat i = t := by
  simp only [entry, Option.map_eq_some_iff, h.find_iff]

theorem entry_eq_none : ts.entry name = none ↔ ∀ i, ¬ts.InUse name i :=
  Option.map_eq_none_iff.trans find_eq_none_iff

theorem not_inUse_create {maximum : Nat} : ¬(create maximum).InUse name i := by
  intro hi
  have hflag := hi.flag
  have hreset : stat (create maximum) i = .reset := by
    rw [stat, create, List.getD_eq_getElem?_getD, List.getElem?_replicate]
    split_ifs <;> rfl
  rw [hreset] at hflag
  cases hflag

theorem distinct_create (maximum : Nat) : (create maximum).Distinct :=
  fun _ _ _ hi => absurd hi not_inUse_create

/-! ### Writing a record -/

theorem stat_set_self (hi : i < ts.length) : stat (ts.set i t) i = t := by
  rw [stat, List.getD_eq_getElem _ _ (by rwa [List.length_set]), List.getElem_set_self]

theorem stat_set_of_ne (hne : i ≠ j) : stat (ts.set i t) j = ts.stat j := by
  rw [stat, List.getD_eq_getElem?_getD, List.getElem?_set_ne hne, ← List.getD_eq_getElem?_getD, stat]

theorem inUse_set_of_ne (hne : i ≠ j) : InUse (ts.set i t) name j ↔ ts.InUse name j := by
  constructor
  · rintro ⟨hle, hflag, htable⟩
    rw [stat_set_of_ne hne] at hflag htable
    exact ⟨hle, hflag, htable⟩
  · rintro ⟨hle, hflag, htable⟩
    refine ⟨hle, ?_, ?_⟩
    · rwa [stat_set_of_ne hne]
    · rwa [stat_set_of_ne hne]

theorem find_set_low (hi : i < 2) : find (ts.set i t) name = ts.find name := by
  rw [find, List.drop_set_of_lt hi, find]

theorem entry_set_low (hi : i < 2) : entry (ts.set i t) name = ts.entry name := by
  rw [entry, find_set_low hi, entry]
  cases hfind : ts.find name with
  | none => rfl
  | some j =>
    have hj := (inUse_of_find hfind).two_le
    rw [Option.map_some, Option.map_some, stat_set_of_ne (by omega)]

theorem Distinct.set_low (h : ts.Distinct) (hi : i < 2) : Distinct (ts.set i t) := by
  intro name j k hj hk
  have hjle := hj.two_le
  have hkle := hk.two_le
  exact h name j k ((inUse_set_of_ne (by omega)).mp hj) ((inUse_set_of_ne (by omega)).mp hk)

/-- A record that can be written for the table without making a second one of it. -/
structure Writable (ts : Tables) (name : Bytes) (i : Nat) : Prop where
  two_le : 2 ≤ i
  lt_length : i < ts.length
  own : (ts.stat i).flag = true → (ts.stat i).table = name
  unique : ∀ j, ts.InUse name j → j = i

theorem Distinct.writable (h : ts.Distinct) (hi : ts.InUse name i) : ts.Writable name i :=
  ⟨hi.two_le, hi.lt_length, fun _ => hi.table, fun _ hj => h name _ _ hj hi⟩

section

variable (h : ts.Writable name i)
include h

theorem Writable.inUse_other (ht : t.flag = true → t.table = name)
    (hne : other ≠ name) : InUse (ts.set i t) other j ↔ ts.InUse other j ∧ j ≠ i := by
  by_cases hji : j = i
  · subst hji
    refine iff_of_false (fun hj => ?_) fun hj => hj.2 rfl
    have hflag := hj.flag
    have htable := hj.table
    rw [stat_set_self h.lt_length] at hflag htable
    exact hne (htable.symm.trans (ht hflag))
  · rw [inUse_set_of_ne (Ne.symm hji), and_iff_left hji]

theorem Writable.not_inUse_other (hne : other ≠ name) : ¬ts.InUse other i :=
  fun hi => hne (hi.table.symm.trans (h.own hi.flag))

theorem Writable.inUse_self (hj : InUse (ts.set i t) name j) : j = i := by
  by_contra hne
  exact hne (h.unique j ((inUse_set_of_ne (Ne.symm hne)).mp hj))

theorem Writable.distinct (hts : ts.Distinct) (ht : t.flag = true → t.table = name) : Distinct (ts.set i t) := by
  intro other j k hj hk
  by_cases hne : other = name
  · subst hne
    rw [h.inUse_self hj, h.inUse_self hk]
  · exact hts other j k ((h.inUse_other ht hne).mp hj).1 ((h.inUse_other ht hne).mp hk).1

theorem Writable.entry_other (hts : ts.Distinct) (ht : t.flag = true → t.table = name) (hne : other ≠ name) :
    entry (ts.set i t) other = ts.entry other := by
  ext u
  rw [(h.distinct hts ht).entry_eq_some, hts.entry_eq_some]
  apply exists_congr
  intro j
  rw [h.inUse_other ht hne]
  constructor
  · rintro ⟨⟨hj, hji⟩, hstat⟩
    exact ⟨hj, by rwa [stat_set_of_ne (Ne.symm hji)] at hstat⟩
  · rintro ⟨hj, hstat⟩
    have hji : j ≠ i := by
      rintro rfl
      exact h.not_inUse_other hne hj
    exact ⟨⟨hj, hji⟩, by rwa [stat_set_of_ne (Ne.symm hji)]⟩

theorem Writable.inUse_set (hflag : t.flag = true) (htable : t.table = name) :
    InUse (ts.set i t) name i :=
  ⟨h.two_le, by rwa [stat_set_self h.lt_length], by rwa [stat_set_self h.lt_length]⟩

theorem Writable.find_set (hflag : t.flag = true) (htable : t.table = name) : find (ts.set i t) name = some i :=
  find_eq_some (fun _ => h.inUse_self) (h.inUse_set hflag htable)

theorem Writable.entry_set (hflag : t.flag = true) (htable : t.table = name) : entry (ts.set i t) name = some t := by
  rw [entry, h.find_set hflag htable, Option.map_some, stat_set_self h.lt_length]

theorem Writable.entry_reset : entry (ts.set i .reset) name = none := by
  refine entry_eq_none.mpr fun j hj => ?_
  have hflag := hj.flag
  rw [h.inUse_self hj, stat_set_self h.lt_length] at hflag
  cases hflag

end

/-! ### Opening a table -/

theorem findTableOffset_cases (ts : Tables) (name : Bytes) (type : TableType) :
    ((ts.findTableOffset name true type).2 = ts ∧
        ∀ i, (ts.findTableOffset name true type).1 = some i → ts.find name = some i ∧
          (type = .commonTb ∨ (ts.stat i).type = type)) ∨
      ts.entry name = none ∧ ∃ i, ts.Writable name i ∧
        ts.findTableOffset name true type = (some i, ts.set i ⟨0, 0, 0, true, type, name⟩) := by
  unfold findTableOffset
  cases hfind : ts.find name with
  | some i =>
    refine .inl ⟨rfl, fun j hj => ?_⟩
    dsimp only at hj
    split_ifs at hj with hother
    cases hj
    refine ⟨rfl, ?_⟩
    by_contra hnot
    exact hother (not_or.mp hnot)
  | none =>
    simp only [Bool.not_true, Bool.false_eq_true, if_false]
    cases hfree : (ts.drop 2).findIdx? fun t => !t.flag with
    | none => exact .inl ⟨rfl, fun i hi => by cases hi⟩
    | some i =>
      obtain ⟨hlt, hunused, -⟩ := List.findIdx?_eq_some_iff_getElem.mp hfree
      have hnone := find_eq_none_iff.mp hfind
      refine .inr ⟨entry_eq_none.mpr hnone, i + 2, ⟨by omega, ?_, ?_, ?_⟩, rfl⟩
      · have hlt' := hlt
        rw [List.length_drop] at hlt'
        omega
      · intro hflag
        rw [← stat_add_two hlt, hflag] at hunused
        cases hunused
      · exact fun j hj => absurd hj (hnone j)

theorem find_of_findTableOffset {create : Bool} (htype : type ≠ .commonTb)
    (h : (ts.findTableOffset name create type).1 = some i) :
    find (ts.findTableOffset name create type).2 name = some i ∧
      (stat (ts.findTableOffset name create type).2 i).type = type := by
  cases create with
  | true =>
    rcases findTableOffset_cases ts name type with ⟨hsame, hfound⟩ | ⟨-, j, hwritable, heq⟩
    · obtain ⟨hfind, hcommon | hstat⟩ := hfound i h
      · exact absurd hcommon htype
      · rw [hsame]
        exact ⟨hfind, hstat⟩
    · rw [heq] at h ⊢
      cases h
      refine ⟨hwritable.find_set rfl rfl, ?_⟩
      rw [stat_set_self hwritable.lt_length]
  | false =>
    unfold findTableOffset at h ⊢
    cases hfind : ts.find name with
    | none =>
      rw [hfind] at h
      cases h
    | some j =>
      rw [hfind] at h
      dsimp only at h ⊢
      split_ifs at h with hother
      cases h
      refine ⟨hfind, ?_⟩
      by_contra hne
      exact hother ⟨htype, hne⟩

/-! ### Counting members -/

section

variable (t : TableStat) (count size : Int)

@[simp] theorem add_count : (add t count size).count = t.count + count := by
  unfold add
  split_ifs <;> rfl

@[simp] theorem add_size : (add t count size).size = t.size + size := by
  unfold add
  split_ifs with hsize
  · rw [hsize, Int.add_zero]
  · rfl

@[simp] theorem add_capacity : (add t count size).capacity = t.capacity + pagesOf size := by
  unfold add
  split_ifs with hsize
  · rw [hsize]
    exact (Int.add_zero _).symm
  · rfl

@[simp] theorem add_flag : (add t count size).flag = t.flag := by
  unfold add
  split_ifs <;> rfl

@[simp] theorem add_type : (add t count size).type = t.type := by
  unfold add
  split_ifs <;> rfl

@[simp] theorem add_table : (add t count size).table = t.table := by
  unfold add
  split_ifs <;> rfl

end

theorem pagesOf_neg (z : Int) : pagesOf (-z) = -pagesOf z := by
  unfold pagesOf statPage
  dsimp only
  rw [Int.natAbs_neg]
  split_ifs <;> omega

theorem setTableMeta_zero (ts : Tables) (count size : Int) :
    ts.setTableMeta 0 count size = ts.set 0 (add (ts.stat 0) count size) := by
  unfold setTableMeta
  rw [if_neg (by simp), if_neg (by simp)]

theorem setTableMeta_cases (ts : Tables) (i : Nat) (count size : Int) :
    ∃ summed : Tables, (summed = ts.set i (add (ts.stat i) count size) ∨
        ∃ t, summed = List.set (ts.set i (add (ts.stat i) count size)) 1 t) ∧
      ts.setTableMeta i count size =
        if (summed.stat i).count ≤ 0 ∧ i ≥ 2 ∧ (summed.find (summed.stat i).table).isSome then
          summed.set i .reset
        else summed := by
  refine ⟨_, ?_, rfl⟩
  split_ifs
  · exact .inr ⟨_, rfl⟩
  · exact .inl rfl

theorem Distinct.setTableMeta (h : ts.Distinct) (hi : ts.find name = some i) (count size : Int) :
    (ts.setTableMeta i count size).Distinct ∧ (ts.setTableMeta i count size).entry name =
        (if (ts.stat i).count + count ≤ 0 then none else some (add (ts.stat i) count size)) ∧
      ∀ other, other ≠ name → (ts.setTableMeta i count size).entry other = ts.entry other := by
  have hinUse := inUse_of_find hi
  have hle := hinUse.two_le
  have hwritable := h.writable hinUse
  have hflag : (add (ts.stat i) count size).flag = true := by rw [add_flag, hinUse.flag]
  have htable : (add (ts.stat i) count size).table = name := by rw [add_table, hinUse.table]
  obtain ⟨summed, hsummed, heq⟩ := setTableMeta_cases ts i count size
  have hdistinct : summed.Distinct := by
    rcases hsummed with rfl | ⟨t, rfl⟩
    · exact hwritable.distinct h fun _ => htable
    · exact (hwritable.distinct h fun _ => htable).set_low (by omega)
  have hstat : summed.stat i = add (ts.stat i) count size := by
    rcases hsummed with rfl | ⟨t, rfl⟩
    · exact stat_set_self hwritable.lt_length
    · rw [stat_set_of_ne (by omega), stat_set_self hwritable.lt_length]
  have hfind : summed.find name = some i := by
    rcases hsummed with rfl | ⟨t, rfl⟩
    · exact hwritable.find_set hflag htable
    · rw [find_set_low (by omega), hwritable.find_set hflag htable]
  have hentry (other : Bytes) (hne : other ≠ name) : summed.entry other = ts.entry other := by
    rcases hsummed with rfl | ⟨t, rfl⟩
    · exact hwritable.entry_other h (fun _ => htable) hne
    · rw [entry_set_low (by omega), hwritable.entry_other h (fun _ => htable) hne]
  rw [heq, hstat, htable, hfind, add_count]
  by_cases hcount : (ts.stat i).count + count ≤ 0
  · have hreset := hdistinct.writable (inUse_of_find hfind)
    have hfree : TableStat.reset.flag = true → TableStat.reset.table = name := fun hflag => by cases hflag
    rw [if_pos ⟨hcount, hle, rfl⟩, if_pos hcount]
    refine ⟨hreset.distinct hdistinct hfree, hreset.entry_reset, fun other hne => ?_⟩
    rw [hreset.entry_other hdistinct hfree hne, hentry other hne]
  · rw [if_neg fun hall => hcount hall.1, if_neg hcount]
    refine ⟨hdistinct, ?_, hentry⟩
    rw [entry, hfind, Option.map_some, hstat]

end Tables

end HustStore
