import HustStore.Hustdb.Contents
import HustStore.Md5db.Listing

/-!
# The listings of the server

`hkeys` and `smembers` walk over the entries of a table in its listing file, `keys` over a whole file, and
`export` writes the whole walk.
-/

namespace HustStore

open Md5db

/-! ### Tables of the server -/

theorem ServerTable.length_ne {t : Bytes} (h : ServerTable t) : t.length ≠ 1 := by
  have hpos {name : Bytes} (check : tbNameCheck name) : 0 < name.length :=
    List.length_pos_iff.mpr (ne_nil_of_check check)
  cases h with
  | plain => simp
  | typed check _ =>
    have := hpos check
    simp only [List.length_append, List.length_singleton]
    omega
  | index score check =>
    have := hpos check
    simp only [List.length_append, List.length_cons]
    omega

def TableType.IsListed (type : TableType) : Prop := type = .hashTb ∨ type = .setTb

variable {type : TableType}

theorem TableType.IsListed.isMember (h : type.IsListed) : type.IsMember :=
  h.imp_right .inl

theorem ServerTable.eq_or_nil {t name : Bytes} (h : ServerTable t)
    (htype : type.IsListed) (hcheck : tbNameCheck name) {rest : Bytes}
    (hbegins : name ++ [type.code] <+: t ++ rest) : t = name ++ [type.code] ∨ t = [] := by
  obtain ⟨more, heq⟩ := hbegins
  cases h with
  | plain => exact .inr rfl
  | @typed name' type' check _ =>
    rw [List.append_assoc, List.append_assoc, List.singleton_append, List.singleton_append] at heq
    obtain ⟨rfl, hcode, -⟩ := name_append_inj hcheck check heq
    exact .inl (by rw [hcode])
  | @index name' score check =>
    rw [List.append_assoc, List.append_assoc, List.singleton_append, List.cons_append] at heq
    obtain ⟨-, hcode, -⟩ := name_append_inj hcheck check heq
    rcases htype with rfl | rfl <;> exact absurd hcode (by decide)

variable {name : Bytes} {used : Set Address}

theorem apart_served (htype : type.IsListed)
    (hcheck : tbNameCheck name) : Db.Apart (served used) (name ++ [type.code]) where
  ne_nil := by simp
  length_ne a ha := ha.2.length_ne
  eq_or_nil a ha b hbegins := ha.2.eq_or_nil htype hcheck hbegins

theorem getElem?_name_ne (hcheck : tbNameCheck name) (rest : Bytes) {i : Nat}
    (hi : i < name.length) : (name ++ rest)[i]? ≠ some zsetTb := by
  rw [List.getElem?_append_left hi]
  intro heq
  have hchar := forall_isNameChar hcheck zsetTb (List.mem_of_getElem? heq)
  exact absurd hchar (by decide)

variable {md5 : Bytes → InnerKey}

theorem fileOf_typed (db : Db) (hcheck : tbNameCheck name) {a : Address} (ha : a.table = name ++ [type.code]) :
    db.fileOf md5 a = db.data.hashWithMd5db (name ++ [type.code]) := by
  have hlength : (name ++ [type.code]).length = name.length + 1 := by simp
  have hscore : zsetScoreLen = 21 := rfl
  have hne : name ++ [type.code] ≠ [] := by simp
  have hplain : ¬((name ++ [type.code]).length > zsetScoreLen ∧
      (name ++ [type.code])[(name ++ [type.code]).length - zsetScoreLen - 1]? = some zsetTb) := by
    rintro ⟨hlong, hzset⟩
    exact getElem?_name_ne hcheck _ (by omega) hzset
  unfold Db.fileOf Db.hashCtxt
  simp only [ha, if_neg hne, if_neg hplain]

/-! ### What is printed beside a record -/

open KvArray Db

theorem length_printLi21 (z : Int) : (printLi21 z).length = zsetScoreLen := by
  unfold printLi21 Decimal.printField
  split_ifs <;> simp [zsetScoreLen]

theorem not_scored (hcheck : tbNameCheck name) (type : TableType) (b : BlockId) :
    ¬((listingKey (name ++ [type.code]) b).length > zsetScoreLen + blockIdBytes + 1 ∧
      (listingKey (name ++ [type.code]) b)[(listingKey (name ++ [type.code]) b).length - zsetScoreLen -
        blockIdBytes - 1]? = some zsetTb) := by
  have hscore : zsetScoreLen = 21 := rfl
  rw [length_listingKey, List.length_append, List.length_singleton]
  rintro ⟨hlong, hzset⟩
  rw [listingKey, List.append_assoc] at hzset
  exact getElem?_name_ne hcheck _ (by omega) hzset

theorem getElem?_listingKey (name : Bytes) (type : TableType) (b : BlockId) :
    (listingKey (name ++ [type.code]) b)[name.length]? = some type.code := by
  rw [listingKey, List.append_assoc, List.getElem?_append_right (Nat.le_refl _), Nat.sub_self]
  rfl

theorem listingType_typed (hcheck : tbNameCheck name) (type : TableType) (b : BlockId) :
    listingType (listingKey (name ++ [type.code]) b) = some type.code := by
  have hlength : (listingKey (name ++ [type.code]) b).length = name.length + 1 + blockIdBytes := by
    rw [length_listingKey, List.length_append, List.length_singleton]
  unfold listingType
  rw [if_pos (by omega), if_neg (not_scored hcheck type b), hlength, Nat.add_sub_cancel, Nat.add_sub_cancel]
  exact getElem?_listingKey name type b

theorem listingLabel_typed (hcheck : tbNameCheck name) (type : TableType) (b : BlockId) :
    listingLabel (listingKey (name ++ [type.code]) b) = some (name, realTableType type.code) := by
  have hlength : (listingKey (name ++ [type.code]) b).length = name.length + 1 + blockIdBytes := by
    rw [length_listingKey, List.length_append, List.length_singleton]
  have hcode : (listingKey (name ++ [type.code]) b).getD name.length 0 = type.code := by
    rw [List.getD_eq_getElem?_getD, getElem?_listingKey]
    rfl
  have hname : (listingKey (name ++ [type.code]) b).take name.length = name := by
    rw [listingKey, List.append_assoc, List.take_left]
  unfold listingLabel
  rw [if_pos (by omega), if_neg (not_scored hcheck type b), hlength, Nat.add_sub_cancel, Nat.add_sub_cancel]
  dsimp only
  rw [hname, hcode]

theorem listingLabel_plain (b : BlockId) : listingLabel (listingKey [] b) = none := by
  unfold listingLabel
  rw [length_listingKey]
  exact if_neg (by simp)

theorem listingLabel_index (hcheck : tbNameCheck name) (score : Int) (b : BlockId) :
    listingLabel (listingKey (name ++ TableType.zsetTb.code :: printLi21 score) b) = some (name, 'Z') := by
  have hpos : 0 < name.length := List.length_pos_iff.mpr (ne_nil_of_check hcheck)
  have hlength : (listingKey (name ++ TableType.zsetTb.code :: printLi21 score) b).length =
      name.length + 1 + zsetScoreLen + blockIdBytes := by
    rw [length_listingKey, List.length_append, List.length_cons, length_printLi21]
    omega
  have hindex : (listingKey (name ++ TableType.zsetTb.code :: printLi21 score) b).length - zsetScoreLen -
      blockIdBytes - 1 = name.length := by omega
  have hbyte : (listingKey (name ++ TableType.zsetTb.code :: printLi21 score) b)[name.length]? =
      some zsetTb := by
    rw [listingKey, List.append_assoc, List.getElem?_append_right (Nat.le_refl _), Nat.sub_self]
    rfl
  have hname : (listingKey (name ++ TableType.zsetTb.code :: printLi21 score) b).take name.length =
      name := by
    rw [listingKey, List.append_assoc, List.take_left]
  unfold listingLabel
  rw [if_pos (by omega), hindex, if_pos ⟨by omega, hbyte⟩]
  dsimp only
  rw [hname, List.getD_eq_getElem?_getD, hbyte]
  rfl

theorem ServerTable.eq_of_label {t name : Bytes} (h : ServerTable t) (htype : type.IsListed) {b : BlockId}
    (hlabel : listingLabel (listingKey t b) = some (name, realTableType type.code)) :
    t = name ++ [type.code] := by
  cases h with
  | plain =>
    rw [listingLabel_plain] at hlabel
    cases hlabel
  | @typed name' type' check member =>
    rw [listingLabel_typed check] at hlabel
    obtain ⟨rfl, htypes⟩ := Prod.mk.inj (Option.some.inj hlabel)
    rcases htype with rfl | rfl <;> rcases member with rfl | rfl | rfl <;>
      first | rfl | exact absurd htypes (by decide)
  | @index name' score check =>
    rw [listingLabel_index check] at hlabel
    have htypes := (Prod.mk.inj (Option.some.inj hlabel)).2
    rcases htype with rfl | rfl <;> exact absurd htypes (by decide)

/-! ### The listings -/

namespace Hustdb

variable {s : Hustdb} {table : Bytes}
  {offset size start stop : Nat} {noval : Bool}

theorem HasTable.findTableOffset (h : s.HasTable table type) :
    ∃ i, (s.tables.findTableOffset table false type).1 = some i := by
  obtain ⟨i, hfind, htype⟩ := h
  refine ⟨i, ?_⟩
  unfold Tables.findTableOffset
  rw [hfind]
  exact if_neg fun hother => hother.2 htype

theorem listTable_eq (hcheck : tbNameCheck table) (hindex : s.HasTable table type)
    (hsize : size ≤ memExportSize) (hoffset : offset ≤ syncExportOffset)
    (hrange : start < stop ∧ stop ≤ maxBucketNum) :
    s.listTable md5 type table offset size start stop noval =
      s.storage.exportDbMem md5 (s.storage.data.hashWithMd5db (table ++ [type.code]))
        (tableParam (table ++ [type.code]) start stop offset size noval) := by
  obtain ⟨i, hfind⟩ := hindex.findTableOffset
  have hargs : ¬((!tbNameCheck table) = true ∨ (!exportArgs offset size start stop) = true) := by
    simp [hcheck, exportArgs, hsize, hoffset, hrange]
  unfold listTable
  rw [if_neg hargs, hfind, innerTable_of_check hcheck]
  rfl

theorem hustdbExport_eq (hcheck : tbNameCheck table) (hindex : s.HasTable table type)
    (hrange : start < stop ∧ stop ≤ maxBucketNum) :
    s.hustdbExport md5 table 0 0 start stop noval =
      s.storage.exportDb md5 (s.storage.data.hashWithMd5db (table ++ [type.code]))
        (tableParam (table ++ [type.code]) start stop 0 0 noval) := by
  obtain ⟨i, hfind, htype⟩ := hindex
  unfold hustdbExport
  rw [hfind]
  dsimp only
  rw [if_neg (by simp [hcheck, hrange]), htype]
  rfl

def pages (md5 : Bytes → InnerKey) (s : Hustdb) (type : TableType) (table : Bytes)
    (start stop : Nat) (noval : Bool) (size n : Nat) : List (Rc × List Exported) :=
  (List.range n).map fun i => s.listTable md5 type table (i * size) size start stop noval

def filePages (md5 : Bytes → InnerKey) (s : Hustdb) (f start stop : Nat) (noval : Bool) (size n : Nat) :
    List (Rc × List Exported) :=
  (List.range n).map fun i => s.hustdbKeys md5 (i * size) size f start stop noval

def AddUp (pages : List (Rc × List Exported)) (listing : List Exported) : Prop :=
  (∀ page ∈ pages, page.1 = .ok) ∧ pages.flatMap Prod.snd = listing

structure PageRange (s : Hustdb) (f size n : Nat) : Prop where
  size_le : size ≤ memExportSize
  offset_le : (n - 1) * size ≤ syncExportOffset
  enough : (s.storage.fileKeys f).length ≤ n * size

theorem PageRange.page_le {f n i : Nat} (h : s.PageRange f size n) (hi : i < n) :
    i * size ≤ syncExportOffset :=
  (Nat.mul_le_mul_right size (by omega)).trans h.offset_le

theorem addUp_pages (hcheck : tbNameCheck table) (hindex : s.HasTable table type)
    (hrange : start < stop ∧ stop ≤ maxBucketNum) {f n : Nat}
    (hf : f = s.storage.data.hashWithMd5db (table ++ [type.code])) (hlt : f < s.storage.data.fileCount)
    (hpages : s.PageRange f size n) :
    AddUp (s.pages md5 type table start stop noval size n)
      (s.storage.tableListing md5 f (table ++ [type.code]) start stop noval) := by
  have hpage {i : Nat} (hi : i < n) : s.listTable md5 type table (i * size) size start stop noval =
      s.storage.exportDbMem md5 f (tableParam (table ++ [type.code]) start stop (i * size) size noval) := by
    rw [hf]
    exact listTable_eq hcheck hindex hpages.size_le (hpages.page_le hi) hrange
  constructor
  · intro page hmem
    obtain ⟨i, hi, rfl⟩ := List.mem_map.mp hmem
    rw [hpage (List.mem_range.mp hi), exportDbMem_table hlt]
  · rw [pages, List.flatMap_map, ← flatMap_exportDbMem hlt hpages.enough]
    apply List.flatMap_congr
    intro i hi
    rw [hpage (List.mem_range.mp hi)]

theorem addUp_filePages (hrange : start < stop ∧ stop ≤ maxBucketNum) {f n : Nat}
    (hlt : f < s.storage.data.fileCount) (hpages : s.PageRange f size n) :
    AddUp (s.filePages md5 f start stop noval size n)
      ((s.storage.fileListing md5 f start stop noval).map Prod.snd) := by
  have hpage {i : Nat} (hi : i < n) : s.hustdbKeys md5 (i * size) size f start stop noval =
      s.storage.exportDbMem md5 f ⟨none, start, stop, i * size, size, noval, false, [], []⟩ := by
    have hargs : ¬((!exportArgs (i * size) size start stop) = true ∨ f ≥ s.storage.data.fileCount) := by
      simp [exportArgs, hpages.size_le, hpages.page_le hi, hrange, hlt]
    unfold hustdbKeys
    rw [if_neg hargs]
  constructor
  · intro page hmem
    obtain ⟨i, hi, rfl⟩ := List.mem_map.mp hmem
    rw [hpage (List.mem_range.mp hi), exportDbMem, if_neg (Nat.not_le.mpr hlt)]
  · rw [filePages, List.flatMap_map, ← flatMap_exportDbMem_file hlt hpages.enough]
    apply List.flatMap_congr
    intro i hi
    rw [hpage (List.mem_range.mp hi)]

end Hustdb

theorem members_served {db : Db} (hcheck : tbNameCheck name) (htype : type.IsMember) :
    db.members md5 (served used) (name ++ [type.code]) = db.members md5 used (name ++ [type.code]) := by
  ext key
  exact and_congr_left fun _ => and_iff_left (.typed hcheck htype)

theorem intrudes_served {db : Db} {f start stop : Nat} {inner key : Bytes} :
    db.Intrudes md5 (served used) f inner start stop key ↔ db.Intrudes md5 used f inner start stop key :=
  and_congr_left fun _ => and_iff_left .plain

open Hustdb

variable {cfg : Settings} {config : Config} {maximum started : Nat} {ops : List Op}

def fieldsAndKey : List Op :=
  [.hset (ascii "a") (ascii "f") [1] 0 0 false 0, .hset (ascii "a") (ascii "g") [2] 0 0 false 0,
    .put (ascii "k") [3] 0 0 false 0]

def fieldsAndKeyUsed : List Address :=
  [⟨ascii "a!", ascii "f"⟩, ⟨ascii "a!", ascii "g"⟩, ⟨[], ascii "k"⟩]

instance : DecidablePred (· ∈ {a | a ∈ fieldsAndKeyUsed}) := fun a =>
  inferInstanceAs (Decidable (a ∈ fieldsAndKeyUsed))

def bucketMates : List Nat :=
  [2, 461, 577, 706, 944, 1133, 1392, 1484, 1502, 2093, 2582, 3204, 3453, 3793, 3831, 3868, 4028, 4170,
    4306, 5540, 5785, 5840, 6040, 6380, 7317, 7844, 7920, 8046, 8062, 8238, 8839, 9304, 10229]

end HustStore
