import HustStore.Md5db.Store

/-!
# Records

The lower half of the store: the fullkey files and the content files together hold records, each with a digest
suffix and a string of bytes. A record is addressed by its fullkey file and its index there.
-/

namespace HustStore.Md5db

abbrev Addr := UInt8 × Nat

def Addr.blockId (a : Addr) : BlockId := ⟨a.1, a.2⟩

namespace Db

variable {db db' : Db} {live live' reserved : Set Addr} {a : Addr}

def cell (db : Db) (a : Addr) : FullkeyData := (db.fullkeys a.1).data a.2

def cellsOf (db : Db) (a : Addr) : Set (Nat × Nat) :=
  cells (db.cell a).contentId.fileId (db.cell a).contentId.dataId (db.cell a).contentId.dataLen

def raw (db : Db) (a : Addr) : Option Bytes :=
  db.contents.get (db.cell a).contentId.fileId (db.cell a).contentId.dataId (db.cell a).contentId.dataLen

structure RecordsInv (db : Db) (live reserved : Set Addr) : Prop where
  fullkey : ∀ c, (db.fullkeys c).Inv {i | (c, i) ∈ live ∪ reserved}
  fileId : ∀ c, (db.fullkeys c).fileId = c
  fileId_lt : ∀ a ∈ live, (db.cell a).contentId.fileId < db.contents.size
  dataLen_pos : ∀ a ∈ live, 0 < (db.cell a).contentId.dataLen
  disjoint : ∀ a ∈ live, ∀ b ∈ live, a ≠ b → Disjoint (db.cellsOf a) (db.cellsOf b)
  contents : db.contents.Inv (⋃ a ∈ live, db.cellsOf a)

structure SameRecords (live : Set Addr) (db db' : Db) : Prop where
  suffix_eq : ∀ a ∈ live, (db'.cell a).md5Suffix = (db.cell a).md5Suffix
  raw_eq : ∀ a ∈ live, db'.raw a = db.raw a

structure SameIndex (db db' : Db) : Prop where
  buckets : db'.buckets = db.buckets
  fastConflicts : db'.fastConflicts = db.fastConflicts
  conflicts : db'.conflicts = db.conflicts

theorem SameRecords.rfl : SameRecords live db db := ⟨fun _ _ => Eq.refl _, fun _ _ => Eq.refl _⟩

theorem SameRecords.trans {db'' : Db} (h : SameRecords live db db')
    (h' : SameRecords live db' db'') : SameRecords live db db'' :=
  ⟨fun a ha => (h'.suffix_eq a ha).trans (h.suffix_eq a ha), fun a ha => (h'.raw_eq a ha).trans (h.raw_eq a ha)⟩

theorem SameIndex.trans {db'' : Db} (h : SameIndex db db') (h' : SameIndex db' db'') :
    SameIndex db db'' :=
  ⟨h'.buckets.trans h.buckets, h'.fastConflicts.trans h.fastConflicts, h'.conflicts.trans h.conflicts⟩

@[simp] theorem setFullkey_fullkeys_self (c : UInt8) (fk : Fullkey) :
    (db.setFullkey c fk).fullkeys c = fk := assign_self ..

theorem setFullkey_fullkeys_of_ne {c d : UInt8} (h : d ≠ c) (fk : Fullkey) :
    (db.setFullkey c fk).fullkeys d = db.fullkeys d := assign_of_ne h ..

theorem setFullkey_eq_self (c : UInt8) : db.setFullkey c (db.fullkeys c) = db := by
  simp [setFullkey]

theorem sameIndex_setFullkey (c : UInt8) (fk : Fullkey) : SameIndex db (db.setFullkey c fk) :=
  ⟨Eq.refl _, Eq.refl _, Eq.refl _⟩

theorem RecordsInv.mono {reserved' : Set Addr} (h : RecordsInv db live reserved)
    (hsub : live' ⊆ live) (hres : live' ∪ reserved' ⊆ live ∪ reserved) :
    RecordsInv db live' reserved' where
  fullkey c := (h.fullkey c).mono fun _ hi => hres hi
  fileId := h.fileId
  fileId_lt a ha := h.fileId_lt a (hsub ha)
  dataLen_pos a ha := h.dataLen_pos a (hsub ha)
  disjoint a ha b hb := h.disjoint a (hsub ha) b (hsub hb)
  contents := h.contents.mono (Set.biUnion_subset_biUnion_left hsub)

theorem RecordsInv.cellsOf_subset (h : a ∈ live) : db.cellsOf a ⊆ ⋃ a ∈ live, db.cellsOf a :=
  Set.subset_biUnion_of_mem h

theorem RecordsInv.congr (h : RecordsInv db live reserved) (hfk : db'.fullkeys = db.fullkeys)
    (hcontents : db'.contents = db.contents) : RecordsInv db' live reserved := by
  have hcell : db'.cell = db.cell := by
    funext a
    simp only [cell, hfk]
  have hcells : db'.cellsOf = db.cellsOf := by
    funext a
    simp only [cellsOf, hcell]
  refine ⟨?_, ?_, ?_, ?_, ?_, ?_⟩
  · rw [hfk]
    exact h.fullkey
  · rw [hfk]
    exact h.fileId
  · rw [hcell, hcontents]
    exact h.fileId_lt
  · rw [hcell]
    exact h.dataLen_pos
  · rw [hcells]
    exact h.disjoint
  · rw [hcells, hcontents]
    exact h.contents

theorem sameRecords_of_eq (hfk : db'.fullkeys = db.fullkeys)
    (hcontents : db'.contents = db.contents) : SameRecords live db db' :=
  ⟨fun a _ => by simp only [cell, hfk], fun a _ => by simp only [raw, cell, hfk, hcontents]⟩

section

variable (h : RecordsInv db live reserved)
include h

theorem RecordsInv.live_mem (ha : a ∈ live ∪ reserved) : (db.fullkeys a.1).parseBlockId a.blockId = some a.2 := by
  have := (h.fullkey a.1).parseBlockId (i := a.2) ha
  rwa [h.fileId] at this

theorem RecordsInv.compare (ha : a ∈ live) (innerKey : InnerKey) : (db.fullkeys a.1).compare a.blockId innerKey =
      decide ((db.cell a).md5Suffix = md5Suffix innerKey) := by
  rw [Fullkey.compare, h.live_mem (.inl ha)]
  rfl

theorem RecordsInv.getContentId (ha : a ∈ live) :
    (db.fullkeys a.1).getContentId a.blockId = some (db.cell a).contentId := by
  simp only [Fullkey.getContentId, h.live_mem (.inl ha), Option.map_some, cell]

theorem RecordsInv.raw_isSome (ha : a ∈ live) :
    ∃ bytes, db.raw a = some bytes ∧ bytes.length = (db.cell a).contentId.dataLen := by
  have hfile := h.fileId_lt a ha
  have hsub : extent (db.cell a).contentId.dataId (db.cell a).contentId.dataLen ⊆
      ContentArray.pagesOf (⋃ a ∈ live, db.cellsOf a) (db.cell a).contentId.fileId := fun p hp =>
    RecordsInv.cellsOf_subset ha ⟨rfl, hp⟩
  have hget := (h.contents.files _ hfile).get_eq (h.dataLen_pos a ha) hsub
  refine ⟨pread (db.contents.files (db.cell a).contentId.fileId).data (db.cell a).contentId.dataLen
    ((db.cell a).contentId.dataId * page), ?_, by simp [pread]⟩
  unfold raw ContentArray.get
  rw [if_neg (by omega), hget]

end

/-! ### Reserving and releasing an address -/

variable {fk : Fullkey}

theorem cell_setFullkey_of_ne {c : UInt8} (h : a.1 ≠ c) : (db.setFullkey c fk).cell a = db.cell a := by
  simp only [cell, setFullkey_fullkeys_of_ne h]

theorem cell_setFullkey_self {c : UInt8} (i : Nat) : (db.setFullkey c fk).cell (c, i) = fk.data i := by
  simp only [cell, setFullkey_fullkeys_self]

theorem RecordsInv.setFullkey {reserved' : Set Addr} (h : RecordsInv db live reserved) {c : UInt8}
    (hinv : fk.Inv {i | (c, i) ∈ live' ∪ reserved'}) (hid : fk.fileId = c)
    (hsub : live' ⊆ live)
    (hother : ∀ d, d ≠ c → {i | (d, i) ∈ live' ∪ reserved'} ⊆ {i | (d, i) ∈ live ∪ reserved})
    (hcell : ∀ a ∈ live', (db.setFullkey c fk).cell a = db.cell a) :
    RecordsInv (db.setFullkey c fk) live' reserved' := by
  have hcells (a : Addr) (ha : a ∈ live') : (db.setFullkey c fk).cellsOf a = db.cellsOf a := by
    simp only [cellsOf, hcell a ha]
  refine ⟨fun d => ?_, fun d => ?_, fun a ha => ?_, fun a ha => ?_, fun a ha b hb hab => ?_, ?_⟩
  · by_cases hd : d = c
    · subst hd
      rwa [setFullkey_fullkeys_self]
    · rw [setFullkey_fullkeys_of_ne hd]
      exact (h.fullkey d).mono (hother d hd)
  · by_cases hd : d = c
    · subst hd
      rwa [setFullkey_fullkeys_self]
    · rw [setFullkey_fullkeys_of_ne hd]
      exact h.fileId d
  · rw [hcell a ha]
    exact h.fileId_lt a (hsub ha)
  · rw [hcell a ha]
    exact h.dataLen_pos a (hsub ha)
  · rw [hcells a ha, hcells b hb]
    exact h.disjoint a (hsub ha) b (hsub hb) hab
  · rw [Set.iUnion₂_congr hcells]
    exact h.contents.mono (Set.biUnion_subset_biUnion_left hsub)

theorem sameRecords_of_cell (hcontents : db'.contents = db.contents)
    (hcell : ∀ a ∈ live, db'.cell a = db.cell a) : SameRecords live db db' :=
  ⟨fun a ha => by rw [hcell a ha], fun a ha => by simp only [raw, hcell a ha, hcontents]⟩

theorem setOf_mem_union_singleton (a : Addr) (live : Set Addr) :
    {j | (a.1, j) ∈ live ∪ {a}} = insert a.2 {j | (a.1, j) ∈ live} := by
  ext j
  simp [Prod.ext_iff]

abbrev withKey (db : Db) (innerKey : InnerKey) : Db :=
  db.setFullkey innerKey.bucket ((db.fullkeys innerKey.bucket).write innerKey).2

theorem RecordsInv.writeKey (h : RecordsInv db live ∅) (innerKey : InnerKey) :
    ((db.fullkeys innerKey.bucket).write innerKey).1 = none ∧ db.withKey innerKey = db ∨
    ∃ a : Addr, a.1 = innerKey.bucket ∧ a ∉ live ∧ ((db.fullkeys innerKey.bucket).write innerKey).1 = some a.blockId ∧
      RecordsInv (db.withKey innerKey) live {a} ∧
      ((db.withKey innerKey).cell a).md5Suffix = md5Suffix innerKey ∧
      SameRecords live db (db.withKey innerKey) := by
  rcases (h.fullkey innerKey.bucket).write innerKey with ⟨hnone, hsame⟩ | ⟨i, hsome, halloc, hsuffix⟩
  · exact .inl ⟨hnone, by rw [withKey, hsame, setFullkey_eq_self]⟩
  · refine .inr ⟨(innerKey.bucket, i), rfl, ?_, ?_, ?_, ?_, ?_⟩
    · exact fun hmem => halloc.fresh (.inl hmem)
    · rw [hsome, h.fileId]
      rfl
    · refine h.setFullkey ?_ ?_ subset_rfl (fun d hd j hj => ?_) fun a ha => ?_
      · rw [setOf_mem_union_singleton (innerKey.bucket, i)]
        have := halloc.inv
        simpa using this
      · rw [halloc.fileId_eq, h.fileId]
      · rcases hj with hj | hj
        · exact .inl hj
        · exact absurd (congrArg Prod.fst hj) hd
      · by_cases hc : a.1 = innerKey.bucket
        · obtain ⟨c, j⟩ := a
          simp only at hc
          subst hc
          rw [cell_setFullkey_self]
          exact halloc.data_eq j (.inl ha)
        · exact cell_setFullkey_of_ne hc
    · rw [cell_setFullkey_self]
      exact hsuffix
    · refine sameRecords_of_cell rfl fun a ha => ?_
      by_cases hc : a.1 = innerKey.bucket
      · obtain ⟨c, j⟩ := a
        simp only at hc
        subst hc
        rw [cell_setFullkey_self]
        exact halloc.data_eq j (.inl ha)
      · exact cell_setFullkey_of_ne hc

abbrev withoutKey (db : Db) (a : Addr) : Db :=
  db.setFullkey a.1 ((db.fullkeys a.1).del a.blockId).2

theorem RecordsInv.delKey (h : RecordsInv db live reserved) (ha : a ∈ live ∪ reserved) :
    ((db.fullkeys a.1).del a.blockId).1 = true ∧
    RecordsInv (db.withoutKey a) (live \ {a}) ∅ ∧ SameRecords (live \ {a}) db (db.withoutKey a) := by
  have hdel := (h.fullkey a.1).del (i := a.2) ha
  rw [h.fileId] at hdel
  obtain ⟨htrue, hinv, hdata, hid⟩ := hdel
  have hcell : ∀ b ∈ live \ {a}, (db.withoutKey a).cell b = db.cell b := by
    intro b hb
    by_cases hc : b.1 = a.1
    · obtain ⟨c, j⟩ := b
      simp only at hc
      subst hc
      rw [cell_setFullkey_self]
      exact hdata j fun hj => hb.2 (by rw [hj]; rfl)
    · exact cell_setFullkey_of_ne hc
  refine ⟨htrue, h.setFullkey (hinv.mono ?_) hid Set.sdiff_subset (fun d hd j hj => ?_) hcell,
    sameRecords_of_cell rfl hcell⟩
  · intro j hj
    have hj : (a.1, j) ∈ live \ {a} := by simpa using hj
    exact ⟨.inl hj.1, fun heq => hj.2 (by simp only [Set.mem_singleton_iff] at heq ⊢; rw [heq])⟩
  · have hj : (d, j) ∈ live \ {a} := by simpa using hj
    exact .inl hj.1

/-! ### Writing and freeing bytes -/

/-- The state after the bytes of a record were written at a place of the content files. -/
abbrev withContent (db : Db) (a : Addr) (contents : ContentArray) (contentId : ContentId) : Db :=
  ({ db with contents } : Db).setFullkey a.1
    ((db.fullkeys a.1).setData a.2 { (db.fullkeys a.1).data a.2 with contentId })

theorem cell_withContent_self (contents : ContentArray) (contentId : ContentId) :
    (db.withContent a contents contentId).cell a = { db.cell a with contentId } := by
  obtain ⟨c, i⟩ := a
  rw [withContent, cell_setFullkey_self, Fullkey.setData_data_self]
  rfl

theorem cell_withContent_of_ne {b : Addr} (h : b ≠ a) (contents : ContentArray)
    (contentId : ContentId) : (db.withContent a contents contentId).cell b = db.cell b := by
  by_cases hc : b.1 = a.1
  · obtain ⟨c, j⟩ := b
    simp only at hc
    subst hc
    have hj : j ≠ a.2 := fun heq => h (by rw [heq])
    rw [withContent, cell_setFullkey_self, Fullkey.setData_data_of_ne hj]
    rfl
  · exact cell_setFullkey_of_ne hc

variable {contents : ContentArray}

variable {bytes : Bytes}

theorem RecordsInv.place {fileId dataId : Nat} (h : RecordsInv db live reserved) (ha : a ∈ live ∪ reserved)
    (hlen : 0 < bytes.length) (hlt : bytes.length < 2 ^ 28)
    (hw : ContentArray.Written db.contents (⋃ b ∈ live \ {a}, db.cellsOf b) fileId dataId bytes contents) :
    RecordsInv (db.withContent a contents (ContentId.set fileId dataId bytes.length)) (insert a live) ∅ ∧
    (db.withContent a contents (ContentId.set fileId dataId bytes.length)).raw a = some bytes ∧
    SameRecords (live \ {a}) db (db.withContent a contents (ContentId.set fileId dataId bytes.length)) := by
  have hsize := h.contents.size_le
  have hfile := hw.file_lt
  have hfileId : (ContentId.set fileId dataId bytes.length).fileId = fileId :=
    ContentId.fileId_set dataId _ (by omega)
  have hdataId : (ContentId.set fileId dataId bytes.length).dataId = dataId :=
    ContentId.dataId_set _ _ hw.page_lt
  have hdataLen : (ContentId.set fileId dataId bytes.length).dataLen = bytes.length :=
    ContentId.dataLen_set _ _ hlt
  generalize hcid : ContentId.set fileId dataId bytes.length = cid at *
  have hself : (db.withContent a contents cid).cell a = { db.cell a with contentId := cid } :=
    cell_withContent_self _ _
  have hother {b : Addr} (hb : b ≠ a) : (db.withContent a contents cid).cell b = db.cell b :=
    cell_withContent_of_ne hb _ _
  have hcells : (db.withContent a contents cid).cellsOf a = cells fileId dataId bytes.length := by
    simp only [cellsOf, hself, hfileId, hdataId, hdataLen]
  have hcells' {b : Addr} (hb : b ≠ a) : (db.withContent a contents cid).cellsOf b = db.cellsOf b := by
    simp only [cellsOf, hother hb]
  have hmem {b : Addr} (hb : b ∈ insert a live) (hne : b ≠ a) : b ∈ live \ {a} :=
    ⟨(Set.mem_insert_iff.mp hb).resolve_left hne, hne⟩
  have hapart {b : Addr} (hb : b ∈ live \ {a}) : Disjoint (cells fileId dataId bytes.length) (db.cellsOf b) :=
    hw.fresh.mono_right (Set.subset_biUnion_of_mem hb)
  have hcontents : (db.withContent a contents cid).contents = contents := rfl
  refine ⟨⟨fun c => ?_, fun c => ?_, fun b hb => ?_, fun b hb => ?_, fun b hb d hd hbd => ?_, ?_⟩,
    ?_, ⟨fun b hb => ?_, fun b hb => ?_⟩⟩
  · -- The fullkey files change in one live or reserved entry only.
    have hsub : {i | (c, i) ∈ insert a live ∪ (∅ : Set Addr)} ⊆ {i | (c, i) ∈ live ∪ reserved} := by
      rintro i (hi | hi)
      · rcases Set.mem_insert_iff.mp hi with hi | hi
        · change (c, i) ∈ live ∪ reserved
          rwa [hi]
        · exact .inl hi
      · exact absurd hi (by simp)
    by_cases hc : c = a.1
    · subst hc
      rw [withContent, setFullkey_fullkeys_self]
      exact ((h.fullkey a.1).setData ha _).mono hsub
    · rw [withContent, setFullkey_fullkeys_of_ne hc]
      exact (h.fullkey c).mono hsub
  · by_cases hc : c = a.1
    · subst hc
      rw [withContent, setFullkey_fullkeys_self]
      exact h.fileId a.1
    · rw [withContent, setFullkey_fullkeys_of_ne hc]
      exact h.fileId c
  · rw [hcontents, hw.same.size_eq]
    by_cases hba : b = a
    · subst hba
      simp only [hself, hfileId]
      exact hfile
    · rw [hother hba]
      exact h.fileId_lt b (hmem hb hba).1
  · by_cases hba : b = a
    · subst hba
      simp only [hself, hdataLen]
      exact hlen
    · rw [hother hba]
      exact h.dataLen_pos b (hmem hb hba).1
  · by_cases hba : b = a
    · subst hba
      rw [hcells, hcells' (Ne.symm hbd)]
      exact hapart (hmem hd (Ne.symm hbd))
    · rw [hcells' hba]
      by_cases hda : d = a
      · subst hda
        rw [hcells]
        exact (hapart (hmem hb hba)).symm
      · rw [hcells' hda]
        exact h.disjoint b (hmem hb hba).1 d (hmem hd hda).1 hbd
  · rw [hcontents]
    refine hw.inv.mono (Set.iUnion₂_subset fun b hb => ?_)
    by_cases hba : b = a
    · subst hba
      rw [hcells]
      exact Set.subset_union_right
    · rw [hcells' hba]
      exact (Set.subset_biUnion_of_mem (hmem hb hba)).trans Set.subset_union_left
  · simp only [raw, hself, hfileId, hdataId, hdataLen]
    exact hw.get_eq
  · rw [hother hb.2]
  · simp only [raw, hother hb.2, hcontents]
    have hinv : db.contents.Inv (⋃ b ∈ live \ {a}, db.cellsOf b) :=
      h.contents.mono (Set.biUnion_subset_biUnion_left Set.sdiff_subset)
    exact ContentArray.get_congr hw.same hinv (h.dataLen_pos b hb.1) (RecordsInv.cellsOf_subset hb)

theorem RecordsInv.biUnion_sdiff (h : RecordsInv db live reserved) (ha : a ∈ live) :
    (⋃ b ∈ live, db.cellsOf b) \ db.cellsOf a = ⋃ b ∈ live \ {a}, db.cellsOf b := by
  ext x
  simp only [Set.mem_sdiff, Set.mem_iUnion, exists_prop, Set.mem_singleton_iff]
  constructor
  · rintro ⟨⟨b, hb, hx⟩, hxa⟩
    exact ⟨b, ⟨hb, fun heq => hxa (heq ▸ hx)⟩, hx⟩
  · rintro ⟨b, ⟨hb, hba⟩, hx⟩
    exact ⟨⟨b, hb, hx⟩, fun hxa => Set.disjoint_left.mp (h.disjoint b hb a ha hba) hx hxa⟩

theorem RecordsInv.free (h : RecordsInv db live ∅) (hroom : db.contents.Room) (ha : a ∈ live) :
    ∃ contents, db.contents.del (db.cell a).contentId.fileId (db.cell a).contentId.dataId
        (db.cell a).contentId.dataLen = some contents ∧
      RecordsInv { db.withoutKey a with contents } (live \ {a}) ∅ ∧
      SameRecords (live \ {a}) db { db.withoutKey a with contents } := by
  obtain ⟨-, hinv, hsame⟩ := h.delKey (.inl ha)
  obtain ⟨contents, hdel, hcinv, hcsame⟩ := h.contents.del hroom (h.fileId_lt a ha)
    (h.dataLen_pos a ha) (RecordsInv.cellsOf_subset ha)
  change contents.Inv ((⋃ b ∈ live, db.cellsOf b) \ db.cellsOf a) at hcinv
  change ContentArray.SameCells ((⋃ b ∈ live, db.cellsOf b) \ db.cellsOf a) _ _ at hcsame
  rw [h.biUnion_sdiff ha] at hcinv hcsame
  have hcell (b : Addr) (hb : b ∈ live \ {a}) : (db.withoutKey a).cell b = db.cell b := by
    by_cases hc : b.1 = a.1
    · obtain ⟨c, j⟩ := b
      simp only at hc
      subst hc
      rw [cell_setFullkey_self]
      have hdata := ((h.fullkey a.1).del (i := a.2) (.inl ha)).2.2.1
      rw [h.fileId] at hdata
      exact hdata j fun hj => hb.2 (by rw [hj]; rfl)
    · exact cell_setFullkey_of_ne hc
  have hcells (b : Addr) (hb : b ∈ live \ {a}) : (db.withoutKey a).cellsOf b = db.cellsOf b := by
    simp only [cellsOf, hcell b hb]
  refine ⟨contents, hdel, ⟨hinv.fullkey, hinv.fileId, fun b hb => ?_, hinv.dataLen_pos,
    hinv.disjoint, ?_⟩, hsame.suffix_eq, fun b hb => ?_⟩
  · have := hinv.fileId_lt b hb
    change (Db.cell (db.withoutKey a) b).contentId.fileId < contents.size
    rw [hcsame.size_eq]
    exact this
  · change contents.Inv (⋃ b ∈ live \ {a}, (db.withoutKey a).cellsOf b)
    rw [Set.iUnion₂_congr hcells]
    exact hcinv
  · have hb' : ({ db.withoutKey a with contents } : Db).cell b = db.cell b := hcell b hb
    simp only [raw, hb']
    exact ContentArray.get_congr hcsame (h.contents.mono (Set.biUnion_subset_biUnion_left Set.sdiff_subset))
      (h.dataLen_pos b hb.1) (RecordsInv.cellsOf_subset hb)

theorem RecordsInv.setContents (h : RecordsInv db live reserved) (hinv : contents.Inv (⋃ a ∈ live, db.cellsOf a))
    (hsame : ContentArray.SameCells (⋃ a ∈ live, db.cellsOf a) db.contents contents) :
    RecordsInv { db with contents } live reserved ∧ SameRecords live db { db with contents } := by
  refine ⟨⟨h.fullkey, h.fileId, fun a ha => ?_, h.dataLen_pos, h.disjoint, hinv⟩, fun _ _ => rfl, fun a ha => ?_⟩
  · change (db.cell a).contentId.fileId < contents.size
    rw [hsame.size_eq]
    exact h.fileId_lt a ha
  · exact ContentArray.get_congr hsame h.contents (h.dataLen_pos a ha) (RecordsInv.cellsOf_subset ha)

/-! ### The functions that store a value -/

theorem length_kvData (d : KvDataItem) : d.bytes.length = KvDataItem.size := rfl

theorem length_recordBytes (val userKey : Bytes) (d : KvDataItem) :
    (recordBytes val userKey d).length = val.length + userKey.length + KvDataItem.size := by
  simp only [recordBytes, List.length_append, length_kvData]

theorem length_recordBytes_lt {val userKey : Bytes} (h : userKey.length + val.length ≤ maxValLen)
    (d : KvDataItem) : (recordBytes val userKey d).length < 2 ^ 28 := by
  rw [length_recordBytes]
  simp only [maxValLen, KvDataItem.size] at *
  omega

theorem length_recordBytes_pos (val userKey : Bytes) (d : KvDataItem) :
    0 < (recordBytes val userKey d).length := by
  rw [length_recordBytes]
  exact Nat.succ_pos _

structure Stored (db : Db) (live : Set Addr) (a : Addr) (bytes : Bytes) (db' : Db) : Prop where
  records : RecordsInv db' (insert a live) ∅
  raw_eq : db'.raw a = some bytes
  suffix_eq : (db'.cell a).md5Suffix = (db.cell a).md5Suffix
  same : SameRecords (live \ {a}) db db'
  index : SameIndex db db'

theorem Stored.congr {db'' : Db} (h : Stored db live a bytes db')
    (hfk : db''.fullkeys = db'.fullkeys) (hcontents : db''.contents = db'.contents)
    (hindex : SameIndex db' db'') : Stored db live a bytes db'' where
  records := h.records.congr hfk hcontents
  raw_eq := by rw [← h.raw_eq]; simp only [raw, cell, hfk, hcontents]
  suffix_eq := by rw [← h.suffix_eq]; simp only [cell, hfk]
  same := h.same.trans (sameRecords_of_eq hfk hcontents)
  index := h.index.trans hindex

theorem RecordsInv.place_stored {fileId dataId : Nat} (h : RecordsInv db live reserved) (ha : a ∈ live ∪ reserved)
    (hlen : 0 < bytes.length) (hlt : bytes.length < 2 ^ 28)
    (hw : ContentArray.Written db.contents (⋃ b ∈ live \ {a}, db.cellsOf b) fileId dataId bytes contents) :
    (db.fullkeys a.1).setContentId a.blockId (ContentId.set fileId dataId bytes.length) =
      (true, (db.withContent a contents (ContentId.set fileId dataId bytes.length)).fullkeys a.1) ∧
    Stored db live a bytes (db.withContent a contents (ContentId.set fileId dataId bytes.length)) := by
  have hsize := h.contents.size_le
  have hfile := hw.file_lt
  obtain ⟨hinv, hraw, hsame⟩ := h.place ha hlen hlt hw
  refine ⟨?_, hinv, hraw, by rw [cell_withContent_self], hsame, ⟨rfl, rfl, rfl⟩⟩
  have hset := (h.fullkey a.1).setContentId (i := a.2) ha (ContentId.set fileId dataId bytes.length)
  rw [h.fileId] at hset
  refine (hset ?_ ?_ ?_).trans ?_
  · rw [ContentId.fileId_set _ _ (by omega)]
    omega
  · rw [ContentId.dataId_set _ _ hw.page_lt]
    exact hw.page_pos.ne'
  · rw [ContentId.dataLen_set _ _ hlt]
    exact hlen.ne'
  · rw [withContent, setFullkey_fullkeys_self]

theorem RecordsInv.addDataToContentDb (h : RecordsInv db live reserved) (ha : a ∈ reserved)
    (hnot : a ∉ live) (hroom : db.contents.Room) (q : Query) {userKey val : Bytes}
    (hlen : userKey.length + val.length ≤ maxValLen) (ctxt : ItemCtxt) :
    ∃ db', db.addDataToContentDb q a.1 a.blockId userKey val ctxt =
        ((db.data.putFromMd5db a.blockId ctxt.innerFileId q.table q.wttl).1,
          { ctxt with kvData := kvDataOf q userKey }, db') ∧
      Stored db live a (recordBytes val userKey (kvDataOf q userKey)) db' ∧
      db'.data = (db.data.putFromMd5db a.blockId ctxt.innerFileId q.table q.wttl).2 := by
  have hpos := length_recordBytes_pos val userKey (kvDataOf q userKey)
  have hlt := length_recordBytes_lt hlen (kvDataOf q userKey)
  generalize hbytes : recordBytes val userKey (kvDataOf q userKey) = bytes at *
  obtain ⟨fileId, dataId, contents, hwrite, hspec⟩ := h.contents.write hroom hpos (by omega)
  have hlive : live \ {a} = live := Set.sdiff_singleton_eq_self hnot
  obtain ⟨hset, hstored⟩ := h.place_stored (.inr ha) hpos hlt (by rw [hlive]; exact hspec)
  unfold Db.addDataToContentDb
  simp only [hbytes, hwrite, if_neg hspec.page_pos.ne', hset]
  refine ⟨_, rfl, hstored.congr ?_ rfl ⟨rfl, rfl, rfl⟩, rfl⟩
  rw [withContent, setFullkey_fullkeys_self]

theorem RecordsInv.setDataToContentDb (h : RecordsInv db live ∅) (ha : a ∈ live)
    (hroom : db.contents.Room) (q : Query) {userKey val : Bytes}
    (hlen : userKey.length + val.length ≤ maxValLen) (ctxt : ItemCtxt) :
    ∃ db', db.setDataToContentDb q a.1 a.blockId userKey val ctxt =
        (.ok, { ctxt with kvData := kvDataOf q userKey }, db') ∧
      Stored db live a (recordBytes val userKey (kvDataOf q userKey)) db' ∧ db'.data = db.data := by
  have hpos := length_recordBytes_pos val userKey (kvDataOf q userKey)
  have hlt := length_recordBytes_lt hlen (kvDataOf q userKey)
  generalize hbytes : recordBytes val userKey (kvDataOf q userKey) = bytes at *
  obtain ⟨dataId, contents, hupdate, hspec⟩ := h.contents.update hroom hpos (by omega)
    (h.fileId_lt a ha) (h.dataLen_pos a ha) (RecordsInv.cellsOf_subset ha)
  change ContentArray.Written _ ((⋃ b ∈ live, db.cellsOf b) \ db.cellsOf a) _ _ _ _ at hspec
  rw [h.biUnion_sdiff ha] at hspec
  obtain ⟨hset, hstored⟩ := h.place_stored (.inl ha) hpos hlt hspec
  unfold Db.setDataToContentDb
  simp only [h.getContentId ha, if_neg (h.dataLen_pos a ha).ne', hbytes, hupdate, hset]
  refine ⟨_, rfl, hstored.congr ?_ rfl ⟨rfl, rfl, rfl⟩, rfl⟩
  rw [withContent, setFullkey_fullkeys_self]

end Db

end HustStore.Md5db
