import HustStore.Md5db.Allocator
import HustStore.Md5db.Store
import HustStore.Lib.PartialMap
import HustStore.Lib.Run

/-!
# Content ids

A content id keeps the file, the first page and the length of a record in 8, 28 and 28 bits. The lengths that
the server admits and the number of files always fit.
-/

namespace HustStore.Md5db

namespace Content2

variable {c c' : Content2} {live live' : Set Nat} {size offset : Nat} {data : Bytes}

structure Paged (c : Content2) (live : Set Nat) : Prop where
  inv : c.Inv live
  listed : c.Listed
  pages_le : c.dataFileSize / page ≤ 2 ^ 28

def EndsInside (c : Content2) (size : Nat) : Prop :=
  c.freeBlockMax < size → c.dataFileSize ≤ dataFileMaxSize → c.dataFileSize / page + size ≤ 2 ^ 28

theorem Paged.mono (h : c.Paged live) (hsub : live' ⊆ live) : c.Paged live' :=
  ⟨h.inv.mono hsub, h.listed, h.pages_le⟩

theorem Paged.setData (h : c.Paged live) (data : Nat → UInt8) : ({ c with data } : Content2).Paged live :=
  ⟨h.inv.setData data, h.listed.setData data, h.pages_le⟩

theorem Paged.addFreeBlock (h : c.Paged live) (hsub : live' ⊆ live)
    (hrun : offset = 0 ∧ size = 0 ∨ 0 < size ∧ Set.Ico offset (offset + size) ⊆ live ∧
      Disjoint (Set.Ico offset (offset + size)) live')
    (hadd : c.addFreeBlock size offset = some c') :
    c'.Paged live' ∧ c.SameData c' ∧ c'.freeBlockMax = max c.freeBlockMax size := by
  have hslot := hasSlot_of_addFreeBlock hadd
  obtain ⟨c₁, hadd', hinv, hsame⟩ := h.inv.addFreeBlock hslot hsub hrun
  cases hadd.symm.trans hadd'
  have hpages : c'.dataFileSize / page ≤ 2 ^ 28 := by
    rw [hsame.2]
    exact h.pages_le
  unfold Content2.addFreeBlock at hadd
  by_cases hheader : c.header = freeBlockFileMaxSize
  · have hlt := hslot.resolve_left (not_not_intro hheader)
    obtain ⟨hparsed, hhead⟩ := h.inv.parsed_grown hheader hlt
    rw [if_pos hheader, incrFreeBlockFile_eq hlt] at hadd
    cases hadd
    refine ⟨⟨hinv, ?_, hpages⟩, hsame, ?_⟩
    · exact hparsed.inv.push_listed (h.inv.grow_listed h.listed hheader hlt) hhead
    · rw [pushFreeBlock_max, hparsed.max_eq]
      rfl
  · rw [if_neg hheader] at hadd
    cases hadd
    exact ⟨⟨hinv, h.inv.push_listed h.listed hheader, hpages⟩, hsame, pushFreeBlock_max⟩

theorem Paged.writeInner (h : c.Paged live) (hlen : 0 < data.length) (hlt : data.length < 2 ^ 32)
    (hends : c.freeBlockMax < pageCount data.length → c.dataFileSize / page + pageCount data.length ≤ 2 ^ 28) :
    (c.writeInner data).2.Paged (live ∪ extent (c.writeInner data).1 data.length) := by
  have hpos := pageCount_pos hlen
  have hle := pageCount_le data.length
  suffices hrest : (c.writeInner data).2.Listed ∧ (c.writeInner data).2.dataFileSize / page ≤ 2 ^ 28 from
    ⟨(h.inv.writeInner hlen hlt).inv, hrest.1, hrest.2⟩
  cases huse : c.useFreeBlock (pageCount data.length) with
  | none =>
    rw [writeInner_of_none huse]
    refine ⟨⟨h.listed.rest, h.listed.max_le⟩, ?_⟩
    have hend := hends (h.listed.max_lt hpos (by omega) huse)
    have hcount := pageCount_mul data.length
    have hdvd := h.inv.sizes.data_dvd
    simp only [page] at *
    omega
  | some out =>
    obtain ⟨offset, c₁⟩ := out
    rw [writeInner_of_some huse]
    obtain ⟨i, hi, hfit, -, rfl⟩ := useFreeBlock_eq_cut hpos (by omega) huse
    have hlisted := h.inv.cut_listed h.listed hi hfit
    refine ⟨⟨hlisted.rest, hlisted.max_le⟩, ?_⟩
    simp only [cutRun_data.1.2]
    exact h.pages_le

theorem Paged.write (h : c.Paged live) (hlen : 0 < data.length) (hlt : data.length < 2 ^ 32)
    (hends : c.EndsInside (pageCount data.length)) (hwrite : c.write data = some (offset, c')) :
    Written c live offset data c' ∧ c'.Paged (live ∪ extent offset data.length) := by
  unfold Content2.write at hwrite
  split_ifs at hwrite with hfull
  have hpaged := h.writeInner hlen hlt fun hmax => hends hmax (by omega)
  have hwritten := h.inv.writeInner hlen hlt
  rw [Option.some.inj hwrite] at hpaged hwritten
  exact ⟨hwritten, hpaged⟩

def UpdateEndsInside (c : Content2) (oldLen len : Nat) : Prop :=
  pageCount oldLen < pageCount len → c.EndsInside (pageCount len)

theorem Paged.update (h : c.Paged live) {oldLen offset' : Nat} (holdLen : 0 < oldLen)
    (hold : extent offset oldLen ⊆ live) (hlt : data.length < 2 ^ 32)
    (hends : c.UpdateEndsInside oldLen data.length)
    (hupdate : c.update offset oldLen data = (some offset', c')) :
    Written c (live \ extent offset oldLen) offset' data c' ∧
      c'.Paged (live \ extent offset oldLen ∪ extent offset' data.length) := by
  have hwritten := h.inv.update_of_some hlt holdLen hold hupdate
  suffices hrest : c'.Listed ∧ c'.dataFileSize / page ≤ 2 ^ 28 from
    ⟨hwritten, hwritten.inv, hrest.1, hrest.2⟩
  have holdpos := pageCount_pos holdLen
  have houtcome := update_outcome c offset oldLen data
  rw [hupdate] at houtcome
  cases houtcome with
  | inPlace _ => exact ⟨h.listed.setData _, h.pages_le⟩
  | shrunk hless hadd =>
    have hfreed : Set.Ico (offset + pageCount data.length) (offset + pageCount data.length +
        (pageCount oldLen - pageCount data.length)) ⊆ live := by
      intro p hp
      refine hold ?_
      simp only [extent, Set.mem_Ico] at *
      omega
    obtain ⟨hpaged, -, -⟩ := (h.setData (pwrite c.data data (offset * page))).addFreeBlock
      (Set.empty_subset _) (.inr ⟨by omega, hfreed, Set.disjoint_empty _⟩) hadd
    exact ⟨hpaged.listed, hpaged.pages_le⟩
  | moved hmore hroom hadd =>
    obtain ⟨hpaged, hsame, hmax⟩ := h.addFreeBlock (Set.empty_subset _)
      (.inr ⟨holdpos, hold, Set.disjoint_empty _⟩) hadd
    have hlen : 0 < data.length := by
      have := pageCount_le data.length
      omega
    have hpaged' := hpaged.writeInner hlen hlt fun hlarge => by
      rw [hsame.2]
      exact hends hmore (by omega) (by omega)
    exact ⟨hpaged'.listed, hpaged'.pages_le⟩

theorem Paged.update_none (h : c.Paged live) {oldLen : Nat}
    (hupdate : c.update offset oldLen data = (none, c')) : c'.Paged live := by
  have houtcome := update_outcome c offset oldLen data
  rw [hupdate] at houtcome
  cases houtcome with
  | overwritten _ _ => exact h.setData _
  | full _ _ => exact h
  | kept _ _ => exact h

theorem Paged.reopen (h : c.Paged live) : c.reopen.Paged live := by
  have hparsed := h.inv.parsed_reopen h.listed
  refine ⟨hparsed.inv, h.inv.reopen_listed h.listed, ?_⟩
  rw [hparsed.same.2]
  exact h.pages_le

theorem paged_create : create.Paged ∅ :=
  ⟨inv_create, sound_create.tidy.listed, by decide⟩

end Content2

/-! ### The array of files -/

namespace ContentArray

variable {a a' : ContentArray} {live live' : Set (Nat × Nat)} {data : Bytes}

structure Paged (a : ContentArray) (live : Set (Nat × Nat)) : Prop where
  size_pos : 0 < a.size
  size_le : a.size ≤ 256
  files : ∀ f < a.size, (a.files f).Paged (pagesOf live f)

theorem Paged.mono (h : a.Paged live) (hsub : live' ⊆ live) : a.Paged live' :=
  ⟨h.size_pos, h.size_le, fun f hf => (h.files f hf).mono fun _ hp => hsub hp⟩

theorem Paged.setToken (h : a.Paged live) (token : Nat) :
    ({ a with token } : ContentArray).Paged live := ⟨h.size_pos, h.size_le, h.files⟩

theorem Paged.setFile (h : a.Paged live) {f : Nat} {c : Content2} (hc : c.Paged (pagesOf live' f))
    (hother : ∀ g, g ≠ f → pagesOf live' g ⊆ pagesOf live g) : (a.setFile f c).Paged live' := by
  refine ⟨h.size_pos, h.size_le, fun g hg => ?_⟩
  by_cases hgf : g = f
  · subst hgf
    rwa [setFile_files_self]
  · rw [setFile_files_of_ne hgf]
    exact (h.files g hg).mono (hother g hgf)

theorem writeLoop_cases (hsize : 0 < a.size) (data : Bytes) (n : Nat) :
    (∃ token, a.writeLoop data n = (none, { a with token })) ∨
      ∃ f d c token, f < a.size ∧ (a.files f).write data = some (d, c) ∧
        a.writeLoop data n = (some (f, d), ({ a with token } : ContentArray).setFile f c) := by
  induction n generalizing a with
  | zero => exact .inl ⟨a.token, rfl⟩
  | succ n ih =>
    simp only [writeLoop]
    have hfile : (a.token + 1) % 2 ^ 32 % a.size < a.size := Nat.mod_lt _ hsize
    cases hwrite : (a.files ((a.token + 1) % 2 ^ 32 % a.size)).write data with
    | none => exact ih (a := { a with token := (a.token + 1) % 2 ^ 32 }) hsize
    | some out => exact .inr ⟨_, out.1, out.2, _, hfile, hwrite, rfl⟩

structure Filed (a : ContentArray) (live : Set (Nat × Nat)) (fileId dataId len : Nat) (a' : ContentArray) : Prop where
  size_eq : a'.size = a.size
  file_lt : fileId < a.size
  page_lt : dataId < 2 ^ 28
  fresh : Disjoint (cells fileId dataId len) live
  paged : a'.Paged (live ∪ cells fileId dataId len)

theorem Filed.mono {fileId dataId len : Nat} (h : Filed a live fileId dataId len a')
    (hsub : live' ⊆ live) : Filed a live' fileId dataId len a' :=
  { h with
    fresh := h.fresh.mono_right hsub
    paged := h.paged.mono (Set.union_subset_union_left _ hsub) }

theorem Paged.filed (h : a.Paged live) {f d : Nat} {c c' : Content2} (hf : f < a.size)
    (hlen : 0 < data.length) (hother : ∀ g, g ≠ f → pagesOf live' g ⊆ pagesOf live g)
    (hwritten : Content2.Written c (pagesOf live' f) d data c')
    (hpaged : c'.Paged (pagesOf live' f ∪ extent d data.length)) :
    Filed a live' f d data.length (a.setFile f c') := by
  have hpos := Content2.pageCount_pos hlen
  refine ⟨rfl, hf, ?_, ?_, h.setFile ?_ fun g hg => ?_⟩
  · -- The first page is a page of the file.
    have hfirst := hpaged.inv.sizes.live_lt d (.inr (by simp only [extent, Set.mem_Ico]; omega))
    have hle := hpaged.pages_le
    omega
  · refine Set.disjoint_left.mpr fun x hx hlive => ?_
    obtain ⟨hx1, hx2⟩ := hx
    refine Set.disjoint_left.mp hwritten.fresh hx2 ?_
    rw [← hx1]
    exact hlive
  · rw [pagesOf_union, pagesOf_cells_self]
    exact hpaged
  · rw [pagesOf_union, pagesOf_cells_of_ne hg, Set.union_empty]
    exact hother g hg

theorem Paged.write (h : a.Paged live) (hlen : 0 < data.length) (hlt : data.length < 2 ^ 32)
    (hends : ∀ f < a.size, (a.files f).EndsInside (pageCount data.length)) :
    (∃ a', a.write data = (none, a') ∧ a'.size = a.size ∧ a'.Paged live) ∨
      ∃ f d a', a.write data = (some (f, d), a') ∧ Filed a live f d data.length a' := by
  rcases writeLoop_cases h.size_pos data a.size with ⟨token, hloop⟩ | ⟨f, d, c, token, hf, hwrite, hloop⟩
  · exact .inl ⟨_, hloop, rfl, h.setToken token⟩
  · obtain ⟨hwritten, hpaged⟩ := (h.files f hf).write hlen hlt (hends f hf) hwrite
    have hfiled := (h.setToken token).filed hf hlen (fun _ _ => subset_rfl) hwritten hpaged
    exact .inr ⟨f, d, _, hloop, { hfiled with }⟩

theorem Paged.update (h : a.Paged live) {fileId dataId oldLen : Nat} (hlen : 0 < data.length)
    (hlt : data.length < 2 ^ 32) (hfile : fileId < a.size) (holdLen : 0 < oldLen)
    (hold : cells fileId dataId oldLen ⊆ live)
    (hends : (a.files fileId).UpdateEndsInside oldLen data.length) :
    (∃ a', a.update fileId dataId oldLen data = (none, a') ∧ a'.size = a.size ∧ a'.Paged live) ∨
      ∃ d a', a.update fileId dataId oldLen data = (some d, a') ∧
        Filed a (live \ cells fileId dataId oldLen) fileId d data.length a' := by
  have hsub : extent dataId oldLen ⊆ pagesOf live fileId := fun p hp => hold ⟨rfl, hp⟩
  unfold ContentArray.update
  rw [if_neg (by omega)]
  rcases hupdate : (a.files fileId).update dataId oldLen data with ⟨_ | d, c⟩
  · have hpaged := (h.files fileId hfile).update_none hupdate
    exact .inl ⟨_, rfl, rfl, h.setFile hpaged fun _ _ => subset_rfl⟩
  · obtain ⟨hwritten, hpaged⟩ := (h.files fileId hfile).update holdLen hsub hlt hends hupdate
    have hpages : pagesOf (live \ cells fileId dataId oldLen) fileId =
        pagesOf live fileId \ extent dataId oldLen := by
      rw [pagesOf_sdiff, pagesOf_cells_self]
    rw [← hpages] at hwritten hpaged
    exact .inr ⟨d, _, rfl, h.filed hfile hlen (fun _ _ => fun _ hp => hp.1) hwritten hpaged⟩

theorem Paged.del (h : a.Paged live) {fileId dataId len : Nat} (hfile : fileId < a.size)
    (hrun : dataId = 0 ∧ len = 0 ∨ 0 < len ∧ cells fileId dataId len ⊆ live)
    (hdel : a.del fileId dataId len = some a') :
    a'.size = a.size ∧ a'.Paged (live \ cells fileId dataId len) := by
  unfold ContentArray.del at hdel
  rw [if_neg (by omega)] at hdel
  obtain ⟨c, hc, rfl⟩ := Option.map_eq_some_iff.1 hdel
  refine ⟨rfl, h.setFile ?_ fun g _ _ hp => hp.1⟩
  rw [pagesOf_sdiff, pagesOf_cells_self]
  refine ((h.files fileId hfile).addFreeBlock Set.sdiff_subset ?_ hc).1
  rcases hrun with ⟨rfl, rfl⟩ | ⟨hlen, hsub⟩
  · exact .inl ⟨rfl, rfl⟩
  · exact .inr ⟨Content2.pageCount_pos hlen, fun p hp => hsub ⟨rfl, hp⟩,
      Set.disjoint_left.mpr fun _ hp hp' => hp'.2 hp⟩

def reopen (a : ContentArray) : ContentArray :=
  { a with files := fun f => (a.files f).reopen, token := 0 }

theorem Paged.reopen (h : a.Paged live) : a.reopen.Paged live :=
  ⟨h.size_pos, h.size_le, fun f hf => (h.files f hf).reopen⟩

theorem paged_create {size : Nat} (hpos : 0 < size) (hle : size ≤ 256) : (create size).Paged ∅ :=
  ⟨hpos, hle, fun _ _ => Content2.paged_create⟩

end ContentArray

/-! ### The ids that the store keeps -/

structure Shelf where
  array : ContentArray
  ids : Nat → Option ContentId

inductive ShelfCall
  /-- `add_data_to_content_db`. -/
  | add (id : Nat) (data : Bytes)
  /-- `set_data_to_content_db`. -/
  | set (id : Nat) (data : Bytes)
  | del (id : Nat)
  /-- A deletion that goes on with an empty content id, as a refused one of the binlog does. -/
  | delReset
  /-- A request that fails behind the content files leaves its record there. -/
  | lose (id : Nat)
  | reopen

namespace Shelf

def create (size : Nat) : Shelf := ⟨.create size, fun _ => none⟩

end Shelf

namespace ShelfCall

def handed (s : Shelf) : ShelfCall → Option (Nat × Nat × Nat) × ContentArray
  | add id data =>
    match s.ids id with
    | some _ => (none, s.array)
    | none =>
      match s.array.write data with
      | (none, array) => (none, array)
      | (some (fileId, dataId), array) => (some (fileId, dataId, data.length), array)
  | set id data =>
    match s.ids id with
    | none => (none, s.array)
    | some c =>
      match s.array.update c.fileId c.dataId c.dataLen data with
      | (none, array) => (none, array)
      | (some dataId, array) => (some (c.fileId, dataId, data.length), array)
  | _ => (none, s.array)

def keep (s : Shelf) (id : Nat) : Option (Nat × Nat × Nat) × ContentArray → Shelf
  | (none, array) => { s with array }
  | (some (fileId, dataId, dataLen), array) =>
    ⟨array, Function.update s.ids id (some (ContentId.set fileId dataId dataLen))⟩

def step (s : Shelf) : ShelfCall → Shelf
  | add id data => keep s id ((add id data).handed s)
  | set id data => keep s id ((set id data).handed s)
  | del id =>
    match s.ids id with
    | none => s
    | some c =>
      match s.array.del c.fileId c.dataId c.dataLen with
      | none => s
      | some array => ⟨array, Function.update s.ids id none⟩
  | delReset =>
    match s.array.del ContentId.reset.fileId ContentId.reset.dataId ContentId.reset.dataLen with
    | none => s
    | some array => { s with array }
  | lose id => { s with ids := Function.update s.ids id none }
  | reopen => { s with array := s.array.reopen }

def Admitted : ShelfCall → Prop
  | add _ data => 12 < data.length ∧ data.length ≤ maxValLen + 12
  | set _ data => 12 < data.length ∧ data.length ≤ maxValLen + 12
  | _ => True

def EndsInside (s : Shelf) : ShelfCall → Prop
  | add _ data => ∀ f < s.array.size, (s.array.files f).EndsInside (pageCount data.length)
  | set id data => ∀ c, s.ids id = some c → (s.array.files c.fileId).UpdateEndsInside c.dataLen data.length
  | _ => True

end ShelfCall

namespace Shelf

variable {s : Shelf} {c : ShelfCall} {id : Nat} {data : Bytes}

def live (s : Shelf) : Set (Nat × Nat) :=
  {x | ∃ id c, s.ids id = some c ∧ x ∈ cells c.fileId c.dataId c.dataLen}

def others (s : Shelf) (id : Nat) : Set (Nat × Nat) :=
  {x | ∃ j c, j ≠ id ∧ s.ids j = some c ∧ x ∈ cells c.fileId c.dataId c.dataLen}

structure Inv (s : Shelf) : Prop where
  paged : s.array.Paged s.live
  named : ∀ id c, s.ids id = some c → c.fileId < s.array.size ∧ 0 < c.dataLen
  apart : ∀ id id' c c', id ≠ id' → s.ids id = some c → s.ids id' = some c' →
    Disjoint (cells c.fileId c.dataId c.dataLen) (cells c'.fileId c'.dataId c'.dataLen)

def ReadsBack : Nat × Nat × Nat → Prop
  | (fileId, dataId, dataLen) =>
    fileId < 2 ^ 8 ∧ dataId < 2 ^ 28 ∧ dataLen < 2 ^ 28 ∧ (ContentId.set fileId dataId dataLen).fileId = fileId ∧
      (ContentId.set fileId dataId dataLen).dataId = dataId ∧
      (ContentId.set fileId dataId dataLen).dataLen = dataLen

theorem cells_subset_live {c : ContentId} (hid : s.ids id = some c) :
    cells c.fileId c.dataId c.dataLen ⊆ s.live := fun _ hx => ⟨id, c, hid, hx⟩

theorem others_subset_live (id : Nat) : s.others id ⊆ s.live := by
  rintro x ⟨j, c, -, hj, hx⟩
  exact ⟨j, c, hj, hx⟩

theorem cells_subset_others {j : Nat} {c : ContentId} (hne : j ≠ id) (hj : s.ids j = some c) :
    cells c.fileId c.dataId c.dataLen ⊆ s.others id := fun _ hx => ⟨j, c, hne, hj, hx⟩

theorem Inv.others_subset (h : s.Inv) {c : ContentId} (hid : s.ids id = some c) :
    s.others id ⊆ s.live \ cells c.fileId c.dataId c.dataLen := by
  rintro x ⟨j, c', hne, hj, hx⟩
  exact ⟨⟨j, c', hj, hx⟩, Set.disjoint_left.1 (h.apart j id c' c hne hj hid) hx⟩

variable {array : ContentArray}

theorem Inv.keep_id (h : s.Inv) {f d : Nat} (hlen : 0 < data.length) (hlt : data.length < 2 ^ 28)
    (hfiled : ContentArray.Filed s.array (s.others id) f d data.length array) :
    Inv ⟨array, Function.update s.ids id (some (ContentId.set f d data.length))⟩ ∧
      ReadsBack (f, d, data.length) := by
  have hf : f < 256 := hfiled.file_lt.trans_le h.paged.size_le
  have hfile := ContentId.fileId_set d data.length hf
  have hdata := ContentId.dataId_set f data.length hfiled.page_lt
  have hdataLen := ContentId.dataLen_set f d hlt
  refine ⟨⟨hfiled.paged.mono ?_, fun j c hj => ?_, ?_⟩, hf, hfiled.page_lt, hlt, hfile, hdata, hdataLen⟩
  · rintro x ⟨j, c, hj, hx⟩
    rcases PartialMap.update_eq_some_iff.mp hj with ⟨-, hnew⟩ | ⟨hne, hj⟩
    · rw [← Option.some.inj hnew, hfile, hdata, hdataLen] at hx
      exact .inr hx
    · exact .inl ⟨j, c, hne, hj, hx⟩
  · rcases PartialMap.update_eq_some_iff.mp hj with ⟨-, hnew⟩ | ⟨-, hj⟩
    · rw [← Option.some.inj hnew, hfile, hdataLen]
      exact ⟨hfiled.size_eq ▸ hfiled.file_lt, hlen⟩
    · simp only [hfiled.size_eq]
      exact h.named j c hj
  · refine PartialMap.Pairwise.update_some h.apart (fun _ _ hvw => hvw.symm) fun j c hne hj => ?_
    rw [hfile, hdata, hdataLen]
    exact hfiled.fresh.mono_right (cells_subset_others hne hj)

theorem Inv.setArray (h : s.Inv) (hsize : array.size = s.array.size)
    (hpaged : array.Paged s.live) : Inv { s with array } :=
  ⟨hpaged, fun j c hj => hsize.symm ▸ h.named j c hj, h.apart⟩

theorem Inv.drop (h : s.Inv) (hsize : array.size = s.array.size)
    (hpaged : array.Paged (s.others id)) : Inv ⟨array, Function.update s.ids id none⟩ := by
  refine ⟨hpaged.mono ?_, fun j c hj => ?_, PartialMap.Pairwise.update_none h.apart⟩
  · rintro x ⟨j, c, hj, hx⟩
    obtain ⟨hne, hj⟩ := PartialMap.update_none_eq_some_iff.mp hj
    exact ⟨j, c, hne, hj, hx⟩
  · simp only [hsize]
    exact h.named j c (PartialMap.update_none_eq_some_iff.mp hj).2

theorem Inv.step (h : s.Inv) (hadmitted : c.Admitted) (hends : c.EndsInside s) :
    (c.step s).Inv ∧ ∀ t, (c.handed s).1 = some t → ReadsBack t := by
  have hmax : maxValLen = 267386880 := rfl
  have hnone {t : Nat × Nat × Nat} {P : Prop} (ht : (none : Option (Nat × Nat × Nat)) = some t) : P := by
    cases ht
  cases c with
  | add id data =>
    obtain ⟨hlen, hle⟩ := hadmitted
    simp only [ShelfCall.step, ShelfCall.handed]
    cases hid : s.ids id with
    | some c => exact ⟨h, fun t => hnone⟩
    | none =>
      rcases h.paged.write (show 0 < data.length by omega) (by omega) hends with
        ⟨array, hwrite, hsize, hpaged⟩ | ⟨f, d, array, hwrite, hfiled⟩
      · simp only [hwrite]
        exact ⟨h.setArray hsize hpaged, fun t => hnone⟩
      · simp only [hwrite]
        have hkeep := h.keep_id (by omega) (by omega) (hfiled.mono (others_subset_live id))
        refine ⟨hkeep.1, fun t ht => ?_⟩
        cases ht
        exact hkeep.2
  | set id data =>
    obtain ⟨hlen, hle⟩ := hadmitted
    simp only [ShelfCall.step, ShelfCall.handed]
    cases hid : s.ids id with
    | none => exact ⟨h, fun t => hnone⟩
    | some c =>
      obtain ⟨hfile, hold⟩ := h.named id c hid
      rcases h.paged.update (show 0 < data.length by omega) (by omega) hfile hold
        (cells_subset_live hid) (hends c hid) with
        ⟨array, hupdate, hsize, hpaged⟩ | ⟨d, array, hupdate, hfiled⟩
      · simp only [hupdate]
        exact ⟨h.setArray hsize hpaged, fun t => hnone⟩
      · simp only [hupdate]
        have hkeep := h.keep_id (by omega) (by omega) (hfiled.mono (h.others_subset hid))
        refine ⟨hkeep.1, fun t ht => ?_⟩
        cases ht
        exact hkeep.2
  | del id =>
    refine ⟨?_, fun t => hnone⟩
    cases hid : s.ids id with
    | none =>
      simp only [ShelfCall.step, hid]
      exact h
    | some c =>
      simp only [ShelfCall.step, hid]
      obtain ⟨hfile, hlen⟩ := h.named id c hid
      cases hdel : s.array.del c.fileId c.dataId c.dataLen with
      | none => exact h
      | some array =>
        obtain ⟨hsize, hpaged⟩ := h.paged.del hfile (.inr ⟨hlen, cells_subset_live hid⟩) hdel
        simp only
        exact h.drop hsize (hpaged.mono (h.others_subset hid))
  | delReset =>
    refine ⟨?_, fun t => hnone⟩
    simp only [ShelfCall.step]
    cases hdel : s.array.del ContentId.reset.fileId ContentId.reset.dataId ContentId.reset.dataLen with
    | none => exact h
    | some array =>
      obtain ⟨hsize, hpaged⟩ := h.paged.del h.paged.size_pos (.inl ⟨rfl, rfl⟩) hdel
      refine h.setArray hsize (hpaged.mono fun x hx => ⟨hx, fun hcell => ?_⟩)
      -- The empty id has no cells.
      have hpage := hcell.2
      simp only [Content2.extent_zero] at hpage
      exact hpage
  | lose id => exact ⟨h.drop rfl (h.paged.mono (others_subset_live id)), fun t => hnone⟩
  | reopen => exact ⟨h.setArray rfl h.paged.reopen, fun t => hnone⟩

theorem inv_create {size : Nat} (hpos : 0 < size) (hle : size ≤ 256) : (create size).Inv := by
  refine ⟨(ContentArray.paged_create hpos hle).mono ?_, fun _ _ hid => ?_, fun _ _ _ _ _ hid => ?_⟩
  · rintro x ⟨id, c, hid, -⟩
    cases hid
  · cases hid
  · cases hid

/-- In every run whose calls end inside, each content id reads back what was handed over. -/
theorem content_ids_read_back {size : Nat} (hpos : 0 < size) (hle : size ≤ 256)
    {calls : List ShelfCall} {last : ShelfCall}
    (hguard : Run.Guarded ShelfCall.step (fun s c => c.Admitted ∧ c.EndsInside s) (create size) (calls ++ [last])) :
    ∀ t, (last.handed (Run.exec ShelfCall.step (create size) calls)).1 = some t →
      ReadsBack t := by
  obtain ⟨hcalls, ⟨hadmitted, hends⟩, -⟩ := (Run.guarded_append _).1 hguard
  have hinv := hcalls.invariant (P := Inv) (fun s c h hc => (h.step hc.1 hc.2).1) (inv_create hpos hle)
  exact (hinv.step hadmitted hends).2

theorem endsInside_of_le {file : Content2} {n : Nat} (hn : n ≤ 1024) : file.EndsInside n := by
  intro _ hle
  simp only [dataFileMaxSize, page] at *
  omega

/-- A record is added, grows and is deleted, and its pages are given out again. -/
theorem content_ids_read_back_small : Run.Guarded ShelfCall.step (fun s c => c.Admitted ∧ c.EndsInside s) (create 2)
      ([.add 0 (List.replicate 13 0), .set 0 (List.replicate 1500 0), .del 0, .delReset, .reopen] ++
        [.add 1 (List.replicate 13 0)]) ∧
    ∀ t, ((ShelfCall.add 1 (List.replicate 13 0)).handed
      (Run.exec ShelfCall.step (create 2) [.add 0 (List.replicate 13 0),
        .set 0 (List.replicate 1500 0), .del 0, .delReset, .reopen])).1 = some t → ReadsBack t := by
  have hsmall : pageCount (List.replicate 13 (0 : UInt8)).length ≤ 1024 := by
    rw [List.length_replicate]
    decide
  have hlarge : pageCount (List.replicate 1500 (0 : UInt8)).length ≤ 1024 := by
    rw [List.length_replicate]
    decide
  have hadd (id : Nat) : (ShelfCall.add id (List.replicate 13 0)).Admitted := by
    simp only [ShelfCall.Admitted, List.length_replicate]
    decide
  have hset : (ShelfCall.set 0 (List.replicate 1500 0)).Admitted := by
    simp only [ShelfCall.Admitted, List.length_replicate]
    decide
  have hguard : Run.Guarded ShelfCall.step (fun s c => c.Admitted ∧ c.EndsInside s) (create 2)
      ([.add 0 (List.replicate 13 0), .set 0 (List.replicate 1500 0), .del 0, .delReset, .reopen] ++
        [.add 1 (List.replicate 13 0)]) :=
    ⟨⟨hadd 0, fun _ _ => endsInside_of_le hsmall⟩, ⟨hset, fun _ _ _ => endsInside_of_le hlarge⟩,
      ⟨trivial, trivial⟩, ⟨trivial, trivial⟩, ⟨trivial, trivial⟩,
      ⟨hadd 1, fun _ _ => endsInside_of_le hsmall⟩, trivial⟩
  exact ⟨hguard, content_ids_read_back (by decide) (by decide) hguard⟩

/-! ### The last record of a data file -/

structure IsFilled (file : Content2) (pages : Nat) : Prop where
  size_eq : file.dataFileSize = pages * page
  max_eq : file.freeBlockMax = 0
  list_eq : file.freeBlockList = []
  header_eq : file.header = 8

theorem IsFilled.write {file : Content2} {pages : Nat} (h : IsFilled file pages) {data : Bytes}
    (hlen : data.length = maxValLen + 12) (hpages : pages * page ≤ dataFileMaxSize) :
    ∃ file', file.write data = some (pages, file') ∧ IsFilled file' (pages + 261121) := by
  have hcount : pageCount data.length = 261121 := by rw [hlen]; rfl
  have hmul := Content2.pageCount_mul data.length
  have huse : file.useFreeBlock (pageCount data.length) = none := by
    rw [Content2.useFreeBlock, if_pos]
    rw [hcount, h.max_eq]
    decide
  have hfull : ¬ (file.dataFileSize > dataFileMaxSize ∧ file.freeBlockMax < pageCount data.length) := by
    rw [h.size_eq]
    omega
  rw [Content2.write, if_neg hfull, Content2.writeInner_of_none huse, h.size_eq, Nat.mul_div_cancel pages (by decide)]
  refine ⟨_, rfl, ?_, h.max_eq, h.list_eq, h.header_eq⟩
  rw [hcount] at hmul
  simp only [Nat.add_mul]
  omega

theorem filled_run {data : Bytes} (hlen : data.length = maxValLen + 12) (k : Nat) (hk : k ≤ 1029) :
    ∃ s, s = Run.exec ShelfCall.step (create 1) ((List.range k).map fun i => .add i data) ∧
      s.array.size = 1 ∧ IsFilled (s.array.files 0) (1 + k * 261121) ∧ (∀ i, k ≤ i → s.ids i = none) ∧
      ∀ i, k = i + 1 → s.ids i = some (ContentId.set 0 (1 + i * 261121) data.length) := by
  induction k with
  | zero =>
    refine ⟨_, rfl, rfl, ⟨rfl, rfl, rfl, rfl⟩, fun _ _ => rfl, fun i hi => ?_⟩
    cases hi
  | succ k ih =>
    obtain ⟨s, hs, hsize, hfilled, hids, -⟩ := ih (by omega)
    obtain ⟨file, hwrite, hfilled'⟩ := hfilled.write hlen (by
      simp only [dataFileMaxSize, page]
      omega)
    have harray : s.array.write data = (some (0, 1 + k * 261121),
        ({ s.array with token := (s.array.token + 1) % 2 ^ 32 } : ContentArray).setFile 0 file) := by
      simp only [ContentArray.write, hsize, ContentArray.writeLoop, Nat.mod_one, hwrite]
    rw [List.range_succ, List.map_append, Run.exec_append, ← hs]
    simp only [List.map_cons, List.map_nil, Run.exec_cons, Run.exec_nil, ShelfCall.step,
      ShelfCall.handed, hids k le_rfl, harray, ShelfCall.keep]
    refine ⟨_, rfl, hsize, ?_, fun i hi => ?_, fun i hi => ?_⟩
    · simp only [ContentArray.setFile_files_self]
      rw [Nat.succ_mul, ← Nat.add_assoc]
      exact hfilled'
    · simp only [Function.update_of_ne (show i ≠ k by omega)]
      exact hids i (by omega)
    · obtain rfl : k = i := by omega
      simp only [Function.update_self]

theorem IsFilled.shrink {file : Content2} {pages : Nat} (h : IsFilled file pages) (offset : Nat)
    {data : Bytes} (hlen : data.length = 4096000) :
    ∃ file', file.update offset (maxValLen + 12) data = (some offset, file') ∧ ∀ next : Bytes, next.length = 13 →
        ∃ file'', file'.write next = some (offset + 4000, file'') := by
  have hcount : pageCount data.length = 4000 := by rw [hlen]; rfl
  have hold : pageCount (maxValLen + 12) = 261121 := rfl
  have hheader : file.header ≠ freeBlockFileMaxSize := by
    rw [h.header_eq]
    decide
  refine ⟨Content2.pushFreeBlock { file with data := pwrite file.data data (offset * page) } 257121
    (offset + 4000), ?_, fun next hnext => ?_⟩
  · simp only [Content2.update, hcount, hold, Content2.addFreeBlock, if_neg hheader]
    rfl
  · have hone : pageCount next.length = 1 := by rw [hnext]; rfl
    generalize hfile : Content2.pushFreeBlock { file with data := pwrite file.data data (offset * page) }
      257121 (offset + 4000) = file'
    have hmax : file'.freeBlockMax = 257121 := by
      rw [← hfile, Content2.pushFreeBlock_max]
      simp only [h.max_eq]
      decide
    have hlist : file'.freeBlockList = [8] := by
      rw [← hfile]
      simp only [Content2.pushFreeBlock, Content2.insertFree, Content2.setBlock, h.list_eq, h.header_eq]
      rfl
    have hcache : file'.cache 8 = ⟨offset + 4000, 257121⟩ := by
      rw [← hfile, ← h.header_eq]
      exact Content2.pushFreeBlock_cache_self
    have hmem : 8 ∈ file'.freeBlockList := by
      rw [hlist]
      exact List.mem_singleton_self 8
    obtain ⟨⟨start, file''⟩, huse⟩ := Option.ne_none_iff_exists'.1
      (Content2.useFreeBlock_ne_none hmem (show 0 < pageCount next.length by omega) (by omega)
        (by simp only [hcache]; omega) (by omega))
    obtain ⟨i, hi, -, hstart, -⟩ := Content2.useFreeBlock_eq_cut (by omega) (by omega) huse
    rw [hlist, List.mem_singleton] at hi
    rw [hi, hcache] at hstart
    subst hstart
    rw [Content2.write, if_neg (by rw [hone, hmax]; omega), Content2.writeInner_of_some huse]
    exact ⟨_, rfl⟩

/-- The last record that a data file takes is longer than a mebibyte and crosses page 2 ^ 28. When it
gets shorter, the next record goes to a page that its content id does not hold. -/
theorem late_page_is_truncated : ∃ calls : List ShelfCall, (∀ c ∈ calls, c.Admitted) ∧
      ∃ next : ShelfCall, next.Admitted ∧
        (next.handed (Run.exec ShelfCall.step (create 1) calls)).1 = some (0, 268436389, 13) ∧
        (ContentId.set 0 268436389 13).dataId = 933 := by
  have hmax : maxValLen = 267386880 := rfl
  generalize hbig : List.replicate (maxValLen + 12) (0 : UInt8) = big
  generalize hshort : List.replicate 4096000 (0 : UInt8) = short
  generalize hnext : List.replicate 13 (0 : UInt8) = next
  have hbigLen : big.length = maxValLen + 12 := by rw [← hbig, List.length_replicate]
  have hshortLen : short.length = 4096000 := by rw [← hshort, List.length_replicate]
  have hnextLen : next.length = 13 := by rw [← hnext, List.length_replicate]
  obtain ⟨s, hs, hsize, hfilled, hids, hlast⟩ := filled_run hbigLen 1029 le_rfl
  obtain ⟨file, hupdate, hwrite⟩ := hfilled.shrink 268432389 hshortLen
  obtain ⟨file', hwrite⟩ := hwrite next hnextLen
  have hid : s.ids 1028 = some (ContentId.set 0 268432389 (maxValLen + 12)) := by
    rw [hlast 1028 rfl, hbigLen]
  have harray : s.array.update 0 268432389 (maxValLen + 12) short = (some 268432389, s.array.setFile 0 file) := by
    rw [ContentArray.update, if_neg (by omega), hupdate]
  refine ⟨((List.range 1029).map fun i => .add i big) ++ [.set 1028 short], ?_, .add 2000 next, ?_, ?_, by decide⟩
  · intro c hc
    rcases List.mem_append.1 hc with hc | hc
    · obtain ⟨i, -, rfl⟩ := List.mem_map.1 hc
      exact ⟨by omega, by omega⟩
    · rw [List.mem_singleton.1 hc]
      exact ⟨by omega, by omega⟩
  · exact ⟨by omega, by omega⟩
  · have hset := ContentId.fileId_set 268432389 (maxValLen + 12) (show 0 < 256 by decide)
    have hset' : (ContentId.set 0 268432389 (maxValLen + 12)).dataId = 268432389 := rfl
    have hset'' : (ContentId.set 0 268432389 (maxValLen + 12)).dataLen = maxValLen + 12 := rfl
    have hfresh : s.ids 2000 = none := hids 2000 (by omega)
    rw [Run.exec_append, ← hs]
    simp only [Run.exec_cons, Run.exec_nil, ShelfCall.step, ShelfCall.handed, ShelfCall.keep, hid, hset,
      hset', hset'', harray, Function.update_of_ne (show 2000 ≠ 1028 by decide), hfresh,
      ContentArray.write, ContentArray.setFile_size, hsize, ContentArray.writeLoop, Nat.mod_one,
      ContentArray.setFile_files_self, hwrite, hnextLen]

end Shelf

end HustStore.Md5db
