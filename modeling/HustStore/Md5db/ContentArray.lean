import HustStore.Md5db.Content2Spec
import HustStore.Md5db.Bucket

/-!
# The array of content files

Records are spread over the content files round robin. A record is addressed by its file and its
first page; seen from above, the array is one allocator of (file, page) cells.
-/

namespace HustStore.Md5db

structure ContentArray where
  size : Nat
  files : Nat → Content2
  token : Nat

def cells (fileId dataId dataLen : Nat) : Set (Nat × Nat) :=
  {x | x.1 = fileId ∧ x.2 ∈ extent dataId dataLen}

namespace ContentArray

def create (size : Nat) : ContentArray where
  size
  files := fun _ => Content2.create
  token := 0

def setFile (a : ContentArray) (fileId : Nat) (c : Content2) : ContentArray :=
  { a with files := assign a.files fileId c }

def writeLoop (data : Bytes) : Nat → ContentArray → Option (Nat × Nat) × ContentArray
  | 0, a => (none, a)
  | n + 1, a =>
    let a := { a with token := (a.token + 1) % 2 ^ 32 }
    let fileId := a.token % a.size
    match (a.files fileId).write data with
    | none => writeLoop data n a
    | some (offset, c) => (some (fileId, offset), a.setFile fileId c)

def write (a : ContentArray) (data : Bytes) : Option (Nat × Nat) × ContentArray :=
  a.writeLoop data a.size

def update (a : ContentArray) (fileId dataId oldDataLen : Nat) (data : Bytes) :
    Option Nat × ContentArray :=
  if fileId ≥ a.size then (none, a)
  else
    let (dataId, c) := (a.files fileId).update dataId oldDataLen data
    (dataId, a.setFile fileId c)

def get (a : ContentArray) (fileId dataId dataLen : Nat) : Option Bytes :=
  if fileId ≥ a.size then none else (a.files fileId).get dataId dataLen

def del (a : ContentArray) (fileId dataId dataLen : Nat) : Option ContentArray :=
  if fileId ≥ a.size then none
  else ((a.files fileId).del dataId dataLen).map (a.setFile fileId)

/-! ### The invariant -/

def pagesOf (live : Set (Nat × Nat)) (fileId : Nat) : Set Nat := {p | (fileId, p) ∈ live}

structure Inv (a : ContentArray) (live : Set (Nat × Nat)) : Prop where
  size_pos : 0 < a.size
  size_le : a.size ≤ 256
  files : ∀ f < a.size, (a.files f).Inv (pagesOf live f)

def Room (a : ContentArray) : Prop := ∀ f < a.size, (a.files f).Room

structure SameCells (live : Set (Nat × Nat)) (a a' : ContentArray) : Prop where
  size_eq : a'.size = a.size
  files : ∀ f < a.size, Content2.SamePages (pagesOf live f) (a.files f) (a'.files f)

variable {a a' : ContentArray} {live live' : Set (Nat × Nat)}

theorem Inv.mono (h : a.Inv live) (hsub : live' ⊆ live) : a.Inv live' :=
  ⟨h.size_pos, h.size_le, fun f hf => (h.files f hf).mono fun _ hp => hsub hp⟩

theorem inv_create {size : Nat} (hpos : 0 < size) (hle : size ≤ 256) : (create size).Inv ∅ :=
  ⟨hpos, hle, fun _ _ => Content2.inv_create⟩

@[simp] theorem setFile_size (f : Nat) (c : Content2) : (a.setFile f c).size = a.size := rfl

@[simp] theorem setFile_files_self (f : Nat) (c : Content2) : (a.setFile f c).files f = c :=
  assign_self ..

theorem setFile_files_of_ne {f g : Nat} (h : g ≠ f) (c : Content2) :
    (a.setFile f c).files g = a.files g := assign_of_ne h ..

theorem pagesOf_cells_self (f d n : Nat) : pagesOf (cells f d n) f = extent d n := by
  ext p
  simp [pagesOf, cells]

theorem pagesOf_cells_of_ne {f g : Nat} (h : g ≠ f) (d n : Nat) : pagesOf (cells f d n) g = ∅ := by
  ext p
  simp [pagesOf, cells, h]

theorem pagesOf_union (f : Nat) : pagesOf (live ∪ live') f = pagesOf live f ∪ pagesOf live' f := rfl

theorem pagesOf_sdiff (f : Nat) : pagesOf (live \ live') f = pagesOf live f \ pagesOf live' f := rfl

variable {c : Content2}

theorem Inv.setFile (h : a.Inv live) {f : Nat} (hc : c.Inv (pagesOf live' f))
    (hother : ∀ g, g ≠ f → pagesOf live' g ⊆ pagesOf live g) : (a.setFile f c).Inv live' := by
  refine ⟨h.size_pos, h.size_le, fun g hg => ?_⟩
  by_cases hgf : g = f
  · subst hgf
    rwa [setFile_files_self]
  · rw [setFile_files_of_ne hgf]
    exact (h.files g hg).mono (hother g hgf)

theorem sameCells_setFile {f : Nat}
    (hc : Content2.SamePages (pagesOf live f) (a.files f) c) : SameCells live a (a.setFile f c) := by
  refine ⟨Eq.refl _, fun g _ => ?_⟩
  by_cases hgf : g = f
  · subst hgf
    rwa [setFile_files_self]
  · rw [setFile_files_of_ne hgf]
    exact ⟨fun _ _ => Eq.refl _, le_rfl⟩

structure Written (a : ContentArray) (live : Set (Nat × Nat)) (fileId dataId : Nat) (data : Bytes)
    (a' : ContentArray) : Prop where
  file_lt : fileId < a.size
  page_pos : 0 < dataId
  page_lt : dataId < 2 ^ 28
  fresh : Disjoint (cells fileId dataId data.length) live
  inv : a'.Inv (live ∪ cells fileId dataId data.length)
  get_eq : a'.get fileId dataId data.length = some data
  same : SameCells live a a'

theorem Inv.written_setFile (h : a.Inv live) {f offset : Nat} {data : Bytes}
    (hf : f < a.size) (hroom : (a.files f).Room) (hlen : 0 < data.length)
    (hother : ∀ g, g ≠ f → pagesOf live' g = pagesOf live g)
    (hc : Content2.Written (a.files f) (pagesOf live' f) offset data c) :
    Written a live' f offset data (a.setFile f c) := by
  have hpos := Content2.pageCount_pos hlen
  have hfirst := hc.inv.sizes.live_lt offset (.inr (by simp [extent]; omega))
  have hlt := hroom.page_lt
  have hle := hc.offset_le
  refine ⟨hf, hfirst.1, by omega, ?_, h.setFile ?_ fun g hg => ?_, ?_, sameCells_setFile hc.same⟩
  · refine Set.disjoint_left.mpr fun x hx hlive => ?_
    obtain ⟨hx1, hx2⟩ := hx
    refine Set.disjoint_left.mp hc.fresh hx2 ?_
    rw [← hx1]
    exact hlive
  · rw [pagesOf_union, pagesOf_cells_self]
    exact hc.inv
  · rw [pagesOf_union, pagesOf_cells_of_ne hg, Set.union_empty, hother g hg]
  · simp [get, show ¬ a.size ≤ f by omega, hc.get_eq]

section

variable (h : a.Inv live) (hroom : a.Room)
include h hroom

theorem Inv.write {data : Bytes} (hlen : 0 < data.length) (hlt : data.length < 2 ^ 32) :
    ∃ fileId dataId a', a.write data = (some (fileId, dataId), a') ∧
      Written a live fileId dataId data a' := by
  obtain ⟨n, hn⟩ := Nat.exists_eq_succ_of_ne_zero h.size_pos.ne'
  have hfile : (a.token + 1) % 2 ^ 32 % a.size < a.size := Nat.mod_lt _ h.size_pos
  obtain ⟨offset, c, hwrite, hspec⟩ :=
    (h.files _ hfile).write (hroom _ hfile) hlen hlt
  unfold ContentArray.write
  rw [hn]
  simp only [writeLoop, hwrite]
  refine ⟨_, _, _, rfl, ?_⟩
  have hinv : Inv { a with token := (a.token + 1) % 2 ^ 32 } live := ⟨h.size_pos, h.size_le, h.files⟩
  have := hinv.written_setFile hfile (hroom _ hfile) hlen (fun _ _ => rfl) hspec
  exact ⟨this.file_lt, this.page_pos, this.page_lt, this.fresh, this.inv, this.get_eq,
    this.same.size_eq, this.same.files⟩

theorem Inv.update {data : Bytes} (hlen : 0 < data.length)
    (hlt : data.length < 2 ^ 32) {fileId dataId oldLen : Nat} (hfile : fileId < a.size)
    (holdLen : 0 < oldLen) (hold : cells fileId dataId oldLen ⊆ live) :
    ∃ dataId' a', a.update fileId dataId oldLen data = (some dataId', a') ∧
      Written a (live \ cells fileId dataId oldLen) fileId dataId' data a' := by
  have hsub : extent dataId oldLen ⊆ pagesOf live fileId := fun p hp => hold ⟨rfl, hp⟩
  obtain ⟨offset, c, hupdate, hspec⟩ :=
    (h.files _ hfile).update (hroom _ hfile) hlt holdLen hsub
  unfold ContentArray.update
  rw [if_neg (by omega), hupdate]
  refine ⟨_, _, rfl, h.written_setFile hfile (hroom _ hfile) hlen (fun g hg => ?_) ?_⟩
  · rw [pagesOf_sdiff, pagesOf_cells_of_ne hg, Set.sdiff_empty]
  · rw [pagesOf_sdiff, pagesOf_cells_self]
    exact hspec

theorem Inv.del {fileId dataId len : Nat}
    (hfile : fileId < a.size) (hlen : 0 < len) (hsub : cells fileId dataId len ⊆ live) :
    ∃ a', a.del fileId dataId len = some a' ∧ a'.Inv (live \ cells fileId dataId len) ∧
      SameCells (live \ cells fileId dataId len) a a' := by
  have hpages : extent dataId len ⊆ pagesOf live fileId := fun p hp => hsub ⟨rfl, hp⟩
  obtain ⟨c, hdel, hinv, hsame⟩ := (h.files _ hfile).del (hroom _ hfile).slot hlen hpages
  unfold ContentArray.del
  rw [if_neg (by omega), hdel]
  refine ⟨_, rfl, h.setFile ?_ fun g hg => ?_, sameCells_setFile hsame.samePages⟩
  · rw [pagesOf_sdiff, pagesOf_cells_self]
    exact hinv
  · rw [pagesOf_sdiff, pagesOf_cells_of_ne hg, Set.sdiff_empty]

theorem Inv.del_empty : ∃ a', a.del 0 0 0 = some a' ∧ a'.Inv live ∧ SameCells live a a' := by
  obtain ⟨c, hdel, hinv, hsame⟩ := (h.files 0 h.size_pos).del_empty (hroom 0 h.size_pos).slot
  have hpos := h.size_pos
  unfold ContentArray.del
  rw [if_neg (by omega), hdel]
  exact ⟨_, rfl, h.setFile hinv fun _ _ => subset_rfl, sameCells_setFile hsame.samePages⟩

end

theorem get_congr (hsame : SameCells live a a') (h : a.Inv live) {fileId dataId len : Nat}
    (hlen : 0 < len) (hsub : cells fileId dataId len ⊆ live) :
    a'.get fileId dataId len = a.get fileId dataId len := by
  unfold get
  rw [hsame.size_eq]
  by_cases hfile : fileId ≥ a.size
  · rw [if_pos hfile, if_pos hfile]
  · rw [if_neg hfile, if_neg hfile]
    exact Content2.get_congr (hsame.files _ (by omega)) (h.files _ (by omega)) hlen fun p hp => hsub ⟨rfl, hp⟩

end ContentArray

end HustStore.Md5db
