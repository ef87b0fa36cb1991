import HustStore.Md5db.Content2
import Mathlib.Data.List.Perm.Basic
import Mathlib.Data.Set.Disjoint

/-!
# The page allocator's invariant

`live` is the set of pages that hold records.
-/

namespace HustStore.Md5db

open Intrusive (Chain)

def FreeBlock.pages (b : FreeBlock) : Set Nat := Set.Ico b.offset (b.offset + b.size)

/-- The pages of a record. -/
def extent (offset dataLen : Nat) : Set Nat := Set.Ico offset (offset + pageCount dataLen)

namespace Content2

variable {c c' : Content2} {live live' : Set Nat} {chain held held' todo : List Nat}

def IsSlot (c : Content2) (i : Nat) : Prop := i % 8 = 0 ∧ 8 ≤ i ∧ i < c.freeBlockFileSize

/-- Every slot of the free-block file is either in the chain of unused slots or held by a run. -/
structure SlotsInv (c : Content2) (chain held : List Nat) : Prop where
  linked : Chain (fun i => (c.cache i).offset) freeBlockFileMaxSize c.header chain
  nodup : (chain ++ held).Nodup
  mem_iff : ∀ i, i ∈ chain ++ held ↔ c.IsSlot i

/-- A run is empty, or its pages are in the data file and hold no record. -/
def UsableRun (c : Content2) (live : Set Nat) (b : FreeBlock) : Prop :=
  b.offset = 0 ∧ b.size = 0 ∨
    0 < b.offset ∧ 0 < b.size ∧ b.offset + b.size ≤ c.dataFileSize / page ∧ Disjoint b.pages live

/-- The held runs are usable and share no page. -/
structure RunsInv (c : Content2) (held : List Nat) (live : Set Nat) : Prop where
  usable : ∀ i ∈ held, c.UsableRun live (c.cache i)
  disjoint : ∀ i ∈ held, ∀ j ∈ held, i ≠ j → Disjoint (c.cache i).pages (c.cache j).pages

structure SizesInv (c : Content2) (live : Set Nat) : Prop where
  file_dvd : freeBlockIncr ∣ c.freeBlockFileSize
  file_pos : 0 < c.freeBlockFileSize
  file_le : c.freeBlockFileSize ≤ freeBlockFileMaxSize
  data_dvd : page ∣ c.dataFileSize
  data_pos : page ≤ c.dataFileSize
  live_lt : ∀ p ∈ live, 0 < p ∧ p < c.dataFileSize / page

/-- The allocator's invariant: slots, runs and sizes. -/
structure Inv (c : Content2) (live : Set Nat) : Prop where
  slots : ∃ chain, c.SlotsInv chain c.freeBlockList
  runs : c.RunsInv c.freeBlockList live
  sizes : c.SizesInv live

def SameData (c c' : Content2) : Prop := c'.data = c.data ∧ c'.dataFileSize = c.dataFileSize

theorem SameData.rfl : c.SameData c := ⟨Eq.refl _, Eq.refl _⟩

theorem SameData.trans {c'' : Content2} (h : c.SameData c') (h' : c'.SameData c'') :
    c.SameData c'' := ⟨h'.1.trans h.1, h'.2.trans h.2⟩

theorem SizesInv.of_same (h : c.SizesInv live) (hsame : c.SameData c')
    (hfile : c'.freeBlockFileSize = c.freeBlockFileSize) : c'.SizesInv live where
  file_dvd := hfile ▸ h.file_dvd
  file_pos := hfile ▸ h.file_pos
  file_le := hfile ▸ h.file_le
  data_dvd := hsame.2 ▸ h.data_dvd
  data_pos := hsame.2 ▸ h.data_pos
  live_lt := hsame.2 ▸ h.live_lt

/-! ### Reordering and shrinking -/

theorem insertBy_perm (key : Nat → Nat) (i : Nat) (l : List Nat) : (insertBy key i l).Perm (i :: l) := by
  induction l with
  | nil => exact .refl _
  | cons j rest ih =>
    unfold insertBy
    split
    · exact .refl _
    · exact (ih.cons j).trans (.swap i j rest)

theorem SlotsInv.perm (h : c.SlotsInv chain held) (hperm : held.Perm held') : c.SlotsInv chain held' where
  linked := h.linked
  nodup := ((hperm.append_left chain).nodup_iff).mp h.nodup
  mem_iff i := by rw [← h.mem_iff i, (hperm.append_left chain).mem_iff]

theorem RunsInv.subset (h : c.RunsInv held live) (hsub : held' ⊆ held) : c.RunsInv held' live where
  usable i hi := h.usable i (hsub hi)
  disjoint i hi j hj := h.disjoint i (hsub hi) j (hsub hj)

theorem UsableRun.mono {b : FreeBlock} (h : c.UsableRun live b) (hsub : live' ⊆ live) :
    c.UsableRun live' b := by
  rcases h with h | ⟨hoff, hsize, hle, hdisj⟩
  · exact .inl h
  · exact .inr ⟨hoff, hsize, hle, hdisj.mono_right hsub⟩

theorem Inv.mono (h : c.Inv live) (hsub : live' ⊆ live) : c.Inv live' where
  slots := h.slots
  runs := ⟨fun i hi => (h.runs.usable i hi).mono hsub, h.runs.disjoint⟩
  sizes := { h.sizes with live_lt := fun p hp => h.sizes.live_lt p (hsub hp) }

theorem Inv.setData (h : c.Inv live) (data : Nat → UInt8) : ({ c with data } : Content2).Inv live := by
  obtain ⟨chain, hslots⟩ := h.slots
  exact ⟨⟨chain, hslots.linked, hslots.nodup, hslots.mem_iff⟩, ⟨h.runs.usable, h.runs.disjoint⟩, { h.sizes with }⟩

theorem IsSlot.ne_max (hfile : c.freeBlockFileSize ≤ freeBlockFileMaxSize) {i : Nat}
    (h : c.IsSlot i) : i ≠ freeBlockFileMaxSize := by
  have := h.2.2
  omega

@[simp] theorem setBlock_cache_self (i : Nat) (b : FreeBlock) : (c.setBlock i b).cache i = b :=
  assign_self ..

theorem setBlock_cache_of_ne {i j : Nat} (h : j ≠ i) (b : FreeBlock) :
    (c.setBlock i b).cache j = c.cache j := assign_of_ne h ..

/-! ### Giving a run back -/

variable {size offset : Nat}

theorem Inv.pushFreeBlock (h : c.Inv live) (hheader : c.header ≠ freeBlockFileMaxSize) (hsub : live' ⊆ live)
    (hrun : offset = 0 ∧ size = 0 ∨ 0 < size ∧ Set.Ico offset (offset + size) ⊆ live ∧
      Disjoint (Set.Ico offset (offset + size)) live') :
    (c.pushFreeBlock size offset).Inv live' := by
  obtain ⟨chain, hslots⟩ := h.slots
  obtain ⟨rest, rfl, hrest⟩ := hslots.linked.exists_cons hheader
  have hnodup := hslots.nodup
  simp only [List.cons_append, List.nodup_cons, List.mem_append, not_or] at hnodup
  obtain ⟨⟨hnotrest, hnotlist⟩, hrestnodup⟩ := hnodup
  have hperm := insertBy_perm (fun j => ((c.setBlock c.header ⟨offset, size⟩).cache j).size) c.header c.freeBlockList
  have hcache {j : Nat} (hj : j ≠ c.header) :
      (c.setBlock c.header ⟨offset, size⟩).cache j = c.cache j := setBlock_cache_of_ne hj _
  -- The pages of the new run were live, so no other run has one of them.
  have hnew {j : Nat} (hj : j ∈ c.freeBlockList) : Disjoint (Set.Ico offset (offset + size)) (c.cache j).pages := by
    rcases hrun with ⟨rfl, rfl⟩ | ⟨-, hlive, -⟩
    · simp
    · rcases h.runs.usable j hj with ⟨hoff, hsize⟩ | ⟨-, -, -, hdisj⟩
      · simp [FreeBlock.pages, hoff, hsize]
      · exact (hdisj.mono_right hlive).symm
  refine ⟨⟨rest, ?_⟩, ?_, { h.sizes with live_lt := fun p hp => h.sizes.live_lt p (hsub hp) }⟩
  · refine SlotsInv.perm ⟨?_, ?_, fun i => ?_⟩ hperm.symm
    · refine hrest.congr fun j hj => ?_
      have hne : j ≠ c.header := fun heq => hnotrest (heq ▸ hj)
      exact congrArg FreeBlock.offset (hcache hne)
    · exact (List.perm_middle.nodup_iff).mpr (List.nodup_cons.mpr ⟨by simp [hnotrest, hnotlist], hrestnodup⟩)
    · rw [List.perm_middle.mem_iff]
      exact hslots.mem_iff i
  · refine RunsInv.subset ⟨?_, ?_⟩ hperm.subset
    · intro j hj
      by_cases hjh : j = c.header
      · subst hjh
        change UsableRun _ _ ((c.setBlock c.header ⟨offset, size⟩).cache c.header)
        rw [setBlock_cache_self]
        rcases hrun with hempty | ⟨hsize, hlive, hdisj⟩
        · exact .inl hempty
        · have hfirst := h.sizes.live_lt offset (hlive (by simp; omega))
          have hlast := h.sizes.live_lt (offset + size - 1) (hlive (by simp; omega))
          exact .inr ⟨hfirst.1, hsize, show offset + size ≤ c.dataFileSize / page by omega, hdisj⟩
      · have hmem : j ∈ c.freeBlockList := (List.mem_cons.mp hj).resolve_left hjh
        change UsableRun _ _ ((c.setBlock c.header ⟨offset, size⟩).cache j)
        rw [hcache hjh]
        exact (h.runs.usable j hmem).mono hsub
    · intro i hi j hj hij
      change Disjoint ((c.setBlock c.header ⟨offset, size⟩).cache i).pages
        ((c.setBlock c.header ⟨offset, size⟩).cache j).pages
      by_cases hih : i = c.header
      · subst hih
        have hmem : j ∈ c.freeBlockList := (List.mem_cons.mp hj).resolve_left (Ne.symm hij)
        rw [setBlock_cache_self, hcache (Ne.symm hij)]
        exact hnew hmem
      · have himem : i ∈ c.freeBlockList := (List.mem_cons.mp hi).resolve_left hih
        by_cases hjh : j = c.header
        · subst hjh
          rw [setBlock_cache_self, hcache hih]
          exact (hnew himem).symm
        · have hjmem : j ∈ c.freeBlockList := (List.mem_cons.mp hj).resolve_left hjh
          rw [hcache hih, hcache hjh]
          exact h.runs.disjoint i himem j hjmem hij

theorem sameData_pushFreeBlock (size offset : Nat) : c.SameData (c.pushFreeBlock size offset) :=
  ⟨rfl, rfl⟩

/-! ### Giving a run out -/

theorem pages_cut {b : FreeBlock} {size : Nat} (h : size ≤ b.size) : Set.Ico b.offset (b.offset + size) ⊆ b.pages ∧
    FreeBlock.pages ⟨b.offset + size, b.size - size⟩ ⊆ b.pages ∧
    Disjoint (FreeBlock.pages ⟨b.offset + size, b.size - size⟩) (Set.Ico b.offset (b.offset + size)) := by
  simp only [FreeBlock.pages]
  refine ⟨fun p hp => ?_, fun p hp => ?_, Set.disjoint_left.mpr fun p hp hp' => ?_⟩
  all_goals
    simp only [Set.mem_Ico] at *
    omega

def cutRun (c : Content2) (i size : Nat) : Content2 :=
  if size = (c.cache i).size then { c.setBlock i ⟨c.header, 0⟩ with header := i }
  else c.setBlock i ⟨(c.cache i).offset + size, (c.cache i).size - size⟩

def cutList (c : Content2) (i size : Nat) : List Nat :=
  if size = (c.cache i).size then c.freeBlockList.erase i
  else insertBy (fun j => ((c.cutRun i size).cache j).size) i (c.freeBlockList.erase i)

def lastSize (c : Content2) (list : List Nat) : Nat :=
  match list.getLast? with
  | some j => (c.cache j).size
  | none => 0

theorem useFreeBlock_eq_cut (hsize : 0 < size) (hlt : size < 2 ^ 32)
    (huse : c.useFreeBlock size = some (offset, c')) :
    ∃ i ∈ c.freeBlockList, size ≤ (c.cache i).size ∧ offset = (c.cache i).offset ∧ c' = { c.cutRun i size with
        freeBlockList := c.cutList i size
        freeBlockMax := (c.cutRun i size).lastSize (c.cutList i size) } := by
  unfold useFreeBlock at huse
  split at huse
  · cases huse
  simp only at huse
  split at huse
  · cases huse
  rename_i i hfind
  have hmem : i ∈ c.freeBlockList := List.mem_of_find?_eq_some hfind
  have hfit := List.find?_some hfind
  have hle : size ≤ (c.cache i).size := by
    simp only [decide_eq_true_eq] at hfit
    omega
  simp only [Option.some.injEq, Prod.mk.injEq] at huse
  obtain ⟨rfl, hc'⟩ := huse
  refine ⟨i, hmem, hle, rfl, ?_⟩
  by_cases heq : size = (c.cache i).size
  · simp only [cutRun, cutList, lastSize, if_pos heq, setBlock_cache_self] at hc' ⊢
    exact hc'.symm
  · have hpos : (c.cache i).size - size > 0 := by omega
    simp only [cutRun, cutList, lastSize, if_neg heq, setBlock_cache_self, if_pos hpos, insertFree] at hc' ⊢
    exact hc'.symm

theorem cutList_perm (i size : Nat) : (c.cutList i size).Perm (if size = (c.cache i).size then c.freeBlockList.erase i
      else i :: c.freeBlockList.erase i) := by
  unfold cutList
  split
  · exact .refl _
  · exact insertBy_perm _ _ _

section Cut

variable {i j size : Nat}

theorem cutRun_cache_of_ne (hj : j ≠ i) : (c.cutRun i size).cache j = c.cache j := by
  unfold cutRun
  split <;> exact setBlock_cache_of_ne hj _

theorem cutRun_cache_self (hne : size ≠ (c.cache i).size) :
    (c.cutRun i size).cache i = ⟨(c.cache i).offset + size, (c.cache i).size - size⟩ := by
  rw [cutRun, if_neg hne, setBlock_cache_self]

theorem cutRun_data : c.SameData (c.cutRun i size) ∧ (c.cutRun i size).freeBlockFileSize = c.freeBlockFileSize := by
  unfold cutRun
  split <;> exact ⟨⟨rfl, rfl⟩, rfl⟩

theorem of_mem_cutList (hnodup : c.freeBlockList.Nodup) (hi : i ∈ c.freeBlockList) (hj : j ∈ c.cutList i size) :
    j ∈ c.freeBlockList ∧ (j = i → size ≠ (c.cache i).size) := by
  rw [(cutList_perm i size).mem_iff] at hj
  split_ifs at hj with heq
  · obtain ⟨hne, hj⟩ := hnodup.mem_erase_iff.mp hj
    exact ⟨hj, fun hji => absurd hji hne⟩
  · refine ⟨?_, fun _ => heq⟩
    rcases List.mem_cons.mp hj with rfl | hj
    · exact hi
    · exact List.mem_of_mem_erase hj

theorem SlotsInv.cut (h : c.SlotsInv chain c.freeBlockList) (hi : i ∈ c.freeBlockList) (size : Nat) :
    ∃ chain', (c.cutRun i size).SlotsInv chain' (c.cutList i size) := by
  have hperm := cutList_perm (c := c) i size
  have hslot (k : Nat) : (c.cutRun i size).IsSlot k ↔ c.IsSlot k := by
    simp only [IsSlot, cutRun_data.2]
  have hne {k : Nat} (hk : k ∈ chain) : k ≠ i := fun hki =>
    (List.nodup_append.mp h.nodup).2.2 i (hki ▸ hk) i hi rfl
  by_cases heq : size = (c.cache i).size
  · rw [if_pos heq] at hperm
    have hmove : (i :: chain ++ c.freeBlockList.erase i).Perm (chain ++ c.freeBlockList) :=
      List.perm_middle.symm.trans ((List.perm_cons_erase hi).symm.append_left chain)
    refine ⟨i :: chain, SlotsInv.perm ⟨?_, hmove.nodup_iff.mpr h.nodup, fun k => ?_⟩ hperm.symm⟩
    · simp only [cutRun, if_pos heq]
      refine h.linked.push (by simp) fun k hk => ?_
      rw [setBlock_cache_of_ne (hne hk)]
    · rw [hmove.mem_iff, h.mem_iff k, hslot]
  · rw [if_neg heq] at hperm
    refine ⟨chain, SlotsInv.perm ⟨?_, h.nodup, fun k => ?_⟩ ((List.perm_cons_erase hi).trans hperm.symm)⟩
    · simp only [cutRun, if_neg heq]
      refine h.linked.congr fun k hk => ?_
      rw [setBlock_cache_of_ne (hne hk)]
    · rw [h.mem_iff k, hslot]

theorem cutRun_pages_subset (hle : size ≤ (c.cache i).size) (hj : j = i → size ≠ (c.cache i).size) :
    ((c.cutRun i size).cache j).pages ⊆ (c.cache j).pages := by
  by_cases hji : j = i
  · subst hji
    rw [cutRun_cache_self (hj rfl)]
    exact (pages_cut hle).2.1
  · rw [cutRun_cache_of_ne hji]

theorem RunsInv.cut (h : c.RunsInv c.freeBlockList live) (hnodup : c.freeBlockList.Nodup)
    (hi : i ∈ c.freeBlockList) (hsize : 0 < size) (hle : size ≤ (c.cache i).size) :
    (c.cutRun i size).RunsInv (c.cutList i size) (live ∪ Set.Ico (c.cache i).offset ((c.cache i).offset + size)) where
  usable j hj := by
    obtain ⟨hmem, hself⟩ := of_mem_cutList hnodup hi hj
    rw [UsableRun, cutRun_data.1.2]
    by_cases hji : j = i
    · subst hji
      have hne := hself rfl
      rcases h.usable j hmem with hempty | ⟨hoff, -, hin, hlive⟩
      · omega
      obtain ⟨-, hkept, hapart⟩ := pages_cut hle
      rw [cutRun_cache_self hne]
      refine .inr ⟨by simp only; omega, by simp only; omega, by simp only; omega, ?_⟩
      exact Disjoint.union_right (hlive.mono_left hkept) hapart
    · rw [cutRun_cache_of_ne hji]
      rcases h.usable j hmem with hempty | ⟨hoff, hpos, hin, hlive⟩
      · exact .inl hempty
      · refine .inr ⟨hoff, hpos, hin, Disjoint.union_right hlive ?_⟩
        exact (h.disjoint j hmem i hi hji).mono_right (pages_cut hle).1
  disjoint j hj k hk hjk := by
    obtain ⟨hjmem, hjself⟩ := of_mem_cutList hnodup hi hj
    obtain ⟨hkmem, hkself⟩ := of_mem_cutList hnodup hi hk
    exact (h.disjoint j hjmem k hkmem hjk).mono (cutRun_pages_subset hle hjself) (cutRun_pages_subset hle hkself)

end Cut

theorem Inv.useFreeBlock (h : c.Inv live) (hsize : 0 < size)
    (hlt : size < 2 ^ 32) (huse : c.useFreeBlock size = some (offset, c')) :
    Disjoint (Set.Ico offset (offset + size)) live ∧
    c'.Inv (live ∪ Set.Ico offset (offset + size)) ∧ c.SameData c' := by
  obtain ⟨i, hi, hle, rfl, rfl⟩ := useFreeBlock_eq_cut hsize hlt huse
  obtain ⟨chain, hslots⟩ := h.slots
  have hnodup : c.freeBlockList.Nodup := (List.nodup_append.mp hslots.nodup).2.1
  obtain ⟨hsame, hfile⟩ : c.SameData (c.cutRun i size) ∧ _ := cutRun_data
  -- The run is not empty, so it is a usable one.
  obtain ⟨hoff, -, hin, hlive⟩ := (h.runs.usable i hi).resolve_left fun hempty => by omega
  obtain ⟨chain', hslots'⟩ := hslots.cut hi size
  have hruns := h.runs.cut hnodup hi hsize hle
  have hsizes := h.sizes.of_same hsame hfile
  refine ⟨hlive.mono_left (pages_cut hle).1,
    ⟨⟨chain', hslots'.linked, hslots'.nodup, hslots'.mem_iff⟩, ⟨hruns.usable, hruns.disjoint⟩,
      { hsizes with live_lt := ?_ }⟩, hsame⟩
  rintro p (hp | hp)
  · exact hsizes.live_lt p hp
  · simp only [Set.mem_Ico] at hp
    simp only [hsame.2]
    omega

/-! ### Parsing the free-block file -/

/-- Between two slots of the parse, which goes down from the last slot: `n` slots are still to be read. -/
structure ParseInv (c₀ : Content2) (start : List Nat) (c : Content2) (chain merge : List Nat) (n : Nat) : Prop where
  linked : Chain (fun i => (c.cache i).offset) freeBlockFileMaxSize c.header chain
  nodup : (chain ++ merge).Nodup
  mem_iff : ∀ i, i ∈ chain ++ merge ↔ c₀.IsSlot i ∧ (n * 8 < i ∨ i ∈ start)
  merge_run : ∀ i ∈ merge, c.cache i = c₀.cache i ∧ 0 < (c.cache i).offset ∧ 0 < (c.cache i).size
  chain_size : ∀ i ∈ chain, (c.cache i).size = 0 ∧ (c₀.cache i).size = 0
  rest : ∀ i, i ≤ n * 8 → c.cache i = c₀.cache i
  frame : c = { c₀ with cache := c.cache, header := c.header }

def SlotClear (c : Content2) (start : List Nat) (i : Nat) : Prop :=
  i ∈ start ∧ 0 < (c.cache i).offset ∧ (c.cache i).size = 0 ∨
    i ∉ start ∧ ((c.cache i).offset = 0 ∧ (c.cache i).size = 0 ∨ 0 < (c.cache i).offset ∧ 0 < (c.cache i).size)

theorem ParseInv.step {c₀ : Content2} {start merge : List Nat} {n : Nat}
    (h : ParseInv c₀ start c chain merge (n + 1)) (hslot : c₀.IsSlot ((n + 1) * 8))
    (hclear : c₀.SlotClear start ((n + 1) * 8)) :
    ∃ chain', ParseInv c₀ start (parseSlot c merge ((n + 1) * 8)).1 chain'
      (parseSlot c merge ((n + 1) * 8)).2 n ∧ (chain ≠ [] → chain' ≠ []) ∧
      ((c₀.cache ((n + 1) * 8)).offset = 0 → chain' ≠ []) := by
  have hcache := h.rest ((n + 1) * 8) le_rfl
  -- The next slot is the only one between the two bounds.
  have hbetween (i : Nat) : (c₀.IsSlot i ∧ (n * 8 < i ∨ i ∈ start)) ↔
      i = (n + 1) * 8 ∨ c₀.IsSlot i ∧ ((n + 1) * 8 < i ∨ i ∈ start) := by
    constructor
    · rintro ⟨hi, hlt | hstart⟩
      · by_cases heq : i = (n + 1) * 8
        · exact .inl heq
        · have := hi.1
          exact .inr ⟨hi, .inl (by omega)⟩
      · exact .inr ⟨hi, .inr hstart⟩
    · rintro (rfl | ⟨hi, hlt | hstart⟩)
      · exact ⟨hslot, .inl (by omega)⟩
      · exact ⟨hi, .inl (by omega)⟩
      · exact ⟨hi, .inr hstart⟩
  unfold parseSlot
  simp only [hcache]
  rcases hclear with ⟨hstart, hoff, hsize⟩ | ⟨hstart, hclear⟩
  · -- A slot of the chain is left where it is.
    rw [if_neg (by omega), if_neg (by omega)]
    refine ⟨chain, ⟨h.linked, h.nodup, fun i => ?_, h.merge_run, h.chain_size,
      fun i hi => h.rest i (by omega), h.frame⟩, id, fun h0 => by omega⟩
    rw [h.mem_iff, hbetween]
    refine ⟨.inr, ?_⟩
    rintro (rfl | hi)
    · exact ⟨hslot, .inr hstart⟩
    · exact hi
  have hnew : (n + 1) * 8 ∉ chain ++ merge := fun hmem => by
    rcases ((h.mem_iff _).mp hmem).2 with hlt | hmem
    · omega
    · exact hstart hmem
  rcases hclear with ⟨hoff, hsize⟩ | ⟨hoff, hsize⟩
  · -- A zeroed slot becomes the new head of the chain.
    rw [if_neg (by omega), if_pos hoff]
    have hnotchain : (n + 1) * 8 ∉ chain := fun hmem => hnew (List.mem_append_left _ hmem)
    have hkept {j : Nat} (hj : j ≠ (n + 1) * 8) (b : FreeBlock) :
        (c.setBlock ((n + 1) * 8) b).cache j = c.cache j := setBlock_cache_of_ne hj b
    refine ⟨(n + 1) * 8 :: chain, ⟨?_, ?_, fun i => ?_, fun i hi => ?_, fun i hi => ?_,
      fun i hi => ?_, ?_⟩, by simp, by simp⟩
    · refine h.linked.push (by simp) fun j hj => ?_
      have hne : j ≠ (n + 1) * 8 := fun heq => hnotchain (heq ▸ hj)
      simp only [hkept hne]
    · exact List.nodup_cons.mpr ⟨hnew, h.nodup⟩
    · rw [List.cons_append, List.mem_cons, h.mem_iff, hbetween]
    · have hne : i ≠ (n + 1) * 8 := fun heq => hnew (List.mem_append_right _ (heq ▸ hi))
      simp only [hkept hne]
      exact h.merge_run i hi
    · rcases List.mem_cons.mp hi with rfl | hi
      · simp only [setBlock_cache_self]
        exact ⟨hsize, hsize⟩
      · have hne : i ≠ (n + 1) * 8 := fun heq => hnotchain (heq ▸ hi)
        simp only [hkept hne]
        exact h.chain_size i hi
    · have hne : i ≠ (n + 1) * 8 := by omega
      simp only [hkept hne]
      exact h.rest i (by omega)
    · have hframe := h.frame
      rw [hframe]
      rfl
  · -- A slot with a run is collected.
    rw [if_pos ⟨hoff, hsize⟩]
    have hperm := insertBy_perm (fun j => (c.cache j).offset) ((n + 1) * 8) merge
    have hmove : (chain ++ insertBy (fun j => (c.cache j).offset) ((n + 1) * 8) merge).Perm
        ((n + 1) * 8 :: (chain ++ merge)) :=
      (hperm.append_left chain).trans List.perm_middle
    refine ⟨chain, ⟨h.linked, ?_, fun i => ?_, fun i hi => ?_, h.chain_size,
      fun i hi => h.rest i (by omega), h.frame⟩, id, fun h0 => by omega⟩
    · exact hmove.nodup_iff.mpr (List.nodup_cons.mpr ⟨hnew, h.nodup⟩)
    · rw [hmove.mem_iff, List.mem_cons, h.mem_iff, hbetween]
    · rcases List.mem_cons.mp (hperm.mem_iff.mp hi) with rfl | hi
      · exact ⟨hcache, by rw [hcache]; exact hoff, by rw [hcache]; exact hsize⟩
      · exact h.merge_run i hi

theorem ParseInv.run {c₀ : Content2} {start merge : List Nat} {n : Nat}
    (h : ParseInv c₀ start c chain merge n) (hn : n * 8 < c₀.freeBlockFileSize)
    (hclear : ∀ i, c₀.IsSlot i → c₀.SlotClear start i) :
    ∃ chain', ParseInv c₀ start (parseSlots n c merge).1 chain' (parseSlots n c merge).2 0 ∧
      (chain ≠ [] → chain' ≠ []) ∧
      ((∃ i, i ≤ n ∧ 0 < i ∧ (c₀.cache (i * 8)).offset = 0) → chain' ≠ []) := by
  induction n generalizing c chain merge with
  | zero => exact ⟨chain, h, id, fun ⟨i, hi, hpos, _⟩ => by omega⟩
  | succ n ih =>
    have hslot : c₀.IsSlot ((n + 1) * 8) := ⟨by omega, by omega, hn⟩
    obtain ⟨chain₁, hstep, hkeep₁, hzero₁⟩ := h.step hslot (hclear _ hslot)
    obtain ⟨chain₂, hrun, hkeep₂, hzero₂⟩ := ih hstep (by omega)
    refine ⟨chain₂, hrun, fun hne => hkeep₂ (hkeep₁ hne), ?_⟩
    rintro ⟨i, hi, hpos, hoff⟩
    by_cases heq : i = n + 1
    · subst heq
      exact hkeep₂ (hzero₁ hoff)
    · exact hzero₂ ⟨i, by omega, hpos, hoff⟩

theorem mergeStep_inv {prev curr : Nat} {held : List Nat} (hslots : c.SlotsInv chain (prev :: curr :: held))
    (hruns : c.RunsInv (prev :: curr :: held) live)
    (hadj : (c.cache prev).offset + (c.cache prev).size = (c.cache curr).offset)
    (hc' : c' = { (c.setBlock prev ⟨(c.cache prev).offset,
      (c.cache prev).size + (c.cache curr).size⟩).setBlock curr ⟨c.header, 0⟩ with
        header := curr }) :
    c'.SlotsInv (curr :: chain) (prev :: held) ∧ c'.RunsInv (prev :: held) live := by
  have hnodup := hslots.nodup
  have hmove : (curr :: chain ++ prev :: held).Perm (chain ++ prev :: curr :: held) := by
    refine List.Perm.trans ?_ ((List.Perm.swap prev curr held).append_left chain)
    exact List.perm_middle.symm
  have hparts := (hmove.nodup_iff).mpr hnodup
  simp only [List.cons_append, List.nodup_cons, List.mem_append, List.mem_cons, not_or] at hparts
  obtain ⟨⟨hcurrchain, hcurrprev, hcurrheld⟩, hrestnodup⟩ := hparts
  have hprevchain : prev ∉ chain := fun hmem =>
    (List.nodup_append.mp hrestnodup).2.2 prev hmem prev (by simp) rfl
  have hprevheld : prev ∉ held :=
    (List.nodup_cons.mp (List.nodup_append.mp hrestnodup).2.1).1
  have hprev : c'.cache prev = ⟨(c.cache prev).offset, (c.cache prev).size + (c.cache curr).size⟩ := by
    rw [hc']
    simp only [setBlock_cache_of_ne (Ne.symm hcurrprev), setBlock_cache_self]
  have hcurr : c'.cache curr = ⟨c.header, 0⟩ := by
    rw [hc']
    simp only [setBlock_cache_self]
  have hother {j : Nat} (hjp : j ≠ prev) (hjc : j ≠ curr) : c'.cache j = c.cache j := by
    rw [hc']
    simp only [setBlock_cache_of_ne hjc, setBlock_cache_of_ne hjp]
  have hheld {j : Nat} (hj : j ∈ held) : c'.cache j = c.cache j :=
    hother (fun heq => hprevheld (heq ▸ hj)) (fun heq => hcurrheld (heq ▸ hj))
  have hpages : (c'.cache prev).pages = (c.cache prev).pages ∪ (c.cache curr).pages := by
    rw [hprev]
    ext p
    simp only [FreeBlock.pages, Set.mem_union, Set.mem_Ico]
    omega
  have hsize : c'.dataFileSize = c.dataFileSize := by rw [hc']; rfl
  refine ⟨⟨?_, ?_, fun i => ?_⟩, ⟨?_, ?_⟩⟩
  · have hhead : c'.header = curr := by rw [hc']
    rw [hhead]
    refine hslots.linked.push (by rw [hcurr]) fun j hj => ?_
    rw [hother (fun heq => hprevchain (heq ▸ hj)) (fun heq => hcurrchain (heq ▸ hj))]
  · exact hmove.nodup_iff.mpr hnodup
  · rw [hmove.mem_iff, hslots.mem_iff, hc']
    exact Iff.rfl
  · intro j hj
    rcases List.mem_cons.mp hj with rfl | hj
    · have hp := hruns.usable j (by simp)
      have hb := hruns.usable curr (by simp)
      rw [UsableRun, hpages, hprev, hsize]
      rcases hp with ⟨hpo, hps⟩ | ⟨hpo, hps, hpin, hpl⟩
      · rcases hb with ⟨hbo, hbs⟩ | ⟨hbo, -⟩
        · exact .inl ⟨hpo, by simp only; omega⟩
        · omega
      · rcases hb with ⟨hbo, hbs⟩ | ⟨hbo, hbs, hbin, hbl⟩
        · omega
        · exact .inr ⟨hpo, by simp only; omega, by simp only; omega, hpl.union_left hbl⟩
    · rw [hheld hj]
      have := hruns.usable j (by simp [hj])
      rwa [UsableRun, hsize]
  · have hfront {j : Nat} (hj : j ∈ held) : Disjoint (c'.cache prev).pages (c'.cache j).pages := by
      rw [hpages, hheld hj]
      refine Disjoint.union_left (hruns.disjoint prev (by simp) j (by simp [hj]) ?_)
        (hruns.disjoint curr (by simp) j (by simp [hj]) ?_)
      · exact fun heq => hprevheld (heq ▸ hj)
      · exact fun heq => hcurrheld (heq ▸ hj)
    intro i hi j hj hij
    rcases List.mem_cons.mp hi with rfl | hiheld
    · exact hfront ((List.mem_cons.mp hj).resolve_left (Ne.symm hij))
    · rcases List.mem_cons.mp hj with rfl | hjheld
      · exact (hfront hiheld).symm
      · rw [hheld hiheld, hheld hjheld]
        exact hruns.disjoint i (by simp [hiheld]) j (by simp [hjheld]) hij

theorem mergeBlocks_inv (todo : List Nat) (prev : Option Nat)
    (hslots : c.SlotsInv chain (prev.toList ++ todo ++ c.freeBlockList))
    (hruns : c.RunsInv (prev.toList ++ todo ++ c.freeBlockList) live) :
    (∃ chain', (mergeBlocks c prev todo).SlotsInv chain' (mergeBlocks c prev todo).freeBlockList ∧
      (chain ≠ [] → chain' ≠ [])) ∧
    (mergeBlocks c prev todo).RunsInv (mergeBlocks c prev todo).freeBlockList live ∧
    c.SameData (mergeBlocks c prev todo) ∧
    (mergeBlocks c prev todo).freeBlockFileSize = c.freeBlockFileSize := by
  induction todo generalizing c prev chain with
  | nil =>
    cases prev with
    | none => exact ⟨⟨chain, hslots, id⟩, hruns, .rfl, rfl⟩
    | some prev =>
      have hperm := insertBy_perm (fun j => (c.cache j).size) prev c.freeBlockList
      refine ⟨⟨chain, ?_, id⟩, ?_, ⟨rfl, rfl⟩, rfl⟩
      · have hs := hslots.perm (show List.Perm _ (insertBy _ prev _) by simpa using hperm.symm)
        exact ⟨hs.linked, hs.nodup, hs.mem_iff⟩
      · have hr := hruns.subset (show insertBy _ prev _ ⊆ _ by simpa using hperm.subset)
        exact ⟨hr.usable, hr.disjoint⟩
  | cons curr rest ih =>
    cases prev with
    | none => exact ih (some curr) hslots hruns
    | some prev =>
      unfold mergeBlocks
      simp only
      split
      · rename_i hadj
        have hs : c.SlotsInv chain (prev :: curr :: (rest ++ c.freeBlockList)) := hslots
        obtain ⟨hslots', hruns'⟩ := mergeStep_inv hs hruns hadj rfl
        obtain ⟨⟨chain', hslots'', hne⟩, hruns'', hsame, hfile⟩ :=
          ih (c := { (c.setBlock prev ⟨(c.cache prev).offset,
            (c.cache prev).size + (c.cache curr).size⟩).setBlock curr ⟨c.header, 0⟩ with
              header := curr }) (some prev) hslots' hruns'
        exact ⟨⟨chain', hslots'', fun _ => hne (by simp)⟩, hruns'', hsame, hfile⟩
      · have hperm : (prev :: curr :: rest ++ c.freeBlockList).Perm
            (curr :: rest ++ insertBy (fun j => (c.cache j).size) prev c.freeBlockList) := by
          refine List.Perm.trans ?_ ((insertBy_perm (fun j => (c.cache j).size) prev
            c.freeBlockList).symm.append_left (curr :: rest))
          exact List.perm_middle.symm
        have hs := hslots.perm hperm
        have hr := hruns.subset hperm.symm.subset
        obtain ⟨hex, hruns'', hsame, hfile⟩ := ih (c := c.insertFree prev) (some curr)
          ⟨hs.linked, hs.nodup, hs.mem_iff⟩ ⟨hr.usable, hr.disjoint⟩
        exact ⟨hex, hruns'', hsame, hfile⟩

end Content2

end HustStore.Md5db
