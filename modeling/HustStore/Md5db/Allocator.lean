import HustStore.Md5db.Content2Spec
import Mathlib.Order.Interval.Set.LinearOrder

/-!
# The allocator from one opening to the next

The invariant that a content file keeps over its whole life, through growing and merging its table of free runs
and through being closed and opened again.
-/

namespace HustStore.Md5db

open Intrusive (Chain)

namespace Content2

variable {c c' : Content2} {live live' : Set Nat} {held : List Nat} {size offset : Nat}

/-- The file is closed and opened: the list of free runs is read from its cache again. -/
def reopen (c : Content2) : Content2 :=
  parseFreeBlock { c with freeBlockMax := 0, freeBlockList := [] }

/-- A slot off the list has no run, and the remembered maximum is no larger than the largest run. -/
structure Listed (c : Content2) : Prop where
  rest : ∀ i, c.IsSlot i → i ∉ c.freeBlockList → (c.cache i).size = 0
  max_le : c.freeBlockMax = 0 ∨ ∃ i ∈ c.freeBlockList, c.freeBlockMax ≤ (c.cache i).size

/-- What the allocator keeps besides its invariant: the list is of nonempty runs in the order of their sizes. -/
structure Tidy (c : Content2) : Prop where
  listed : c.Listed
  pos : ∀ i ∈ c.freeBlockList, 0 < (c.cache i).size
  by_size : c.BySize c.freeBlockList
  data_le : c.dataFileSize ≤ dataFileMaxSize + 2 ^ 32

/-- The state of a content file between two requests. -/
structure Sound (c : Content2) (live : Set Nat) : Prop where
  inv : c.Inv live
  tidy : c.Tidy

/-- No run is larger than the maximum that the file remembers. -/
def MaxTop (c : Content2) : Prop := ∀ i ∈ c.freeBlockList, (c.cache i).size ≤ c.freeBlockMax

theorem Listed.setData (h : c.Listed) (data : Nat → UInt8) : ({ c with data } : Content2).Listed :=
  ⟨h.rest, h.max_le⟩

theorem Sound.mono (h : c.Sound live) (hsub : live' ⊆ live) : c.Sound live' :=
  ⟨h.inv.mono hsub, h.tidy⟩

theorem Sound.setData (h : c.Sound live) (data : Nat → UInt8) : ({ c with data } : Content2).Sound live :=
  ⟨h.inv.setData data, h.tidy.listed.setData data, h.tidy.pos, h.tidy.by_size, h.tidy.data_le⟩

variable {i : Nat}

theorem Inv.isSlot (h : c.Inv live) (hi : i ∈ c.freeBlockList) : c.IsSlot i := by
  obtain ⟨chain, hslots⟩ := h.slots
  exact (hslots.mem_iff i).1 (List.mem_append_right _ hi)

theorem Inv.nodup (h : c.Inv live) : c.freeBlockList.Nodup := by
  obtain ⟨chain, hslots⟩ := h.slots
  exact (List.nodup_append.1 hslots.nodup).2.1

theorem Inv.header_not_mem (h : c.Inv live) (hheader : c.header ≠ freeBlockFileMaxSize) :
    c.header ∉ c.freeBlockList := by
  obtain ⟨chain, hslots⟩ := h.slots
  obtain ⟨rest, rfl, -⟩ := hslots.linked.exists_cons hheader
  intro hmem
  exact (List.nodup_append.1 hslots.nodup).2.2 _ (by simp) _ hmem rfl

theorem Sound.run (h : c.Sound live) (hi : i ∈ c.freeBlockList) : 0 < (c.cache i).offset ∧ 0 < (c.cache i).size ∧
      (c.cache i).offset + (c.cache i).size ≤ c.dataFileSize / page ∧
      Disjoint (c.cache i).pages live :=
  (h.inv.runs.usable i hi).resolve_left fun hempty => by
    have := h.tidy.pos i hi
    omega

theorem Tidy.pages_lt (h : c.Tidy) : c.dataFileSize / page < 2 ^ 29 := by
  have := h.data_le
  simp only [dataFileMaxSize, page] at *
  omega

theorem Sound.size_lt (h : c.Sound live) (hi : i ∈ c.freeBlockList) : (c.cache i).size < 2 ^ 29 := by
  have hrun := h.run hi
  have hlt := h.tidy.pages_lt
  omega

theorem size_le_of_pages {b b' : FreeBlock} (hpos : 0 < b.size) (h : b.pages ⊆ b'.pages) :
    b.size ≤ b'.size := by
  have hIco := (Set.Ico_subset_Ico_iff (show b.offset < b.offset + b.size by omega)).1 h
  omega

theorem freePages_of_rest (hrest : ∀ i, c.IsSlot i → i ∉ held → (c.cache i).size = 0) {i p : Nat}
    (hi : c.IsSlot i) (hp : p ∈ (c.cache i).pages) : i ∈ held := by
  by_contra hnot
  have hsize := hrest i hi hnot
  simp only [FreeBlock.pages, Set.mem_Ico, hsize] at hp
  omega

/-! ### Parsing -/

theorem Parsed.regroups (h : Parsed c live c') (hheld : c.HeldInv held)
    (hslot : ∀ i ∈ held, c.IsSlot i) : Regroups c held c' c'.freeBlockList where
  covers i hi := h.covers i (hslot i hi) (hheld.pos i hi)
  within j hj p hp := by
    obtain ⟨i, hi, hpi⟩ := h.within j hj p hp
    exact ⟨i, freePages_of_rest hheld.rest hi hpi, hpi⟩

theorem Parsed.listed (h : Parsed c live c')
    (hmax : c.freeBlockMax = 0 ∨ ∃ i, c.IsSlot i ∧ c.freeBlockMax ≤ (c.cache i).size) :
    c'.Listed where
  rest := h.held.rest
  max_le := by
    rw [h.max_eq]
    by_cases hzero : c.freeBlockMax = 0
    · exact .inl hzero
    · obtain ⟨i, hi, hle⟩ := hmax.resolve_left hzero
      obtain ⟨j, hj, hsub⟩ := h.covers i hi (by omega)
      have := size_le_of_pages (by omega) hsub
      exact .inr ⟨j, hj, by omega⟩

theorem Parsed.tidy (h : Parsed c live c') (hlisted : c'.Listed)
    (hdata : c.dataFileSize ≤ dataFileMaxSize + 2 ^ 32) : c'.Tidy where
  listed := hlisted
  pos := h.held.pos
  by_size := h.by_size
  data_le := by rw [h.same.2]; exact hdata

theorem SlotsInv.next_pos {chain : List Nat} (h : c.SlotsInv chain held) (hi : i ∈ chain) :
    0 < (c.cache i).offset := by
  rcases h.linked.next_mem hi with hlast | hmem
  · rw [hlast]
    decide
  · have := ((h.mem_iff _).1 (List.mem_append_left _ hmem)).2.1
    omega

theorem SlotsInv.header_pos {chain : List Nat} (h : c.SlotsInv chain held) : c.header ≠ 0 := by
  rcases h.linked.head_mem with hlast | hmem
  · rw [hlast]
    decide
  · have := ((h.mem_iff _).1 (List.mem_append_left _ hmem)).2.1
    omega

theorem Inv.parsed_reopen (h : c.Inv live) (hlisted : c.Listed) :
    Parsed { c with freeBlockMax := 0, freeBlockList := [] } live c.reopen := by
  obtain ⟨chain, hslots⟩ := h.slots
  have hnot {i : Nat} (hi : i ∈ chain) : i ∉ c.freeBlockList := fun hmem =>
    (List.nodup_append.1 hslots.nodup).2.2 i hi i hmem rfl
  have hmem {i : Nat} (hi : c.IsSlot i) (hchain : i ∉ chain) : i ∈ c.freeBlockList :=
    (List.mem_append.1 ((hslots.mem_iff i).2 hi)).resolve_left hchain
  have hempty {i : Nat} (hi : c.IsSlot i) (hlist : i ∉ c.freeBlockList) : (c.cache i).pages = ∅ := by
    rw [FreeBlock.pages, hlisted.rest i hi hlist, Nat.add_zero, Set.Ico_self]
  have hstart : Chain (fun i => (c.cache i).offset) freeBlockFileMaxSize
      (if c.header = 0 then freeBlockFileMaxSize else c.header) chain := by
    rw [if_neg hslots.header_pos]
    exact hslots.linked
  refine (parseFreeBlock_spec (c := { c with freeBlockMax := 0, freeBlockList := [] }) hstart
    (List.nodup_append.1 hslots.nodup).1 (fun i hi => ?_)
    (fun i hi hchain => h.runs.usable i (hmem hi hchain)) (fun i j hi hj hij => ?_)
    { h.sizes with }).1
  · have hslot := (hslots.mem_iff i).1 (List.mem_append_left _ hi)
    exact ⟨hslot, hslots.next_pos hi, hlisted.rest i hslot (hnot hi)⟩
  · show Disjoint (c.cache i).pages (c.cache j).pages
    by_cases hilist : i ∈ c.freeBlockList
    · by_cases hjlist : j ∈ c.freeBlockList
      · exact h.runs.disjoint i hilist j hjlist hij
      · rw [hempty hj hjlist]
        exact Set.disjoint_empty _
    · rw [hempty hi hilist]
      exact Set.empty_disjoint _

theorem Inv.reopen_listed (h : c.Inv live) (hlisted : c.Listed) : c.reopen.Listed :=
  (h.parsed_reopen hlisted).listed (.inl rfl)

theorem Sound.parsed_reopen (h : c.Sound live) :
    Parsed { c with freeBlockMax := 0, freeBlockList := [] } live c.reopen :=
  h.inv.parsed_reopen h.tidy.listed

theorem Sound.reopen (h : c.Sound live) : c.reopen.Sound live :=
  ⟨h.parsed_reopen.inv, h.parsed_reopen.tidy (h.inv.reopen_listed h.tidy.listed) h.tidy.data_le⟩

theorem Sound.reopen_same (h : c.Sound live) : c.SameData c.reopen := h.parsed_reopen.same

theorem Sound.reopen_regroups (h : c.Sound live) : Regroups c c.freeBlockList c.reopen c.reopen.freeBlockList := by
  have hheld : HeldInv { c with freeBlockMax := 0, freeBlockList := [] } c.freeBlockList :=
    ⟨h.tidy.pos, h.tidy.listed.rest⟩
  have hregroups := h.parsed_reopen.regroups hheld fun i hi => h.inv.isSlot hi
  exact ⟨hregroups.covers, hregroups.within⟩

theorem Sound.reopen_max (h : c.Sound live) : c.reopen.freeBlockMax = 0 := h.parsed_reopen.max_eq

theorem parseSlots_of_linked (n : Nat) (merge : List Nat)
    (hslots : ∀ i, 0 < i → i ≤ n → 0 < (c.cache (i * 8)).offset ∧ (c.cache (i * 8)).size = 0) :
    parseSlots n c merge = (c, merge) := by
  induction n with
  | zero => rfl
  | succ n ih =>
    obtain ⟨hoffset, hsize⟩ := hslots (n + 1) (by omega) le_rfl
    have hslot : parseSlot c merge ((n + 1) * 8) = (c, merge) := by
      unfold parseSlot
      simp only
      rw [if_neg (by omega), if_neg (by omega)]
    rw [parseSlots, hslot]
    exact ih fun i hpos hi => hslots i hpos (by omega)

theorem reopen_of_linked (hheader : c.header ≠ 0) (hslots : ∀ i, 0 < i → i ≤ c.freeBlockFileSize / 8 - 1 →
      0 < (c.cache (i * 8)).offset ∧ (c.cache (i * 8)).size = 0) :
    c.reopen = { c with freeBlockMax := 0, freeBlockList := [] } := by
  unfold Content2.reopen parseFreeBlock
  simp only [if_neg hheader]
  rw [parseSlots_of_linked (c := { c with freeBlockMax := 0, freeBlockList := [] }) _ _ hslots]
  rfl

/-! ### Growing the table of runs -/

theorem grown_cache (hi : i < c.freeBlockFileSize) : c.grown.cache i = c.cache i := if_pos hi

theorem Sound.held_grown (h : c.Sound live) : c.grown.HeldInv c.freeBlockList where
  pos i hi := by
    rw [grown_cache (h.inv.isSlot hi).2.2]
    exact h.tidy.pos i hi
  rest i hi hnot := by
    by_cases hold : i < c.freeBlockFileSize
    · rw [grown_cache hold]
      exact h.tidy.listed.rest i ⟨hi.1, hi.2.1, hold⟩ hnot
    · exact congrArg FreeBlock.size (if_neg hold)

theorem isSlot_grown (hi : c.IsSlot i) : c.grown.IsSlot i :=
  ⟨hi.1, hi.2.1, Nat.lt_add_right _ hi.2.2⟩

theorem Inv.grow_listed (h : c.Inv live) (hlisted : c.Listed) (hheader : c.header = freeBlockFileMaxSize)
    (hlt : c.freeBlockFileSize < freeBlockFileMaxSize) : c.grown.parseFreeBlock.Listed := by
  refine (h.parsed_grown hheader hlt).1.listed (hlisted.max_le.imp_right ?_)
  rintro ⟨i, hi, hle⟩
  exact ⟨i, isSlot_grown (h.isSlot hi), by rwa [grown_cache (h.isSlot hi).2.2]⟩

theorem Sound.grow (h : c.Sound live) (hheader : c.header = freeBlockFileMaxSize)
    (hlt : c.freeBlockFileSize < freeBlockFileMaxSize) :
    c.grown.parseFreeBlock.Sound live ∧ c.grown.parseFreeBlock.header ≠ freeBlockFileMaxSize ∧
      c.SameData c.grown.parseFreeBlock ∧
      c.grown.parseFreeBlock.freeBlockMax = c.freeBlockMax ∧
      Regroups c c.freeBlockList c.grown.parseFreeBlock c.grown.parseFreeBlock.freeBlockList := by
  obtain ⟨hparsed, hhead⟩ := h.inv.parsed_grown hheader hlt
  have hregroups := hparsed.regroups h.held_grown fun i hi => isSlot_grown (h.inv.isSlot hi)
  have hcache {i : Nat} (hi : i ∈ c.freeBlockList) : c.grown.cache i = c.cache i :=
    grown_cache (h.inv.isSlot hi).2.2
  have hlisted := h.inv.grow_listed h.tidy.listed hheader hlt
  refine ⟨⟨hparsed.inv, hparsed.tidy hlisted h.tidy.data_le⟩, hhead, hparsed.same, hparsed.max_eq,
    fun i hi => ?_, fun j hj p hp => ?_⟩
  · obtain ⟨j, hj, hsub⟩ := hregroups.covers i hi
    rw [hcache hi] at hsub
    exact ⟨j, hj, hsub⟩
  · obtain ⟨i, hi, hpi⟩ := hregroups.within j hj hp
    rw [hcache hi] at hpi
    exact ⟨i, hi, hpi⟩

/-! ### Giving a run back -/

@[simp] theorem pushFreeBlock_cache_self :
    (c.pushFreeBlock size offset).cache c.header = ⟨offset, size⟩ := assign_self ..

theorem pushFreeBlock_cache_of_ne (hi : i ≠ c.header) :
    (c.pushFreeBlock size offset).cache i = c.cache i := assign_of_ne hi ..

theorem pushFreeBlock_perm : (c.pushFreeBlock size offset).freeBlockList.Perm (c.header :: c.freeBlockList) :=
  insertBy_perm _ _ _

theorem pushFreeBlock_max : (c.pushFreeBlock size offset).freeBlockMax = max c.freeBlockMax size := by
  show (if c.freeBlockMax < size then size else c.freeBlockMax) = _
  split <;> omega

theorem Inv.push_kept (h : c.Inv live) (hheader : c.header ≠ freeBlockFileMaxSize)
    (hi : i ∈ c.freeBlockList) : (c.pushFreeBlock size offset).cache i = c.cache i :=
  pushFreeBlock_cache_of_ne fun heq => h.header_not_mem hheader (heq ▸ hi)

theorem Inv.push_listed (h : c.Inv live) (hlisted : c.Listed)
    (hheader : c.header ≠ freeBlockFileMaxSize) : (c.pushFreeBlock size offset).Listed where
  rest i hi hnot := by
    have hnot' : i ∉ c.header :: c.freeBlockList := fun hmem =>
      hnot (pushFreeBlock_perm.mem_iff.2 hmem)
    obtain ⟨hne, hlist⟩ := not_or.1 (fun hor => hnot' (List.mem_cons.2 hor))
    rw [pushFreeBlock_cache_of_ne hne]
    exact hlisted.rest i hi hlist
  max_le := by
    rw [pushFreeBlock_max]
    by_cases hlt : c.freeBlockMax < size
    · refine .inr ⟨c.header, pushFreeBlock_perm.mem_iff.2 (by simp), ?_⟩
      rw [pushFreeBlock_cache_self, max_eq_right hlt.le]
    · rw [max_eq_left (not_lt.1 hlt)]
      refine hlisted.max_le.imp_right ?_
      rintro ⟨i, hi, hle⟩
      exact ⟨i, pushFreeBlock_perm.mem_iff.2 (List.mem_cons_of_mem _ hi), by rwa [h.push_kept hheader hi]⟩

section

variable (h : c.Sound live) (hheader : c.header ≠ freeBlockFileMaxSize)
include h hheader

theorem Sound.push_tidy (hsize : 0 < size) : (c.pushFreeBlock size offset).Tidy where
  listed := h.inv.push_listed h.tidy.listed hheader
  pos i hi := by
    rcases List.mem_cons.1 (pushFreeBlock_perm.mem_iff.1 hi) with rfl | hi
    · rw [pushFreeBlock_cache_self]
      exact hsize
    · rw [h.inv.push_kept hheader hi]
      exact h.tidy.pos i hi
  by_size := pairwise_insertBy c.header (h.tidy.by_size.congr fun _ hi => h.inv.push_kept hheader hi)
  data_le := h.tidy.data_le

theorem Sound.push_freePages : (c.pushFreeBlock size offset).freePages (c.pushFreeBlock size offset).freeBlockList =
      c.freePages c.freeBlockList ∪ Set.Ico offset (offset + size) := by
  ext p
  constructor
  · rintro ⟨i, hi, hp⟩
    rcases List.mem_cons.1 (pushFreeBlock_perm.mem_iff.1 hi) with rfl | hi
    · rw [pushFreeBlock_cache_self] at hp
      exact .inr hp
    · rw [h.inv.push_kept hheader hi] at hp
      exact .inl ⟨i, hi, hp⟩
  · rintro (⟨i, hi, hp⟩ | hp)
    · exact ⟨i, pushFreeBlock_perm.mem_iff.2 (List.mem_cons_of_mem _ hi), by rwa [h.inv.push_kept hheader hi]⟩
    · exact ⟨c.header, pushFreeBlock_perm.mem_iff.2 (by simp), by rwa [pushFreeBlock_cache_self]⟩

theorem Sound.push_maxTop (htop : ∀ i ∈ c.freeBlockList, (c.cache i).size ≤ max c.freeBlockMax size) :
    (c.pushFreeBlock size offset).MaxTop := by
  intro i hi
  rw [pushFreeBlock_max]
  rcases List.mem_cons.1 (pushFreeBlock_perm.mem_iff.1 hi) with rfl | hi
  · rw [pushFreeBlock_cache_self]
    exact le_max_right _ _
  · rw [h.inv.push_kept hheader hi]
    exact htop i hi

end

theorem Sound.addFreeBlock_cases (h : c.Sound live) (hadd : c.addFreeBlock size offset = some c') :
    ∃ c₁ : Content2, c₁.Sound live ∧ c₁.header ≠ freeBlockFileMaxSize ∧ c.SameData c₁ ∧
      c₁.freeBlockMax = c.freeBlockMax ∧ Regroups c c.freeBlockList c₁ c₁.freeBlockList ∧
      (c.header ≠ freeBlockFileMaxSize → c₁ = c) ∧ c' = c₁.pushFreeBlock size offset := by
  by_cases hheader : c.header = freeBlockFileMaxSize
  · have hlt := (hasSlot_of_addFreeBlock hadd).resolve_left (not_not_intro hheader)
    rw [addFreeBlock, if_pos hheader, incrFreeBlockFile_eq hlt] at hadd
    obtain ⟨hsound, hhead, hsame, hmax, hregroups⟩ := h.grow hheader hlt
    exact ⟨_, hsound, hhead, hsame, hmax, hregroups, fun hne => absurd hheader hne, (Option.some.inj hadd).symm⟩
  · rw [addFreeBlock, if_neg hheader] at hadd
    exact ⟨c, h, hheader, .rfl, rfl, .of_perm (.refl _) rfl, fun _ => rfl, (Option.some.inj hadd).symm⟩

theorem Sound.addFreeBlock (h : c.Sound live) (hsub : live' ⊆ live) (hsize : 0 < size)
    (hrun : Set.Ico offset (offset + size) ⊆ live)
    (hdisj : Disjoint (Set.Ico offset (offset + size)) live')
    (hadd : c.addFreeBlock size offset = some c') :
    c'.Sound live' ∧ c.SameData c' ∧ c'.freePages c'.freeBlockList =
        c.freePages c.freeBlockList ∪ Set.Ico offset (offset + size) := by
  obtain ⟨c₁, hsound, hhead, hsame, -, hregroups, -, rfl⟩ := h.addFreeBlock_cases hadd
  refine ⟨⟨hsound.inv.pushFreeBlock hhead hsub (.inr ⟨hsize, hrun, hdisj⟩),
    hsound.push_tidy hhead hsize⟩, hsame.trans (sameData_pushFreeBlock _ _), ?_⟩
  rw [hsound.push_freePages hhead, hregroups.freePages_eq]

/-- The free pages have no longer span, however they are cut into runs. -/
def SpansAtMost (c : Content2) (bound : Nat) : Prop :=
  ∀ a n, Set.Ico a (a + n) ⊆ c.freePages c.freeBlockList → n ≤ bound

theorem SpansAtMost.size_le {bound : Nat} (h : c.SpansAtMost bound)
    (hregroups : Regroups c c.freeBlockList c' held) (hi : i ∈ held) :
    (c'.cache i).size ≤ bound :=
  h _ _ (hregroups.within i hi)

theorem Sound.addFreeBlock_maxTop (h : c.Sound live) (htop : c.MaxTop)
    (hspans : c.header = freeBlockFileMaxSize → c.SpansAtMost (max c.freeBlockMax size))
    (hadd : c.addFreeBlock size offset = some c') : c'.MaxTop := by
  obtain ⟨c₁, hsound, hhead, -, hmax, hregroups, hsame, rfl⟩ := h.addFreeBlock_cases hadd
  refine hsound.push_maxTop hhead fun i hi => ?_
  rw [hmax]
  by_cases hheader : c.header = freeBlockFileMaxSize
  · exact (hspans hheader).size_le hregroups hi
  · rw [hsame hheader] at hi ⊢
    exact (htop i hi).trans (le_max_left _ _)

/-! ### Giving a run out -/

theorem lastSize_eq (list : List Nat) : c.lastSize list = 0 ∨ ∃ i ∈ list, c.lastSize list = (c.cache i).size := by
  unfold lastSize
  cases hlast : list.getLast? with
  | none => exact .inl rfl
  | some i => exact .inr ⟨i, List.mem_of_getLast? hlast, rfl⟩

theorem BySize.le_lastSize {list : List Nat} (h : c.BySize list) (hi : i ∈ list) :
    (c.cache i).size ≤ c.lastSize list := by
  obtain ⟨j, hj⟩ := Option.isSome_iff_exists.1 (List.getLast?_isSome.2 (List.ne_nil_of_mem hi))
  obtain ⟨front, rfl⟩ := List.getLast?_eq_some_iff.1 hj
  unfold lastSize
  rw [hj]
  rcases List.mem_append.1 hi with hfront | hlast
  · exact (List.pairwise_append.1 h).2.2 i hfront j (by simp)
  · rw [List.mem_singleton.1 hlast]

theorem cutRun_size : ((c.cutRun i size).cache i).size = (c.cache i).size - size := by
  unfold cutRun
  split
  · next heq =>
    simp only [setBlock_cache_self]
    omega
  · rw [setBlock_cache_self]

theorem Sound.cut_bySize (h : c.Sound live) (i size : Nat) : (c.cutRun i size).BySize (c.cutList i size) := by
  have herase : (c.cutRun i size).BySize (c.freeBlockList.erase i) := by
    have hsub : c.BySize (c.freeBlockList.erase i) :=
      List.Pairwise.sublist List.erase_sublist h.tidy.by_size
    refine hsub.congr fun j hj => cutRun_cache_of_ne ?_
    exact (h.inv.nodup.mem_erase_iff.1 hj).1
  unfold cutList
  split
  · exact herase
  · exact pairwise_insertBy i herase

theorem mem_cutList (hnodup : c.freeBlockList.Nodup) {i j : Nat} (hi : i ∈ c.freeBlockList)
    (hle : size ≤ (c.cache i).size) :
    j ∈ c.cutList i size ↔ j ∈ c.freeBlockList ∧ 0 < ((c.cutRun i size).cache j).size ∨
      j ∈ c.freeBlockList ∧ j ≠ i := by
  rw [(cutList_perm i size).mem_iff]
  by_cases heq : size = (c.cache i).size
  · rw [if_pos heq, hnodup.mem_erase_iff]
    constructor
    · rintro ⟨hne, hj⟩
      exact .inr ⟨hj, hne⟩
    · rintro (⟨hj, hpos⟩ | ⟨hj, hne⟩)
      · refine ⟨?_, hj⟩
        rintro rfl
        rw [cutRun_size] at hpos
        omega
      · exact ⟨hne, hj⟩
  · rw [if_neg heq, List.mem_cons, hnodup.mem_erase_iff]
    constructor
    · rintro (rfl | ⟨hne, hj⟩)
      · refine .inl ⟨hi, ?_⟩
        rw [cutRun_size]
        omega
      · exact .inr ⟨hj, hne⟩
    · rintro (⟨hj, -⟩ | ⟨hj, hne⟩)
      · by_cases hji : j = i
        · exact .inl hji
        · exact .inr ⟨hji, hj⟩
      · exact .inr ⟨hne, hj⟩

theorem Inv.cut_listed (h : c.Inv live) (hlisted : c.Listed) (hi : i ∈ c.freeBlockList)
    (hle : size ≤ (c.cache i).size) :
    ({ c.cutRun i size with
      freeBlockList := c.cutList i size
      freeBlockMax := (c.cutRun i size).lastSize (c.cutList i size) } : Content2).Listed where
  rest j hj hnot := by
    by_contra hpos
    refine hnot ((mem_cutList h.nodup hi hle).2 (.inl ⟨?_, Nat.pos_of_ne_zero hpos⟩))
    by_cases hji : j = i
    · rwa [hji]
    · have hslot : c.IsSlot j := by simpa only [IsSlot, cutRun_data.2] using hj
      by_contra hlist
      simp only [cutRun_cache_of_ne hji] at hpos
      exact hpos (hlisted.rest j hslot hlist)
  max_le := by
    rcases lastSize_eq (c := c.cutRun i size) (c.cutList i size) with hzero | ⟨j, hj, heq⟩
    · exact .inl hzero
    · exact .inr ⟨j, hj, heq.le⟩

theorem Sound.useFreeBlock (h : c.Sound live) (hsize : 0 < size) (hlt : size < 2 ^ 32)
    (huse : c.useFreeBlock size = some (offset, c')) :
    Disjoint (Set.Ico offset (offset + size)) live ∧
      c'.Sound (live ∪ Set.Ico offset (offset + size)) ∧ c.SameData c' ∧ c'.MaxTop := by
  obtain ⟨hdisj, hinv, hsame⟩ := h.inv.useFreeBlock hsize hlt huse
  obtain ⟨i, hi, hle, -, rfl⟩ := useFreeBlock_eq_cut hsize hlt huse
  have hsorted := h.cut_bySize i size
  refine ⟨hdisj, ⟨hinv, h.inv.cut_listed h.tidy.listed hi hle, fun j hj => ?_, hsorted, ?_⟩, hsame,
    fun j hj => hsorted.le_lastSize hj⟩
  · rcases (mem_cutList h.inv.nodup hi hle).1 hj with ⟨-, hpos⟩ | ⟨hlisted, hne⟩
    · exact hpos
    · simp only [cutRun_cache_of_ne hne]
      exact h.tidy.pos j hlisted
  · rw [hsame.2]
    exact h.tidy.data_le

theorem useFreeBlock_ne_none (hi : i ∈ c.freeBlockList) (hsize : 0 < size)
    (hlt : size < 2 ^ 32) (hle : size ≤ (c.cache i).size) (hmax : size ≤ c.freeBlockMax) :
    c.useFreeBlock size ≠ none := by
  intro huse
  rw [Content2.useFreeBlock, if_neg (not_lt.2 hmax)] at huse
  simp only at huse
  split at huse
  · next hfind =>
    have hsmall := List.find?_eq_none.1 hfind i hi
    simp only [decide_eq_true_eq] at hsmall
    omega
  · cases huse

theorem Listed.max_lt (h : c.Listed) (hsize : 0 < size) (hlt : size < 2 ^ 32)
    (huse : c.useFreeBlock size = none) : c.freeBlockMax < size := by
  by_contra hmax
  obtain ⟨i, hi, hle⟩ := h.max_le.resolve_left (by omega)
  exact useFreeBlock_ne_none hi hsize hlt (by omega) (not_lt.1 hmax) huse

theorem Sound.useFreeBlock_eq_none (h : c.Sound live) (hlt : size < 2 ^ 32) :
    c.useFreeBlock size = none ↔ size = 0 ∨ c.freeBlockMax < size := by
  constructor
  · intro huse
    by_cases hsize : size = 0
    · exact .inl hsize
    · exact .inr (h.tidy.listed.max_lt (Nat.pos_of_ne_zero hsize) hlt huse)
  · unfold Content2.useFreeBlock
    rintro (rfl | hmax)
    · rw [if_neg (Nat.not_lt_zero _)]
      have hfind : (c.freeBlockList.find? fun i => (0 + (2 ^ 32 - 1)) % 2 ^ 32 < (c.cache i).size) =
          none := by
        refine List.find?_eq_none.2 fun i hi => ?_
        have := h.size_lt hi
        simp only [decide_eq_true_eq]
        omega
      simp only [hfind]
    · rw [if_pos hmax]

/-! ### Records -/

theorem pwrite_nil (d : Nat → UInt8) (offset : Nat) : pwrite d [] offset = d := by
  funext i
  exact if_neg (by simp)

variable {data : Bytes}

theorem get_of_samePages {len : Nat} (hget : c.get offset len = some data)
    (hsame : SamePages live c c') (hsub : extent offset len ⊆ live) :
    c'.get offset len = some data := by
  unfold Content2.get at hget ⊢
  split at hget
  · next hin =>
    rw [if_pos (hin.trans hsame.size_le), ← hget]
    refine congrArg some (pread_congr fun i hlo hhi => hsame.data_eq i (hsub ?_))
    have := le_pageCount_mul len
    simp only [extent, Set.mem_Ico, page] at *
    omega
  · cases hget

theorem extent_zero (offset : Nat) : extent offset 0 = ∅ := by
  simp [extent, pageCount]

theorem Sound.writeInner_nil (h : c.Sound live) : c.writeInner [] = (c.dataFileSize / page, c) := by
  have huse : c.useFreeBlock (pageCount ([] : Bytes).length) = none :=
    (h.useFreeBlock_eq_none (by decide)).2 (.inl rfl)
  unfold Content2.writeInner
  rw [huse]
  have htail : tailLen 0 = 0 := rfl
  simp only [List.length_nil, htail, List.replicate_zero, pwrite_nil, Nat.add_zero]

theorem Sound.written_nil (h : c.Sound live) (hin : offset ≤ c.dataFileSize / page) : Written c live offset [] c where
  fresh := by
    rw [List.length_nil, extent_zero]
    exact Set.empty_disjoint _
  inv := by
    rw [List.length_nil, extent_zero, Set.union_empty]
    exact h.inv
  get_eq := by
    refine if_pos ?_
    simp only [page] at *
    simp only [List.length_nil]
    omega
  same := SameData.rfl.samePages
  offset_le := hin

theorem Sound.writeInner (h : c.Sound live) (hlt : data.length < 2 ^ 32)
    (hroom : c.dataFileSize ≤ dataFileMaxSize ∨ pageCount data.length ≤ c.freeBlockMax) :
    Written c live (c.writeInner data).1 data (c.writeInner data).2 ∧
      (c.writeInner data).2.Tidy ∧ (c.MaxTop → (c.writeInner data).2.MaxTop) := by
  by_cases hnil : data = []
  · subst hnil
    rw [h.writeInner_nil]
    exact ⟨h.written_nil le_rfl, h.tidy, id⟩
  have hlen : 0 < data.length := List.length_pos_of_ne_nil hnil
  refine ⟨h.inv.writeInner hlen hlt, ?_⟩
  have hpos := pageCount_pos hlen
  have hle := pageCount_le data.length
  unfold Content2.writeInner
  cases huse : c.useFreeBlock (pageCount data.length) with
  | none =>
    have hmax := ((h.useFreeBlock_eq_none (by omega)).1 huse).resolve_left (by omega)
    have hcount := pageCount_mul data.length
    refine ⟨⟨⟨h.tidy.listed.rest, h.tidy.listed.max_le⟩, h.tidy.pos, h.tidy.by_size, ?_⟩, id⟩
    have hbound : pageCount data.length * page ≤ 2 ^ 32 := by
      unfold pageCount page
      split <;> omega
    simp only
    omega
  | some out =>
    obtain ⟨offset, c₁⟩ := out
    obtain ⟨-, hsound, -, htop⟩ := h.useFreeBlock hpos (by omega) huse
    exact ⟨(hsound.setData _).tidy, fun _ => htop⟩

theorem writeInner_of_none (huse : c.useFreeBlock (pageCount data.length) = none) :
    c.writeInner data = (c.dataFileSize / page, { c with
        data := pwrite (pwrite c.data data c.dataFileSize) (List.replicate (tailLen data.length) 0)
          (c.dataFileSize + data.length)
        dataFileSize := c.dataFileSize + data.length + tailLen data.length }) := by
  rw [Content2.writeInner, huse]

theorem writeInner_of_some (huse : c.useFreeBlock (pageCount data.length) = some (offset, c')) : c.writeInner data =
      (offset, { c' with data := pwrite c'.data data (offset * page) }) := by
  rw [Content2.writeInner, huse]

theorem writeInner_dataFileSize (huse : c.useFreeBlock (pageCount data.length) = none) :
    (c.writeInner data).2.dataFileSize = c.dataFileSize + data.length + tailLen data.length := by
  rw [writeInner_of_none huse]

def largestRun (c : Content2) : Nat := (c.freeBlockList.map fun i => (c.cache i).size).foldr max 0

theorem Tidy.max_eq (h : c.Tidy) (htop : c.MaxTop) : c.freeBlockMax = c.largestRun := by
  have hfold (l : List Nat) (m : Nat) : l.foldr max 0 ≤ m ↔ ∀ n ∈ l, n ≤ m := by
    induction l with
    | nil => simp
    | cons n l ih => simp [ih]
  refine le_antisymm ?_ ((hfold _ _).2 ?_)
  · rcases h.listed.max_le with hzero | ⟨i, hi, hle⟩
    · omega
    · exact hle.trans ((hfold _ _).1 le_rfl _ (List.mem_map_of_mem hi))
  · intro n hn
    obtain ⟨i, hi, rfl⟩ := List.mem_map.1 hn
    exact htop i hi

theorem Sound.writeInner_extends (h : c.Sound live) (htop : c.MaxTop)
    (hlt : data.length < 2 ^ 32) (hext : c.dataFileSize < (c.writeInner data).2.dataFileSize)
    (hi : i ∈ c.freeBlockList) : (c.cache i).size < pageCount data.length := by
  by_cases hnil : data = []
  · subst hnil
    rw [h.writeInner_nil] at hext
    exact absurd hext (lt_irrefl _)
  have hpos := pageCount_pos (List.length_pos_of_ne_nil hnil)
  have hle := pageCount_le data.length
  cases huse : c.useFreeBlock (pageCount data.length) with
  | none =>
    have hmax := ((h.useFreeBlock_eq_none (by omega)).1 huse).resolve_left (by omega)
    exact (htop i hi).trans_lt hmax
  | some out =>
    obtain ⟨-, -, hsame, -⟩ := h.useFreeBlock hpos (by omega) huse
    rw [Content2.writeInner, huse] at hext
    exact absurd hext (by rw [hsame.2]; exact lt_irrefl _)

theorem Sound.reopen_write (h : c.Sound live) (hlen : 0 < data.length)
    (hlt : data.length < 2 ^ 32) (hroom : c.dataFileSize ≤ dataFileMaxSize) :
    ∃ offset file, c.reopen.write data = some (offset, file) ∧
      c.reopen.dataFileSize < file.dataFileSize := by
  have hpos := pageCount_pos hlen
  have hle := pageCount_le data.length
  have hmax := h.reopen_max
  have hsize : c.reopen.dataFileSize = c.dataFileSize := h.reopen_same.2
  have huse := (h.reopen.useFreeBlock_eq_none (show pageCount data.length < 2 ^ 32 by omega)).2 (.inr (by omega))
  refine ⟨_, _, by rw [Content2.write, if_neg (by omega)], ?_⟩
  rw [writeInner_dataFileSize huse]
  omega

theorem Sound.write (h : c.Sound live) (hlt : data.length < 2 ^ 32) (hwrite : c.write data = some (offset, c')) :
    Written c live offset data c' ∧ c'.Tidy ∧ (c.MaxTop → c'.MaxTop) := by
  unfold Content2.write at hwrite
  split_ifs at hwrite with hfull
  have hout := h.writeInner hlt (show _ ∨ _ by omega)
  rw [Option.some.inj hwrite] at hout
  exact hout

def UpdateSpans (c : Content2) (oldLen len : Nat) : Prop :=
  c.header = freeBlockFileMaxSize → (pageCount len < pageCount oldLen →
      c.SpansAtMost (max c.freeBlockMax (pageCount oldLen - pageCount len))) ∧
    (pageCount oldLen < pageCount len → c.SpansAtMost (max c.freeBlockMax (pageCount oldLen)))

theorem Sound.update (h : c.Sound live) (hlt : data.length < 2 ^ 32)
    {oldLen offset' : Nat} (holdLen : 0 < oldLen) (hold : extent offset oldLen ⊆ live)
    (hupdate : c.update offset oldLen data = (some offset', c')) :
    Written c (live \ extent offset oldLen) offset' data c' ∧ c'.Tidy ∧
      (c.MaxTop → c.UpdateSpans oldLen data.length → c'.MaxTop) := by
  refine ⟨h.inv.update_of_some hlt holdLen hold hupdate, ?_⟩
  have holdpos := pageCount_pos holdLen
  have houtcome := update_outcome c offset oldLen data
  rw [hupdate] at houtcome
  cases houtcome with
  | inPlace _ => exact ⟨(h.setData _).tidy, fun htop _ => htop⟩
  | shrunk hless hadd =>
    have hdata := h.setData (pwrite c.data data (offset * page))
    obtain ⟨c₁, hsound, hhead, -, -, -, -, rfl⟩ := hdata.addFreeBlock_cases hadd
    refine ⟨hsound.push_tidy hhead (by omega), fun htop hspans => ?_⟩
    exact hdata.addFreeBlock_maxTop htop (fun hheader => (hspans hheader).1 hless) hadd
  | moved hmore hroom hadd =>
    have hapart : Disjoint (extent offset oldLen) (live \ extent offset oldLen) :=
      Set.disjoint_left.mpr fun p hp hp' => hp'.2 hp
    obtain ⟨hsound, hsame, -⟩ := h.addFreeBlock Set.sdiff_subset holdpos hold hapart hadd
    obtain ⟨c₁, -, -, -, hmax, -, -, rfl⟩ := h.addFreeBlock_cases hadd
    have hroom' : (c₁.pushFreeBlock (pageCount oldLen) offset).dataFileSize ≤ dataFileMaxSize ∨
        pageCount data.length ≤ (c₁.pushFreeBlock (pageCount oldLen) offset).freeBlockMax := by
      rw [hsame.2, pushFreeBlock_max, hmax]
      exact hroom.imp_right fun hle => hle.trans (le_max_left _ _)
    obtain ⟨-, htidy, htop'⟩ := hsound.writeInner hlt hroom'
    exact ⟨htidy, fun htop hspans =>
      htop' (h.addFreeBlock_maxTop htop (fun hheader => (hspans hheader).2 hmore) hadd)⟩

theorem Sound.update_extends (h : c.Sound live) (htop : c.MaxTop)
    (hlt : data.length < 2 ^ 32) {oldLen : Nat} (holdLen : 0 < oldLen)
    (hold : extent offset oldLen ⊆ live) (hspans : c.UpdateSpans oldLen data.length)
    (hext : c.dataFileSize < (c.update offset oldLen data).2.dataFileSize)
    (hi : i ∈ c.freeBlockList) : (c.cache i).size < pageCount data.length := by
  have houtcome := update_outcome c offset oldLen data
  rcases hupdate : c.update offset oldLen data with ⟨offset', c'⟩
  rw [hupdate] at houtcome hext
  cases houtcome with
  | inPlace _ => exact absurd hext (lt_irrefl _)
  | shrunk hless hadd =>
    obtain ⟨c₁, -, -, hsame, -, -, -, rfl⟩ :=
      (h.setData (pwrite c.data data (offset * page))).addFreeBlock_cases hadd
    exact absurd hext (not_lt.2 hsame.2.le)
  | overwritten _ _ => exact absurd hext (lt_irrefl _)
  | full _ _ => exact absurd hext (lt_irrefl _)
  | kept _ _ => exact absurd hext (lt_irrefl _)
  | moved hmore hroom hadd =>
    obtain ⟨hsound, hsame, -⟩ := h.addFreeBlock Set.sdiff_subset (pageCount_pos holdLen) hold
      (Set.disjoint_left.mpr fun p hp hp' => hp'.2 hp) hadd
    have htop' := h.addFreeBlock_maxTop htop (fun hheader => (hspans hheader).2 hmore) hadd
    obtain ⟨c₁, hsound₁, hhead, -, -, hregroups, -, rfl⟩ := h.addFreeBlock_cases hadd
    obtain ⟨j, hj, hsub⟩ := hregroups.covers i hi
    have hle := size_le_of_pages (h.tidy.pos i hi) hsub
    rw [← hsame.2] at hext
    have hlarge := hsound.writeInner_extends htop' hlt hext (pushFreeBlock_perm.mem_iff.2 (List.mem_cons_of_mem _ hj))
    rw [hsound₁.inv.push_kept hhead hj] at hlarge
    omega

theorem update_of_none {oldLen : Nat} {data : Bytes} (hslot : pageCount data.length < pageCount oldLen → c.HasSlot)
    (hupdate : c.update offset oldLen data = (none, c')) : c' = c := by
  have houtcome := update_outcome c offset oldLen data
  rw [hupdate] at houtcome
  cases houtcome with
  | overwritten hless hadd =>
    have hslot' : HasSlot { c with data := pwrite c.data data (offset * page) } := hslot hless
    exact absurd hadd (hslot'.addFreeBlock_ne_none _ _)
  | full _ _ => rfl
  | kept _ _ => rfl

theorem Sound.del (h : c.Sound live) {len : Nat} (hlen : 0 < len) (hsub : extent offset len ⊆ live)
    (hdel : c.del offset len = some c') :
    c'.Sound (live \ extent offset len) ∧ c.SameData c' := by
  obtain ⟨hsound, hsame, -⟩ := h.addFreeBlock Set.sdiff_subset (pageCount_pos hlen) hsub
    (Set.disjoint_left.mpr fun _ hp hp' => hp'.2 hp) hdel
  exact ⟨hsound, hsame⟩

theorem sound_create : create.Sound ∅ where
  inv := inv_create
  tidy := by
    refine ⟨⟨fun i _ _ => ?_, .inl rfl⟩, fun i hi => ?_, List.Pairwise.nil, by decide⟩
    · simp only [create]
      split <;> rfl
    · exact absurd hi List.not_mem_nil

end Content2

end HustStore.Md5db
