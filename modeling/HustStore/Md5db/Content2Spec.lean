import HustStore.Md5db.Content2Runs

/-!
# What the content file operations do

One specification for each operation of a content file, in terms of the live pages: parsing and
growing the free-block file, writing, updating, deleting and reading a record.
-/

namespace HustStore.Md5db.Content2

open Intrusive (Chain)

variable {c c' : Content2} {live live' : Set Nat}

/-! ### Parsing and growing the free-block file -/

/-- What parsing a free-block file gives: the invariant, with the same data, and the runs of all
slots, put together where they are adjacent. -/
structure Parsed (c : Content2) (live : Set Nat) (c' : Content2) : Prop where
  inv : c'.Inv live
  same : c.SameData c'
  file_eq : c'.freeBlockFileSize = c.freeBlockFileSize
  max_eq : c'.freeBlockMax = c.freeBlockMax
  held : c'.HeldInv c'.freeBlockList
  by_size : c'.BySize c'.freeBlockList
  covers : ∀ i, c.IsSlot i → 0 < (c.cache i).size → ∃ j ∈ c'.freeBlockList, (c.cache i).pages ⊆ (c'.cache j).pages
  within : ∀ j ∈ c'.freeBlockList, ∀ p ∈ (c'.cache j).pages, ∃ i, c.IsSlot i ∧ p ∈ (c.cache i).pages

section Collected

variable {start chain merge : List Nat}

theorem ParseInv.begin {header n : Nat}
    (hstart : Chain (fun i => (c.cache i).offset) freeBlockFileMaxSize header start)
    (hnodup : start.Nodup) (hfree : ∀ i ∈ start, c.IsSlot i ∧ (c.cache i).size = 0)
    (hlast : ∀ i, c.IsSlot i → i ≤ n * 8) : ParseInv c start { c with header } start [] n where
  linked := hstart
  nodup := by simpa using hnodup
  mem_iff i := by
    rw [List.append_nil]
    refine ⟨fun hi => ⟨(hfree i hi).1, .inr hi⟩, ?_⟩
    rintro ⟨hslot, hbehind | hi⟩
    · exact absurd (hlast i hslot) (Nat.not_le.mpr hbehind)
    · exact hi
  merge_run := by simp
  chain_size i hi := ⟨(hfree i hi).2, (hfree i hi).2⟩
  rest _ _ := rfl
  frame := rfl

section

variable (h : ParseInv c start c' chain merge 0)
include h

theorem ParseInv.mem_iff_isSlot (i : Nat) :
    i ∈ chain ++ merge ↔ c.IsSlot i := by
  rw [h.mem_iff i]
  refine ⟨And.left, fun hslot => ⟨hslot, .inl ?_⟩⟩
  have := hslot.2.1
  omega

theorem ParseInv.isSlot_of_merge {i : Nat} (hi : i ∈ merge) : c.IsSlot i :=
  (h.mem_iff_isSlot i).1 (List.mem_append_right _ hi)

theorem ParseInv.file_eq : c'.freeBlockFileSize = c.freeBlockFileSize := by rw [h.frame]

theorem ParseInv.slots :
    SlotsInv { c' with freeBlockList := [] } chain merge where
  linked := h.linked
  nodup := h.nodup
  mem_iff i := by
    rw [h.mem_iff_isSlot i]
    simp only [IsSlot, h.file_eq]

theorem ParseInv.runs (hsame : c.SameData c') (husable : ∀ i ∈ merge, c.UsableRun live (c.cache i))
    (hdisj : ∀ i j, c.IsSlot i → c.IsSlot j → i ≠ j → Disjoint (c.cache i).pages (c.cache j).pages) :
    RunsInv { c' with freeBlockList := [] } merge live where
  usable i hi := by
    rw [UsableRun, (h.merge_run i hi).1, hsame.2]
    exact husable i hi
  disjoint i hi j hj hij := by
    rw [(h.merge_run i hi).1, (h.merge_run j hj).1]
    exact hdisj i j (h.isSlot_of_merge hi) (h.isSlot_of_merge hj) hij

theorem ParseInv.held :
    HeldInv { c' with freeBlockList := [] } merge := by
  refine ⟨fun i hi => (h.merge_run i hi).2.2, fun i hi hnot => ?_⟩
  have hslot : c.IsSlot i := by simpa only [IsSlot, h.file_eq] using hi
  have hmem := (h.mem_iff_isSlot i).2 hslot
  exact (h.chain_size i ((List.mem_append.1 hmem).resolve_right hnot)).1

end

end Collected

theorem parseFreeBlock_spec {start : List Nat} (hstart : Chain (fun i => (c.cache i).offset) freeBlockFileMaxSize
      (if c.header = 0 then freeBlockFileMaxSize else c.header) start)
    (hnodup : start.Nodup)
    (hfree : ∀ i ∈ start, c.IsSlot i ∧ 0 < (c.cache i).offset ∧ (c.cache i).size = 0)
    (husable : ∀ i, c.IsSlot i → i ∉ start → c.UsableRun live (c.cache i))
    (hdisj : ∀ i j, c.IsSlot i → c.IsSlot j → i ≠ j → Disjoint (c.cache i).pages (c.cache j).pages)
    (hsizes : c.SizesInv live) :
    Parsed c live c.parseFreeBlock ∧ (start ≠ [] ∨ (∃ i, c.IsSlot i ∧ (c.cache i).offset = 0) →
        c.parseFreeBlock.header ≠ freeBlockFileMaxSize) := by
  have hfix : (if c.header = 0 then { c with header := freeBlockFileMaxSize } else c) =
      { c with header := if c.header = 0 then freeBlockFileMaxSize else c.header } := by
    split <;> rfl
  have hdvd : 8 ∣ c.freeBlockFileSize := Nat.dvd_trans (by decide) hsizes.file_dvd
  have hpos := hsizes.file_pos
  unfold parseFreeBlock
  simp only [hfix]
  generalize hheader : (if c.header = 0 then freeBlockFileMaxSize else c.header) = header at hstart
  generalize hn : c.freeBlockFileSize / 8 - 1 = n
  have hbegin : ParseInv c start { c with header } start [] n := by
    refine .begin hstart hnodup (fun i hi => ⟨(hfree i hi).1, (hfree i hi).2.2⟩) ?_
    rintro i ⟨hmod, hge, hlt⟩
    omega
  have hclear (i : Nat) (hi : c.IsSlot i) : c.SlotClear start i := by
    by_cases hmem : i ∈ start
    · exact .inl ⟨hmem, (hfree i hmem).2⟩
    · rcases husable i hi hmem with h | ⟨hoff, hsize, -⟩
      · exact .inr ⟨hmem, .inl h⟩
      · exact .inr ⟨hmem, .inr ⟨hoff, hsize⟩⟩
  obtain ⟨chain, hparse, hkeep, hzero⟩ := hbegin.run (by omega) hclear
  have hchain : start ≠ [] ∨ (∃ i, c.IsSlot i ∧ (c.cache i).offset = 0) → chain ≠ [] := by
    rintro (hne | ⟨i, ⟨hmod, hge, hlt⟩, hoff⟩)
    · exact hkeep hne
    · exact hzero ⟨i / 8, by omega, by omega, by rwa [show i / 8 * 8 = i by omega]⟩
  generalize parseSlots n { c with header } [] = parsed at hparse
  obtain ⟨c₁, merge⟩ := parsed
  simp only at hparse ⊢
  have hmax₁ : c₁.freeBlockMax = c.freeBlockMax := by rw [hparse.frame]
  have hsame₁ : c.SameData c₁ := ⟨by rw [hparse.frame], by rw [hparse.frame]⟩
  have hmerge (i : Nat) (hi : i ∈ merge) : c.UsableRun live (c.cache i) := by
    refine husable i (hparse.isSlot_of_merge hi) fun hmem => ?_
    have hrun := hparse.merge_run i hi
    have hsize := (hfree i hmem).2.2
    rw [← hrun.1] at hsize
    omega
  -- `mergeBlocks` starts with no run at hand and no run listed.
  have hall : none.toList ++ merge ++ [] = merge := by simp
  have hruns₁ := hparse.runs hsame₁ hmerge hdisj
  obtain ⟨⟨chain', hslots, hne'⟩, hruns, hsame₂, hfile₂⟩ :=
    mergeBlocks_inv merge none (hall.symm ▸ hparse.slots) (hall.symm ▸ hruns₁)
  have hheld₁ : HeldInv { c₁ with freeBlockList := [] } (none.toList ++ merge ++ []) :=
    hall.symm ▸ hparse.held
  obtain ⟨hheld, hbysize, hregroups, hmax₂⟩ := mergeBlocks_held merge none
    (hall.symm ▸ (List.nodup_append.1 hparse.nodup).2.1) hheld₁ List.Pairwise.nil
  generalize mergeBlocks { c₁ with freeBlockList := [] } none merge = c₂ at *
  have hsame : c.SameData c₂ := hsame₁.trans hsame₂
  have hfile : c₂.freeBlockFileSize = c.freeBlockFileSize := hfile₂.trans hparse.file_eq
  refine ⟨⟨⟨⟨chain', hslots⟩, hruns, hsizes.of_same hsame hfile⟩, hsame, hfile,
    hmax₂.trans hmax₁, hheld, hbysize, fun i hi hsize => ?_, fun j hj p hp => ?_⟩, fun hsome => ?_⟩
  · -- A slot with pages was collected.
    have hmem : i ∈ merge := by
      refine (List.mem_append.1 ((hparse.mem_iff_isSlot i).2 hi)).resolve_left fun hchained => ?_
      exact hsize.ne' (hparse.chain_size i hchained).2
    obtain ⟨j, hj, hsub⟩ := hregroups.covers i (by simpa using hmem)
    refine ⟨j, hj, ?_⟩
    rw [← (hparse.merge_run i hmem).1]
    exact hsub
  · obtain ⟨i, hi, hpi⟩ := hregroups.within j hj hp
    have hmem : i ∈ merge := by simpa using hi
    refine ⟨i, hparse.isSlot_of_merge hmem, ?_⟩
    rw [← (hparse.merge_run i hmem).1]
    exact hpi
  · obtain ⟨i, rest, hcons⟩ := List.exists_cons_of_ne_nil (hne' (hchain hsome))
    rw [hcons] at hslots
    have hi : c₂.IsSlot i := (hslots.mem_iff i).mp (by simp)
    rw [hslots.linked.1]
    exact hi.ne_max (by rw [hfile]; exact hsizes.file_le)

theorem parseFreeBlock_inv (hheader : c.header = 0 ∨ c.header = freeBlockFileMaxSize)
    (husable : ∀ i, c.IsSlot i → c.UsableRun live (c.cache i))
    (hdisj : ∀ i j, c.IsSlot i → c.IsSlot j → i ≠ j → Disjoint (c.cache i).pages (c.cache j).pages)
    (hsizes : c.SizesInv live) (hzero : ∃ i, c.IsSlot i ∧ (c.cache i).offset = 0) :
    c.parseFreeBlock.Inv live ∧ c.parseFreeBlock.header ≠ freeBlockFileMaxSize ∧
    c.SameData c.parseFreeBlock := by
  have hstart : (if c.header = 0 then freeBlockFileMaxSize else c.header) = freeBlockFileMaxSize := by
    split
    · rfl
    · next hne => exact hheader.resolve_left hne
  obtain ⟨hparsed, hhead⟩ := parseFreeBlock_spec (c := c) (show Chain _ _ _ [] from hstart) List.nodup_nil (by simp)
    (fun i hi _ => husable i hi) hdisj hsizes
  exact ⟨hparsed.inv, hhead (.inr hzero), hparsed.same⟩

def chained (cache : Nat → FreeBlock) (last n i : Nat) : FreeBlock :=
  if i % 8 = 0 ∧ 8 ≤ i ∧ i ≤ n * 8 then ⟨if i = n * 8 then last else i + 8, 0⟩ else cache i

theorem chained_succ (cache : Nat → FreeBlock) (last n : Nat) :
    chained (assign cache ((n + 1) * 8) ⟨last, 0⟩) ((n + 1) * 8) n =
      chained cache last (n + 1) := by
  funext i
  unfold chained
  by_cases hi : i = (n + 1) * 8
  · have hin : ¬ (i % 8 = 0 ∧ 8 ≤ i ∧ i ≤ n * 8) := by omega
    have hout : i % 8 = 0 ∧ 8 ≤ i ∧ i ≤ (n + 1) * 8 := by omega
    rw [if_neg hin, if_pos hout, if_pos hi, hi, assign_self]
  · by_cases hin : i % 8 = 0 ∧ 8 ≤ i ∧ i ≤ n * 8
    · have hout : i % 8 = 0 ∧ 8 ≤ i ∧ i ≤ (n + 1) * 8 := by omega
      rw [if_pos hin, if_pos hout, if_neg hi]
      congr 1
      split
      · omega
      · rfl
    · have hout : ¬ (i % 8 = 0 ∧ 8 ≤ i ∧ i ≤ (n + 1) * 8) := by omega
      rw [if_neg hin, if_neg hout, assign_of_ne hi]

theorem parseSlots_zeroed (n : Nat) (c : Content2) (merge : List Nat) (hzero : ∀ i ≤ n * 8, c.cache i = ⟨0, 0⟩) :
    parseSlots n c merge = ({ c with
          header := if n = 0 then c.header else 8
          cache := chained c.cache c.header n }, merge) := by
  induction n generalizing c with
  | zero =>
    have hcache : chained c.cache c.header 0 = c.cache := by
      funext i
      exact if_neg (by omega)
    rw [hcache]
    rfl
  | succ n ih =>
    have hlast := hzero ((n + 1) * 8) le_rfl
    have hstep : parseSlot c merge ((n + 1) * 8) =
        ({ c.setBlock ((n + 1) * 8) ⟨c.header, 0⟩ with header := (n + 1) * 8 }, merge) := by
      simp [parseSlot, hlast]
    unfold parseSlots
    rw [hstep]
    simp only
    rw [ih _ fun i hi => ?_]
    · have hcache := chained_succ c.cache c.header n
      simp only [setBlock] at *
      rw [hcache, if_neg (Nat.succ_ne_zero n)]
      congr 2
      split
      · rename_i h0
        rw [h0]
      · rfl
    · rw [setBlock_cache_of_ne (by omega)]
      exact hzero i (by omega)

theorem parseFreeBlock_of_zeroed {n : Nat} (hn : c.freeBlockFileSize / 8 - 1 = n) (hpos : 0 < n)
    (hheader : c.header = 0) (hzero : ∀ i, c.cache i = ⟨0, 0⟩) :
    c.parseFreeBlock = { c with
      header := 8
      cache := chained c.cache freeBlockFileMaxSize n
      freeBlockList := [] } := by
  unfold parseFreeBlock
  rw [if_pos hheader]
  simp only [hn]
  rw [parseSlots_zeroed n { c with header := freeBlockFileMaxSize } [] fun i _ => hzero i]
  simp only [mergeBlocks, if_neg (show ¬ n = 0 by omega)]

theorem parseFreeBlock_zeroed : zeroed.parseFreeBlock = create := by
  have hn : zeroed.freeBlockFileSize / 8 - 1 = 1048575 := by decide
  rw [parseFreeBlock_of_zeroed hn (by omega) rfl fun _ => rfl]
  have hincr : freeBlockIncr = 8388608 := rfl
  have hcache : chained zeroed.cache freeBlockFileMaxSize 1048575 = create.cache := by
    funext i
    unfold chained create zeroed
    simp only
    by_cases hi : i % 8 = 0 ∧ 8 ≤ i ∧ i < freeBlockIncr
    · rw [if_pos hi, if_pos ⟨hi.1, hi.2.1, by omega⟩]
      congr 1
      by_cases hlast : i = 1048575 * 8
      · rw [if_pos hlast, if_pos (by omega)]
      · rw [if_neg hlast, if_neg (by omega)]
    · rw [if_neg hi, if_neg (by omega)]
  rw [hcache]
  rfl

theorem inv_create : create.Inv ∅ := by
  rw [← parseFreeBlock_zeroed]
  refine (parseFreeBlock_inv (.inl rfl) (fun i _ => .inl ⟨rfl, rfl⟩) (fun i j _ _ _ => ?_) ?_ ?_).1
  · simp [zeroed, FreeBlock.pages]
  · exact ⟨Nat.dvd_refl _, by decide, by decide, Nat.dvd_refl _, le_rfl, by simp⟩
  · exact ⟨8, ⟨rfl, le_rfl, by decide⟩, rfl⟩

def grown (c : Content2) : Content2 :=
  { c with
    freeBlockFileSize := c.freeBlockFileSize + freeBlockIncr
    cache := fun i => if i < c.freeBlockFileSize then c.cache i else ⟨0, 0⟩ }

theorem Inv.mem_list (h : c.Inv live) (hheader : c.header = freeBlockFileMaxSize) {i : Nat}
    (hi : c.IsSlot i) : i ∈ c.freeBlockList := by
  obtain ⟨chain, hslots⟩ := h.slots
  cases chain with
  | nil => simpa using (hslots.mem_iff i).mpr hi
  | cons j rest =>
    have hj : c.IsSlot j := (hslots.mem_iff j).mp (by simp)
    exact absurd (hslots.linked.1.symm.trans hheader) (hj.ne_max h.sizes.file_le)

theorem Inv.parsed_grown (h : c.Inv live) (hheader : c.header = freeBlockFileMaxSize)
    (hlt : c.freeBlockFileSize < freeBlockFileMaxSize) :
    Parsed c.grown live c.grown.parseFreeBlock ∧
      c.grown.parseFreeBlock.header ≠ freeBlockFileMaxSize := by
  have hdvd : 8 ∣ c.freeBlockFileSize := Nat.dvd_trans (by decide) h.sizes.file_dvd
  have hpos := h.sizes.file_pos
  have hincr : freeBlockIncr = 8388608 := rfl
  have hstart : (if c.grown.header = 0 then freeBlockFileMaxSize else c.grown.header) =
      freeBlockFileMaxSize := by
    split
    · rfl
    · exact hheader
  have hle : c.freeBlockFileSize + freeBlockIncr ≤ freeBlockFileMaxSize := by
    obtain ⟨k, hk⟩ := h.sizes.file_dvd
    simp only [freeBlockFileMaxSize, hincr] at *
    omega
  have husable (i : Nat) (hi : c.grown.IsSlot i) (_ : i ∉ []) :
      c.grown.UsableRun live (c.grown.cache i) := by
    simp only [grown]
    split
    · next hold => exact h.runs.usable i (h.mem_list hheader ⟨hi.1, hi.2.1, hold⟩)
    · exact .inl ⟨rfl, rfl⟩
  have hdisj (i j : Nat) (hi : c.grown.IsSlot i) (hj : c.grown.IsSlot j) (hij : i ≠ j) :
      Disjoint (c.grown.cache i).pages (c.grown.cache j).pages := by
    simp only [grown]
    split <;> split
    · next hiold hjold =>
      exact h.runs.disjoint i (h.mem_list hheader ⟨hi.1, hi.2.1, hiold⟩) j
        (h.mem_list hheader ⟨hj.1, hj.2.1, hjold⟩) hij
    all_goals simp [FreeBlock.pages]
  have hsizes : c.grown.SizesInv live :=
    { h.sizes with
      file_dvd := Nat.dvd_add h.sizes.file_dvd (Nat.dvd_refl _)
      file_pos := Nat.add_pos_left h.sizes.file_pos _
      file_le := hle }
  obtain ⟨hparsed, hhead⟩ := parseFreeBlock_spec (show Chain _ _ _ [] from hstart) List.nodup_nil
    (by simp) husable hdisj hsizes
  refine ⟨hparsed, hhead (.inr ⟨c.freeBlockFileSize, ⟨Nat.mod_eq_zero_of_dvd hdvd, by omega, ?_⟩, ?_⟩)⟩
  · simp only [grown]
    omega
  · simp [grown]

theorem incrFreeBlockFile_eq (hlt : c.freeBlockFileSize < freeBlockFileMaxSize) :
    c.incrFreeBlockFile = some c.grown.parseFreeBlock := if_neg (by omega)

theorem Inv.incrFreeBlockFile (h : c.Inv live) (hheader : c.header = freeBlockFileMaxSize)
    (hlt : c.freeBlockFileSize < freeBlockFileMaxSize) :
    ∃ c', c.incrFreeBlockFile = some c' ∧ c'.Inv live ∧ c'.header ≠ freeBlockFileMaxSize ∧
      c.SameData c' := by
  obtain ⟨hparsed, hhead⟩ := h.parsed_grown hheader hlt
  exact ⟨_, incrFreeBlockFile_eq hlt, hparsed.inv, hhead, hparsed.same⟩

def HasSlot (c : Content2) : Prop :=
  c.header ≠ freeBlockFileMaxSize ∨ c.freeBlockFileSize < freeBlockFileMaxSize

theorem hasSlot_of_addFreeBlock {size offset : Nat} (h : c.addFreeBlock size offset = some c') :
    c.HasSlot := by
  by_contra hnot
  obtain ⟨hheader, hfile⟩ := not_or.1 hnot
  rw [Content2.addFreeBlock, if_pos (not_not.1 hheader), Content2.incrFreeBlockFile,
    if_pos (not_lt.1 hfile)] at h
  cases h

theorem Inv.addFreeBlock (h : c.Inv live) (hslot : c.HasSlot) (hsub : live' ⊆ live) {size offset : Nat}
    (hrun : offset = 0 ∧ size = 0 ∨ 0 < size ∧ Set.Ico offset (offset + size) ⊆ live ∧
      Disjoint (Set.Ico offset (offset + size)) live') :
    ∃ c', c.addFreeBlock size offset = some c' ∧ c'.Inv live' ∧ c.SameData c' := by
  unfold Content2.addFreeBlock
  by_cases hheader : c.header = freeBlockFileMaxSize
  · obtain ⟨c₁, hincr, hinv, hne, hsame⟩ :=
      h.incrFreeBlockFile hheader (hslot.resolve_left (not_not_intro hheader))
    rw [if_pos hheader, hincr]
    exact ⟨_, rfl, hinv.pushFreeBlock hne hsub hrun, hsame.trans (sameData_pushFreeBlock _ _)⟩
  · rw [if_neg hheader]
    exact ⟨_, rfl, h.pushFreeBlock hheader hsub hrun, sameData_pushFreeBlock _ _⟩

/-! ### Bytes -/

theorem pageCount_mul (len : Nat) : pageCount len * page = len + tailLen len := by
  unfold pageCount tailLen
  split
  all_goals
    simp only [page] at *
    omega

theorem le_pageCount_mul (len : Nat) : len ≤ pageCount len * page := by
  rw [pageCount_mul]
  omega

theorem pageCount_pos {len : Nat} (h : 0 < len) : 0 < pageCount len := by
  have := le_pageCount_mul len
  simp only [page] at this
  omega

theorem pageCount_eq (len : Nat) : pageCount len = (len + 1023) / 1024 := by
  unfold pageCount page
  split <;> omega

theorem pageCount_le (len : Nat) : pageCount len ≤ len := by
  rw [pageCount_eq]
  omega

theorem pageCount_mono {m n : Nat} (h : m ≤ n) : pageCount m ≤ pageCount n := by
  rw [pageCount_eq, pageCount_eq]
  exact Nat.div_le_div_right (by omega)

theorem pread_congr {d d' : Nat → UInt8} {len offset : Nat} (h : ∀ i, offset ≤ i → i < offset + len → d' i = d i) :
    pread d' len offset = pread d len offset := by
  refine List.map_congr_left fun i hi => ?_
  have := List.mem_range.mp hi
  exact h _ (by omega) (by omega)

variable {bytes : Bytes}

theorem pwrite_of_not_mem {d : Nat → UInt8} {offset i : Nat}
    (h : i < offset ∨ offset + bytes.length ≤ i) : pwrite d bytes offset i = d i :=
  if_neg (by omega)

theorem pread_pwrite_self (d : Nat → UInt8) (bytes : Bytes) (offset : Nat) :
    pread (pwrite d bytes offset) bytes.length offset = bytes := by
  refine List.ext_getElem (by simp [pread]) fun i hi hi' => ?_
  simp only [pread, List.getElem_map, List.getElem_range, pwrite]
  rw [if_pos ⟨by omega, by omega⟩]
  simp [hi']

structure SamePages (live : Set Nat) (c c' : Content2) : Prop where
  data_eq : ∀ i, i / page ∈ live → c'.data i = c.data i
  size_le : c.dataFileSize ≤ c'.dataFileSize

theorem SamePages.trans {c'' : Content2} (h : SamePages live c c') (h' : SamePages live c' c'') :
    SamePages live c c'' :=
  ⟨fun i hi => (h'.data_eq i hi).trans (h.data_eq i hi), h.size_le.trans h'.size_le⟩

theorem SamePages.mono (h : SamePages live c c') (hsub : live' ⊆ live) : SamePages live' c c' :=
  ⟨fun i hi => h.data_eq i (hsub hi), h.size_le⟩

theorem SameData.samePages (h : c.SameData c') : SamePages live c c' :=
  ⟨fun i _ => by rw [h.1], h.2.ge⟩

variable {offset len : Nat}

theorem Inv.get_eq (h : c.Inv live) (hlen : 0 < len) (hsub : extent offset len ⊆ live) :
    c.get offset len = some (pread c.data len (offset * page)) := by
  have hpos := pageCount_pos hlen
  have hlast := h.sizes.live_lt (offset + pageCount len - 1) (hsub (by simp [extent]; omega))
  have hle := le_pageCount_mul len
  have hdata := h.sizes.data_dvd
  refine if_pos ?_
  simp only [page] at *
  omega

theorem get_congr (hsame : SamePages live c c') (h : c.Inv live) (hlen : 0 < len)
    (hsub : extent offset len ⊆ live) : c'.get offset len = c.get offset len := by
  have hget := h.get_eq hlen hsub
  have hsize : offset * page + len ≤ c.dataFileSize := by
    by_contra hcon
    simp [Content2.get, hcon] at hget
  have hle := hsame.size_le
  rw [hget, Content2.get, if_pos (by omega)]
  congr 1
  refine pread_congr fun i hlo hhi => hsame.data_eq i (hsub ?_)
  have hcount := le_pageCount_mul len
  simp only [extent, Set.mem_Ico, page] at *
  omega

/-! ### Records -/

structure Written (c : Content2) (live : Set Nat) (offset : Nat) (data : Bytes) (c' : Content2) : Prop where
  fresh : Disjoint (extent offset data.length) live
  inv : c'.Inv (live ∪ extent offset data.length)
  get_eq : c'.get offset data.length = some data
  same : SamePages live c c'
  offset_le : offset ≤ c.dataFileSize / page

theorem samePages_pwrite {offset : Nat} (hdisj : Disjoint (extent offset bytes.length) live) :
    SamePages live c { c with data := pwrite c.data bytes (offset * page) } := by
  refine ⟨fun i hi => pwrite_of_not_mem ?_, le_rfl⟩
  have hle := le_pageCount_mul bytes.length
  have hout : i / page ∉ extent offset bytes.length := fun hmem =>
    Set.disjoint_left.mp hdisj hmem hi
  simp only [extent, Set.mem_Ico, not_and, not_lt, page] at *
  omega

theorem Inv.get_pwrite {offset : Nat} (h : c.Inv live) (hlen : 0 < bytes.length)
    (hsub : extent offset bytes.length ⊆ live) :
    ({ c with data := pwrite c.data bytes (offset * page) } : Content2).get offset bytes.length =
      some bytes := by
  rw [(h.setData _).get_eq hlen hsub, pread_pwrite_self]

variable {data : Bytes}

theorem Inv.writeInner_append (h : c.Inv live) (hlen : 0 < data.length)
    (huse : c.useFreeBlock (pageCount data.length) = none) :
    Written c live (c.writeInner data).1 data (c.writeInner data).2 := by
  have hcount := pageCount_mul data.length
  have hpos := pageCount_pos hlen
  obtain ⟨k, hk⟩ := h.sizes.data_dvd
  have hpage : page = 1024 := rfl
  have hkpos : 0 < k := by
    have hdpos := h.sizes.data_pos
    simp only [hpage] at *
    omega
  have hfirst : c.dataFileSize / page = k := by rw [hk]; exact Nat.mul_div_cancel_left k (by decide)
  have hend : c.dataFileSize + data.length + tailLen data.length =
      page * (k + pageCount data.length) := by
    rw [Nat.mul_add, ← hk, Nat.mul_comm page (pageCount _), hcount]
    omega
  unfold writeInner
  rw [huse]
  simp only [hfirst]
  have hfresh : Disjoint (extent k data.length) live := by
    refine Set.disjoint_left.mpr fun p hp hlive => ?_
    have := (h.sizes.live_lt p hlive).2
    simp only [extent, Set.mem_Ico] at hp
    omega
  have hpages : page * (k + pageCount data.length) / page = k + pageCount data.length :=
    Nat.mul_div_cancel_left _ (by decide)
  have hinv : Inv { c with
        data := pwrite (pwrite c.data data c.dataFileSize)
          (List.replicate (tailLen data.length) 0) (c.dataFileSize + data.length)
        dataFileSize := c.dataFileSize + data.length + tailLen data.length }
      (live ∪ extent k data.length) := by
    obtain ⟨chain, hslots⟩ := h.slots
    refine ⟨⟨chain, hslots.linked, hslots.nodup, hslots.mem_iff⟩, ⟨fun i hi => ?_, h.runs.disjoint⟩, ?_⟩
    · -- A free run lies before the old end of the file.
      rcases h.runs.usable i hi with hempty | ⟨hoff, hsize, hin, hlive⟩
      · exact .inl hempty
      · refine .inr ⟨hoff, hsize, ?_, Disjoint.union_right hlive ?_⟩
        · simp only [hend, hpages]
          omega
        · refine Set.disjoint_left.mpr fun p hp hp' => ?_
          simp only [FreeBlock.pages, extent, Set.mem_Ico] at hp hp'
          omega
    · have hdpos := h.sizes.data_pos
      refine { h.sizes with data_dvd := ?_, data_pos := ?_, live_lt := ?_ }
      · simp only [hend]
        exact Nat.dvd_mul_right _ _
      · simp only
        omega
      · rintro p (hp | hp)
        · have := h.sizes.live_lt p hp
          simp only [hend, hpages]
          omega
        · simp only [extent, Set.mem_Ico] at hp
          simp only [hend, hpages]
          omega
  have hk' : k * page = c.dataFileSize := by rw [hk, Nat.mul_comm]
  refine ⟨hfresh, hinv, ?_, ⟨fun i hi => ?_, ?_⟩, hfirst.ge⟩
  · rw [hinv.get_eq hlen Set.subset_union_right]
    simp only [hk']
    congr 1
    rw [pread_congr fun i _ hhi => pwrite_of_not_mem (.inl hhi), pread_pwrite_self]
  · have := (h.sizes.live_lt _ hi).2
    have hbefore : i < c.dataFileSize := by
      simp only [hpage] at *
      omega
    exact (pwrite_of_not_mem (.inl (by omega))).trans (pwrite_of_not_mem (.inl hbefore))
  · simp only
    omega

theorem Inv.writeInner (h : c.Inv live) (hlen : 0 < data.length) (hlt : data.length < 2 ^ 32) :
    Written c live (c.writeInner data).1 data (c.writeInner data).2 := by
  cases huse : c.useFreeBlock (pageCount data.length) with
  | none => exact h.writeInner_append hlen huse
  | some result =>
    obtain ⟨offset, c'⟩ := result
    have hle := pageCount_le data.length
    obtain ⟨hfresh, hinv, hsame⟩ := h.useFreeBlock (pageCount_pos hlen) (by omega) huse
    have hpos := pageCount_pos hlen
    have hlast := hinv.sizes.live_lt offset (.inr (by simp; omega))
    unfold Content2.writeInner
    rw [huse]
    refine ⟨hfresh, hinv.setData _, hinv.get_pwrite hlen Set.subset_union_right, ?_, ?_⟩
    · exact hsame.samePages.trans (samePages_pwrite hfresh)
    · rw [hsame.2] at hlast
      exact hlast.2.le

/-- The limits inside which no operation on a content file fails or leaves the 28-bit page
numbers: the data file has not passed its maximum and a free-block slot is available. -/
structure Room (c : Content2) : Prop where
  data_le : c.dataFileSize ≤ dataFileMaxSize
  slot : c.HasSlot

theorem Room.page_lt (h : c.Room) : c.dataFileSize / page < 2 ^ 28 := by
  have := h.data_le
  simp only [dataFileMaxSize, page] at *
  omega

theorem Inv.write (h : c.Inv live) (hroom : c.Room) (hlen : 0 < data.length) (hlt : data.length < 2 ^ 32) :
    ∃ offset c', c.write data = some (offset, c') ∧ Written c live offset data c' := by
  have hdata := hroom.data_le
  refine ⟨_, _, ?_, h.writeInner hlen hlt⟩
  unfold Content2.write
  rw [if_neg (by omega)]

theorem get_pwrite_self {offset : Nat} (hin : offset * page + bytes.length ≤ c.dataFileSize) :
    ({ c with data := pwrite c.data bytes (offset * page) } : Content2).get offset bytes.length =
      some bytes := by
  rw [Content2.get, if_pos hin, pread_pwrite_self]

theorem Inv.update_inPlace (h : c.Inv live) {offset oldLen : Nat} (holdLen : 0 < oldLen)
    (hold : extent offset oldLen ⊆ live) (hfit : pageCount data.length ≤ pageCount oldLen) :
    Written c (live \ extent offset oldLen) offset data { c with data := pwrite c.data data (offset * page) } := by
  have holdpos := pageCount_pos holdLen
  have hin : extent offset data.length ⊆ extent offset oldLen := by
    intro p hp
    simp only [extent, Set.mem_Ico] at *
    omega
  have hfresh : Disjoint (extent offset data.length) (live \ extent offset oldLen) :=
    Set.disjoint_left.mpr fun p hp hp' => hp'.2 (hin hp)
  have hkept : live \ extent offset oldLen ∪ extent offset data.length ⊆ live :=
    Set.union_subset Set.sdiff_subset (hin.trans hold)
  have hfirst := h.sizes.live_lt offset (hold (by simp [extent]; omega))
  have hlast := h.sizes.live_lt (offset + pageCount oldLen - 1) (hold (by simp [extent]; omega))
  have hle := le_pageCount_mul data.length
  have hdvd := h.sizes.data_dvd
  refine ⟨hfresh, (h.setData _).mono hkept, get_pwrite_self ?_, samePages_pwrite hfresh, hfirst.2.le⟩
  simp only [page] at *
  omega

/-- What an update does: it writes in place and gives back the pages it no longer needs, or it gives
the old pages back and writes the record elsewhere. -/
inductive UpdateOutcome (c : Content2) (offset oldLen : Nat) (data : Bytes) : Option Nat × Content2 → Prop
  | inPlace (same : pageCount data.length = pageCount oldLen) : UpdateOutcome c offset oldLen data
        (some offset, { c with data := pwrite c.data data (offset * page) })
  | shrunk {c' : Content2} (less : pageCount data.length < pageCount oldLen)
      (add : Content2.addFreeBlock { c with data := pwrite c.data data (offset * page) }
        (pageCount oldLen - pageCount data.length) (offset + pageCount data.length) = some c') :
      UpdateOutcome c offset oldLen data (some offset, c')
  | overwritten (less : pageCount data.length < pageCount oldLen)
      (add : Content2.addFreeBlock { c with data := pwrite c.data data (offset * page) }
        (pageCount oldLen - pageCount data.length) (offset + pageCount data.length) = none) :
      UpdateOutcome c offset oldLen data (none, { c with data := pwrite c.data data (offset * page) })
  | full (more : pageCount oldLen < pageCount data.length)
      (full : c.dataFileSize > dataFileMaxSize ∧ c.freeBlockMax < pageCount data.length) :
      UpdateOutcome c offset oldLen data (none, c)
  | kept (more : pageCount oldLen < pageCount data.length) (add : c.addFreeBlock (pageCount oldLen) offset = none) :
      UpdateOutcome c offset oldLen data (none, c)
  | moved {c₁ : Content2} (more : pageCount oldLen < pageCount data.length)
      (room : c.dataFileSize ≤ dataFileMaxSize ∨ pageCount data.length ≤ c.freeBlockMax)
      (add : c.addFreeBlock (pageCount oldLen) offset = some c₁) :
      UpdateOutcome c offset oldLen data (some (c₁.writeInner data).1, (c₁.writeInner data).2)

theorem update_outcome (c : Content2) (offset oldLen : Nat) (data : Bytes) :
    UpdateOutcome c offset oldLen data (c.update offset oldLen data) := by
  unfold Content2.update
  simp only
  by_cases hfit : pageCount oldLen ≥ pageCount data.length
  · rw [if_pos hfit]
    by_cases hless : pageCount oldLen > pageCount data.length
    · rw [if_pos hless]
      cases hadd : Content2.addFreeBlock { c with data := pwrite c.data data (offset * page) }
          (pageCount oldLen - pageCount data.length) (offset + pageCount data.length) with
      | none => exact .overwritten hless hadd
      | some c' => exact .shrunk hless hadd
    · rw [if_neg hless]
      exact .inPlace (by omega)
  · rw [if_neg hfit]
    by_cases hfull : c.dataFileSize > dataFileMaxSize ∧ c.freeBlockMax < pageCount data.length
    · rw [if_pos hfull]
      exact .full (by omega) hfull
    · rw [if_neg hfull]
      cases hadd : c.addFreeBlock (pageCount oldLen) offset with
      | none => exact .kept (by omega) hadd
      | some c₁ => exact .moved (by omega) (by omega) hadd

theorem Inv.update_of_some (h : c.Inv live) (hlt : data.length < 2 ^ 32)
    {offset oldLen offset' : Nat} (holdLen : 0 < oldLen) (hold : extent offset oldLen ⊆ live)
    (hupdate : c.update offset oldLen data = (some offset', c')) :
    Written c (live \ extent offset oldLen) offset' data c' := by
  have holdpos := pageCount_pos holdLen
  have houtcome := update_outcome c offset oldLen data
  rw [hupdate] at houtcome
  cases houtcome with
  | inPlace hsame => exact h.update_inPlace holdLen hold hsame.le
  | shrunk hless hadd =>
    have hwritten := h.update_inPlace holdLen hold hless.le
    -- The pages behind the new record are given back.
    have hfreed : Set.Ico (offset + pageCount data.length) (offset + pageCount data.length +
        (pageCount oldLen - pageCount data.length)) ⊆ extent offset oldLen := by
      intro p hp
      simp only [extent, Set.mem_Ico] at *
      omega
    have hapart : Disjoint (Set.Ico (offset + pageCount data.length)
        (offset + pageCount data.length + (pageCount oldLen - pageCount data.length)))
        (live \ extent offset oldLen ∪ extent offset data.length) := by
      refine Set.disjoint_left.mpr fun p hp hp' => ?_
      rcases hp' with hp' | hp'
      · exact hp'.2 (hfreed hp)
      · simp only [extent, Set.mem_Ico] at *
        omega
    have hkept : live \ extent offset oldLen ∪ extent offset data.length ⊆ live := by
      refine Set.union_subset Set.sdiff_subset fun p hp => hold ?_
      simp only [extent, Set.mem_Ico] at *
      omega
    obtain ⟨c₂, hadd', hinv, hsame⟩ := (h.setData _).addFreeBlock
      (hasSlot_of_addFreeBlock hadd) hkept (.inr ⟨by omega, hfreed.trans hold, hapart⟩)
    cases hadd.symm.trans hadd'
    refine ⟨hwritten.fresh, hinv, ?_, hwritten.same.trans hsame.samePages, hwritten.offset_le⟩
    have hget := hwritten.get_eq
    rwa [Content2.get, ← hsame.1, ← hsame.2] at hget
  | moved hmore hroom hadd =>
    have hlen : 0 < data.length := by
      have := pageCount_le data.length
      omega
    have hapart : Disjoint (extent offset oldLen) (live \ extent offset oldLen) :=
      Set.disjoint_left.mpr fun p hp hp' => hp'.2 hp
    obtain ⟨c₂, hadd', hinv, hsame⟩ := h.addFreeBlock (hasSlot_of_addFreeBlock hadd)
      Set.sdiff_subset (.inr ⟨holdpos, hold, hapart⟩)
    cases hadd.symm.trans hadd'
    have hspec := hinv.writeInner hlen hlt
    refine ⟨hspec.fresh, hspec.inv, hspec.get_eq, hsame.samePages.trans hspec.same, ?_⟩
    rw [← hsame.2]
    exact hspec.offset_le

theorem HasSlot.addFreeBlock_ne_none (h : c.HasSlot) (size offset : Nat) :
    c.addFreeBlock size offset ≠ none := by
  unfold Content2.addFreeBlock
  by_cases hheader : c.header = freeBlockFileMaxSize
  · rw [if_pos hheader, incrFreeBlockFile_eq (h.resolve_left (not_not_intro hheader))]
    exact Option.some_ne_none _
  · rw [if_neg hheader]
    exact Option.some_ne_none _

theorem Room.update_isSome (hroom : c.Room) (offset oldLen : Nat) (data : Bytes) :
    ∃ offset' c', c.update offset oldLen data = (some offset', c') := by
  have houtcome := update_outcome c offset oldLen data
  generalize c.update offset oldLen data = out at houtcome
  cases houtcome with
  | inPlace _ => exact ⟨_, _, rfl⟩
  | shrunk _ _ => exact ⟨_, _, rfl⟩
  | overwritten _ hadd =>
    have hslot : HasSlot { c with data := pwrite c.data data (offset * page) } := hroom.slot
    exact absurd hadd (hslot.addFreeBlock_ne_none _ _)
  | full _ hfull =>
    have := hroom.data_le
    omega
  | kept _ hadd => exact absurd hadd (hroom.slot.addFreeBlock_ne_none _ _)
  | moved _ _ _ => exact ⟨_, _, rfl⟩

theorem Inv.update (h : c.Inv live) (hroom : c.Room)
    (hlt : data.length < 2 ^ 32) {offset oldLen : Nat} (holdLen : 0 < oldLen)
    (hold : extent offset oldLen ⊆ live) :
    ∃ offset' c', c.update offset oldLen data = (some offset', c') ∧
      Written c (live \ extent offset oldLen) offset' data c' := by
  obtain ⟨offset', c', hupdate⟩ := hroom.update_isSome offset oldLen data
  exact ⟨offset', c', hupdate, h.update_of_some hlt holdLen hold hupdate⟩

theorem Inv.del (h : c.Inv live) (hslot : c.HasSlot) (hlen : 0 < len) (hsub : extent offset len ⊆ live) :
    ∃ c', c.del offset len = some c' ∧ c'.Inv (live \ extent offset len) ∧ c.SameData c' :=
  h.addFreeBlock hslot Set.sdiff_subset
    (.inr ⟨pageCount_pos hlen, hsub, Set.disjoint_left.mpr fun _ hp hp' => hp'.2 hp⟩)

theorem Inv.del_empty (h : c.Inv live) (hslot : c.HasSlot) :
    ∃ c', c.del 0 0 = some c' ∧ c'.Inv live ∧ c.SameData c' :=
  h.addFreeBlock hslot subset_rfl (.inl ⟨rfl, rfl⟩)

end HustStore.Md5db.Content2
