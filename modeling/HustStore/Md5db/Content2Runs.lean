import HustStore.Md5db.Content2Inv

/-!
# The free runs of a content file

The slots that describe a free run, the order in which the runs are listed, and what becomes of their
pages when adjacent runs are merged.
-/

namespace HustStore.Md5db

namespace Content2

variable {c c' : Content2} {held held' : List Nat}

structure HeldInv (c : Content2) (held : List Nat) : Prop where
  pos : ∀ i ∈ held, 0 < (c.cache i).size
  rest : ∀ i, c.IsSlot i → i ∉ held → (c.cache i).size = 0

def BySize (c : Content2) (held : List Nat) : Prop :=
  held.Pairwise fun i j => (c.cache i).size ≤ (c.cache j).size

def freePages (c : Content2) (held : List Nat) : Set Nat := {p | ∃ i ∈ held, p ∈ (c.cache i).pages}

structure Regroups (c : Content2) (held : List Nat) (c' : Content2) (held' : List Nat) : Prop where
  covers : ∀ i ∈ held, ∃ j ∈ held', (c.cache i).pages ⊆ (c'.cache j).pages
  within : ∀ j ∈ held', (c'.cache j).pages ⊆ c.freePages held

theorem Regroups.trans {c'' : Content2} {held'' : List Nat} (h : Regroups c held c' held')
    (h' : Regroups c' held' c'' held'') : Regroups c held c'' held'' where
  covers i hi := by
    obtain ⟨j, hj, hij⟩ := h.covers i hi
    obtain ⟨k, hk, hjk⟩ := h'.covers j hj
    exact ⟨k, hk, hij.trans hjk⟩
  within k hk p hp := by
    obtain ⟨j, hj, hpj⟩ := h'.within k hk hp
    exact h.within j hj hpj

theorem Regroups.of_perm (hperm : held.Perm held') (hcache : c'.cache = c.cache) : Regroups c held c' held' where
  covers i hi := ⟨i, hperm.mem_iff.1 hi, by rw [hcache]⟩
  within j hj p hp := ⟨j, hperm.mem_iff.2 hj, by rwa [hcache] at hp⟩

theorem Regroups.freePages_eq (h : Regroups c held c' held') : c'.freePages held' = c.freePages held := by
  ext p
  constructor
  · rintro ⟨j, hj, hp⟩
    exact h.within j hj hp
  · rintro ⟨i, hi, hp⟩
    obtain ⟨j, hj, hsub⟩ := h.covers i hi
    exact ⟨j, hj, hsub hp⟩

theorem pairwise_insertBy {key : Nat → Nat} {l : List Nat} (i : Nat) (h : l.Pairwise fun j k => key j ≤ key k) :
    (insertBy key i l).Pairwise fun j k => key j ≤ key k := by
  induction l with
  | nil => exact List.pairwise_singleton _ _
  | cons j rest ih =>
    obtain ⟨hj, hrest⟩ := List.pairwise_cons.1 h
    unfold insertBy
    split
    · next hlt =>
      refine List.pairwise_cons.2 ⟨fun k hk => ?_, h⟩
      rcases List.mem_cons.1 hk with rfl | hk
      · exact hlt.le
      · exact hlt.le.trans (hj k hk)
    · next hge =>
      refine List.pairwise_cons.2 ⟨fun k hk => ?_, ih hrest⟩
      rcases List.mem_cons.1 ((insertBy_perm key i rest).mem_iff.1 hk) with rfl | hk
      · exact not_lt.1 hge
      · exact hj k hk

theorem BySize.insertFree (h : c.BySize c.freeBlockList) (i : Nat) :
    (c.insertFree i).BySize (c.insertFree i).freeBlockList :=
  pairwise_insertBy i h

theorem BySize.congr (h : c.BySize held) (hcache : ∀ i ∈ held, c'.cache i = c.cache i) :
    c'.BySize held := by
  refine List.Pairwise.imp_of_mem (fun {i j} hi hj hij => ?_) h
  rwa [hcache i hi, hcache j hj]

theorem mergeStep_held {prev curr : Nat} (hnodup : (prev :: curr :: held).Nodup)
    (hheld : c.HeldInv (prev :: curr :: held))
    (hadj : (c.cache prev).offset + (c.cache prev).size = (c.cache curr).offset)
    (hc' : c' = { (c.setBlock prev ⟨(c.cache prev).offset,
      (c.cache prev).size + (c.cache curr).size⟩).setBlock curr ⟨c.header, 0⟩ with
        header := curr }) :
    c'.HeldInv (prev :: held) ∧ Regroups c (prev :: curr :: held) c' (prev :: held) ∧
      ∀ i ∈ held, c'.cache i = c.cache i := by
  obtain ⟨hprev, hcurr, -⟩ : prev ∉ curr :: held ∧ curr ∉ held ∧ held.Nodup := by
    simpa [List.nodup_cons] using hnodup
  have hne : curr ≠ prev := fun heq => hprev (by simp [heq])
  have hcacheprev : c'.cache prev = ⟨(c.cache prev).offset, (c.cache prev).size + (c.cache curr).size⟩ := by
    rw [hc']
    simp only [setBlock_cache_of_ne (Ne.symm hne), setBlock_cache_self]
  have hcachecurr : c'.cache curr = ⟨c.header, 0⟩ := by
    rw [hc']
    simp only [setBlock_cache_self]
  have hother {i : Nat} (hp : i ≠ prev) (hc : i ≠ curr) : c'.cache i = c.cache i := by
    rw [hc']
    simp only [setBlock_cache_of_ne hc, setBlock_cache_of_ne hp]
  have hkept (i : Nat) (hi : i ∈ held) : c'.cache i = c.cache i :=
    hother (fun heq => hprev (by simp [← heq, hi])) fun heq => hcurr (heq ▸ hi)
  have hpages : (c'.cache prev).pages = (c.cache prev).pages ∪ (c.cache curr).pages := by
    rw [hcacheprev]
    ext p
    simp only [FreeBlock.pages, Set.mem_union, Set.mem_Ico]
    omega
  refine ⟨⟨fun i hi => ?_, fun i hi hnot => ?_⟩, ⟨fun i hi => ?_, fun j hj => ?_⟩, hkept⟩
  · rcases List.mem_cons.1 hi with rfl | hi
    · rw [hcacheprev]
      exact Nat.add_pos_left (hheld.pos i (by simp)) _
    · rw [hkept i hi]
      exact hheld.pos i (by simp [hi])
  · by_cases heq : i = curr
    · rw [heq, hcachecurr]
    · have hslot : c.IsSlot i := by
        rw [hc'] at hi
        exact hi
      simp only [List.mem_cons, not_or] at hnot
      rw [hother hnot.1 heq]
      exact hheld.rest i hslot (by simp [hnot.1, hnot.2, heq])
  · simp only [List.mem_cons] at hi
    rcases hi with rfl | rfl | hi
    · exact ⟨i, by simp, by rw [hpages]; exact Set.subset_union_left⟩
    · exact ⟨prev, by simp, by rw [hpages]; exact Set.subset_union_right⟩
    · exact ⟨i, by simp [hi], by rw [hkept i hi]⟩
  · intro p hp
    rcases List.mem_cons.1 hj with rfl | hj
    · rw [hpages] at hp
      rcases hp with hp | hp
      · exact ⟨j, by simp, hp⟩
      · exact ⟨curr, by simp, hp⟩
    · rw [hkept j hj] at hp
      exact ⟨j, by simp [hj], hp⟩

theorem mergeBlocks_held (todo : List Nat) (prev : Option Nat)
    (hnodup : (prev.toList ++ todo ++ c.freeBlockList).Nodup)
    (hheld : c.HeldInv (prev.toList ++ todo ++ c.freeBlockList))
    (hsorted : c.BySize c.freeBlockList) :
    (mergeBlocks c prev todo).HeldInv (mergeBlocks c prev todo).freeBlockList ∧
    (mergeBlocks c prev todo).BySize (mergeBlocks c prev todo).freeBlockList ∧
    Regroups c (prev.toList ++ todo ++ c.freeBlockList) (mergeBlocks c prev todo)
      (mergeBlocks c prev todo).freeBlockList ∧
    (mergeBlocks c prev todo).freeBlockMax = c.freeBlockMax := by
  induction todo generalizing c prev with
  | nil =>
    cases prev with
    | none => exact ⟨hheld, hsorted, .of_perm (.refl _) rfl, rfl⟩
    | some prev =>
      have hperm : (prev :: c.freeBlockList).Perm (c.insertFree prev).freeBlockList :=
        (insertBy_perm _ prev c.freeBlockList).symm
      refine ⟨⟨fun i hi => hheld.pos i (hperm.mem_iff.2 hi), fun i hi hnot => ?_⟩,
        hsorted.insertFree prev, .of_perm hperm rfl, rfl⟩
      exact hheld.rest i hi fun hmem => hnot (hperm.mem_iff.1 hmem)
  | cons curr rest ih =>
    cases prev with
    | none => exact ih (some curr) hnodup hheld hsorted
    | some prev =>
      unfold mergeBlocks
      simp only
      split
      · next hadj =>
        obtain ⟨hheld', hregroups, hkept⟩ := mergeStep_held hnodup hheld hadj rfl
        have hnodup' : (prev :: (rest ++ c.freeBlockList)).Nodup :=
          hnodup.sublist ((List.sublist_cons_self curr _).cons_cons prev)
        obtain ⟨hfinal, hbysize, hregroups', hmax⟩ :=
          ih (c := { (c.setBlock prev ⟨(c.cache prev).offset,
            (c.cache prev).size + (c.cache curr).size⟩).setBlock curr ⟨c.header, 0⟩ with
              header := curr }) (some prev) hnodup' hheld'
            (hsorted.congr fun i hi => hkept i (List.mem_append_right _ hi))
        exact ⟨hfinal, hbysize, hregroups.trans hregroups', hmax⟩
      · have hperm : (prev :: curr :: rest ++ c.freeBlockList).Perm
            (curr :: rest ++ (c.insertFree prev).freeBlockList) := by
          refine List.Perm.trans ?_ ((insertBy_perm (fun j => (c.cache j).size) prev
            c.freeBlockList).symm.append_left (curr :: rest))
          exact List.perm_middle.symm
        have hheld' : (c.insertFree prev).HeldInv (curr :: rest ++ (c.insertFree prev).freeBlockList) :=
          ⟨fun i hi => hheld.pos i (hperm.mem_iff.2 hi),
            fun i hi hnot => hheld.rest i hi fun hmem => hnot (hperm.mem_iff.1 hmem)⟩
        obtain ⟨hfinal, hbysize, hregroups, hmax⟩ := ih (c := c.insertFree prev) (some curr)
          (hperm.nodup_iff.1 hnodup) hheld' (hsorted.insertFree prev)
        have hmoved : Regroups c (prev :: curr :: rest ++ c.freeBlockList) (c.insertFree prev)
            (curr :: rest ++ (c.insertFree prev).freeBlockList) := .of_perm hperm rfl
        exact ⟨hfinal, hbysize, hmoved.trans hregroups, hmax⟩

end Content2

end HustStore.Md5db
