import HustStore.Md5db.Index

/-!
# Steps of the directory

How the slots, the rows and the conflict databases follow a change of the directory at one key.
-/

namespace HustStore.Md5db

variable {item : BucketDataItem} {dir dir' : Directory} {s : Slot} {k k' : InnerKey} {e e' : Entry}
  {row row' : List BucketDataItem} {spill : List InnerKey}

theorem Leads.congr (h : Leads dir k item) (hdir : dir' k = dir k) : Leads dir' k item :=
  ⟨h.bucket, hdir.trans h.entry, h.version_le⟩

/-! ### Rows -/

namespace RowInv

variable {lookup lookup' : InnerKey → Option BucketDataItem} {p : BucketDataItem → Bool}
  {f : BucketDataItem → BucketDataItem}

section

variable (h : RowInv dir s row spill lookup)
include h

theorem congr (hdir : ∀ k, slotOf k = s → dir' k = dir k)
    (hlookup : ∀ k, slotOf k = s → lookup' k = lookup k) : RowInv dir' s row spill lookup' where
  items item hitem hne := by
    obtain ⟨k, hk, hnot, hleads⟩ := h.items item hitem hne
    exact ⟨k, hk, hnot, hleads.congr (hdir k hk)⟩
  distinct := h.distinct
  over_nodup := h.over_nodup
  over_lookup k hmem := by
    obtain ⟨hk, item, hl, hleads⟩ := h.over_lookup k hmem
    exact ⟨hk, item, (hlookup k hk).trans hl, hleads.congr (hdir k hk)⟩
  lookup_none k hk hnot := (hlookup k hk).trans (h.lookup_none k hk hnot)
  complete k e hk he := h.complete k e hk ((hdir k hk).symm.trans he)

theorem not_mem_over (hnone : dir k = none) : k ∉ spill :=
  fun hmem => by
    obtain ⟨-, item, -, hleads⟩ := h.over_lookup k hmem
    exact absurd hleads.entry (by simp [hnone])

theorem insert (hk : slotOf k = s) (hnone : dir k = none)
    (hdir : ∀ k', k' ≠ k → dir' k' = dir k') (hentry : dir' k = some e)
    (hpos : ∀ k' e', dir k' = some e' → e'.dataId ≠ 0)
    (hfresh : ∀ item ∈ row, item.blockId.dataId ≠ e.dataId) (hp : ∀ x, p x ↔ x.blockId.dataId = 0)
    (hfree : ∃ x ∈ row, p x) (hf : ∀ x, Leads dir' k (f x)) :
    RowInv dir' s (modifyFirst p f row) spill lookup := by
  have hnot : k ∉ spill := h.not_mem_over hnone
  have hid (x : BucketDataItem) : (f x).blockId.dataId = e.dataId :=
    congrArg Entry.dataId (Option.some.inj ((hf x).entry.symm.trans hentry))
  have hother {k' : InnerKey} {e' : Entry} (he : dir k' = some e') : k' ≠ k := by
    rintro rfl
    simp [hnone] at he
  refine ⟨fun item hitem hne => ?_, ?_, h.over_nodup, fun k' hmem => ?_, h.lookup_none, fun k' e' hk' he' => ?_⟩
  · rcases mem_of_mem_modifyFirst hitem with hitem | ⟨x, -, -, rfl⟩
    · obtain ⟨k', hk', hnot', hleads⟩ := h.items item hitem hne
      exact ⟨k', hk', hnot', hleads.congr (hdir k' (hother hleads.entry))⟩
    · exact ⟨k, hk, hnot, hf x⟩
  · refine pairwise_modifyFirst h.distinct fun x _ hpx y hy => ⟨fun _ _ => ?_, fun _ _ => ?_⟩
    · rw [hid]
      exact (hfresh y hy).symm
    · rw [hid]
      exact hfresh y hy
  · obtain ⟨hk', item, hl, hleads⟩ := h.over_lookup k' hmem
    exact ⟨hk', item, hl, hleads.congr (hdir k' (hother hleads.entry))⟩
  · by_cases heq : k' = k
    · subst heq
      obtain rfl : e' = e := Option.some.inj (he'.symm.trans hentry)
      obtain ⟨x, -, -, hmem⟩ := exists_mem_modifyFirst (f := f) hfree
      exact .inr ⟨f x, hmem, hid x⟩
    · rw [hdir k' heq] at he'
      rcases h.complete k' e' hk' he' with hmem | ⟨item, hitem, hitemId⟩
      · exact .inl hmem
      · have hused : ¬ p item := by
          rw [hp, hitemId]
          exact hpos k' e' he'
        exact .inr ⟨item, mem_modifyFirst_of_not hitem hused, hitemId⟩

theorem insertOver (hk : slotOf k = s) (hnone : dir k = none)
    (hdir : ∀ k', k' ≠ k → dir' k' = dir k') (hlookup : ∀ k', k' ≠ k → lookup' k' = lookup k')
    {item : BucketDataItem} (hitem : lookup' k = some item) (hleads : Leads dir' k item) :
    RowInv dir' s row (k :: spill) lookup' := by
  have hother {k' : InnerKey} {e' : Entry} (he : dir k' = some e') : k' ≠ k := by
    rintro rfl
    simp [hnone] at he
  refine ⟨fun x hx hne => ?_, h.distinct, List.nodup_cons.mpr ⟨h.not_mem_over hnone, h.over_nodup⟩,
    fun k' hmem => ?_, fun k' hk' hnot => ?_, fun k' e' hk' he' => ?_⟩
  · obtain ⟨k', hk', hnot', hleads'⟩ := h.items x hx hne
    have hne' := hother hleads'.entry
    exact ⟨k', hk', by simp [hne', hnot'], hleads'.congr (hdir k' hne')⟩
  · rcases List.mem_cons.mp hmem with rfl | hmem
    · exact ⟨hk, item, hitem, hleads⟩
    · obtain ⟨hk', x, hl, hleads'⟩ := h.over_lookup k' hmem
      have hne' := hother hleads'.entry
      exact ⟨hk', x, (hlookup k' hne').trans hl, hleads'.congr (hdir k' hne')⟩
  · obtain ⟨hne', hnot'⟩ := not_or.mp (mt List.mem_cons.mpr hnot)
    exact (hlookup k' hne').trans (h.lookup_none k' hk' hnot')
  · by_cases heq : k' = k
    · exact .inl (by simp [heq])
    · rw [hdir k' heq] at he'
      exact (h.complete k' e' hk' he').imp_left (List.mem_cons_of_mem _)

theorem replace (hk : slotOf k = s) (hnot : k ∉ spill)
    (hentry : dir k = some e) (hpos : e.dataId ≠ 0) (hdir : ∀ k', k' ≠ k → dir' k' = dir k')
    (hp : ∀ x ∈ row, p x ↔ x.blockId.dataId = e.dataId)
    (hinj : ∀ k' e', slotOf k' = s → dir k' = some e' → e'.dataId = e.dataId → k' = k)
    (hf : ∀ x ∈ row, x.blockId.dataId = e.dataId → (f x).blockId.dataId ≠ 0 →
      Leads dir' k (f x) ∧ (f x).blockId.dataId = e.dataId)
    (hcomplete : ∀ e', dir' k = some e' → e'.dataId = e.dataId ∧
      ∀ x, x.blockId.dataId = e.dataId → (f x).blockId.dataId = e.dataId) :
    RowInv dir' s (modifyFirst p f row) spill lookup := by
  have honce : row.Pairwise fun a b => p a → ¬ p b := by
    refine h.distinct.imp_of_mem fun {a b} ha hb hab hpa hpb => ?_
    rw [hp a ha] at hpa
    rw [hp b hb] at hpb
    exact hab (hpa ▸ hpos) (hpa.trans hpb.symm)
  have hover {k' : InnerKey} (hmem : k' ∈ spill) : k' ≠ k := fun heq => hnot (heq ▸ hmem)
  rw [modifyFirst_eq_map honce]
  refine ⟨fun item hitem hne => ?_, ?_, h.over_nodup, fun k' hmem => ?_, h.lookup_none, fun k' e' hk' he' => ?_⟩
  · obtain ⟨x, hx, rfl⟩ := List.mem_map.mp hitem
    split_ifs at hne ⊢ with hpx
    · exact ⟨k, hk, hnot, (hf x hx ((hp x hx).mp hpx) hne).1⟩
    · obtain ⟨k', hk', hnot', hleads⟩ := h.items x hx hne
      have hne' : k' ≠ k := by
        rintro rfl
        obtain rfl : e = _ := Option.some.inj (hentry.symm.trans hleads.entry)
        exact hpx ((hp x hx).mpr rfl)
      exact ⟨k', hk', hnot', hleads.congr (hdir k' hne')⟩
  · refine List.pairwise_map.mpr (h.distinct.imp_of_mem fun {a b} ha hb hab hne => ?_)
    -- Only one of the two can be the item of the key, and its index does not change.
    split_ifs at hne ⊢ with hpa hpb hpb
    · have ha' := (hp a ha).mp hpa
      exact absurd (ha'.trans ((hp b hb).mp hpb).symm) (hab (ha' ▸ hpos))
    · rw [(hf a ha ((hp a ha).mp hpa) hne).2]
      exact fun heq => hpb ((hp b hb).mpr heq.symm)
    · have hb' := (hp b hb).mp hpb
      intro heq
      have hbne : (f b).blockId.dataId ≠ 0 := heq ▸ hne
      exact hpa ((hp a ha).mpr (heq.trans (hf b hb hb' hbne).2))
    · exact hab hne
  · obtain ⟨hk', item, hl, hleads⟩ := h.over_lookup k' hmem
    exact ⟨hk', item, hl, hleads.congr (hdir k' (hover hmem))⟩
  · by_cases heq : k' = k
    · subst heq
      obtain ⟨hid, hkeep⟩ := hcomplete e' he'
      obtain ⟨x, hx, hxid⟩ := (h.complete k' e hk' hentry).resolve_left hnot
      refine .inr ⟨f x, List.mem_map.mpr ⟨x, hx, if_pos ((hp x hx).mpr hxid)⟩, ?_⟩
      rw [hkeep x hxid, hid]
    · rw [hdir k' heq] at he'
      refine (h.complete k' e' hk' he').imp_right fun ⟨x, hx, hxid⟩ => ?_
      have hpx : ¬ p x := fun hpx =>
        heq (hinj k' e' hk' he' (hxid.symm.trans ((hp x hx).mp hpx)))
      exact ⟨x, List.mem_map.mpr ⟨x, hx, if_neg hpx⟩, hxid⟩

theorem updateOver (hmem : k ∈ spill)
    (hdir : ∀ k', k' ≠ k → dir' k' = dir k') (hlookup : ∀ k', k' ≠ k → lookup' k' = lookup k')
    {item : BucketDataItem} (hitem : lookup' k = some item) (hleads : Leads dir' k item) :
    RowInv dir' s row spill lookup' := by
  refine ⟨fun x hx hne => ?_, h.distinct, h.over_nodup, fun k' hmem' => ?_, fun k' hk' hnot => ?_,
    fun k' e' hk' he' => ?_⟩
  · obtain ⟨k', hk', hnot', hleads'⟩ := h.items x hx hne
    exact ⟨k', hk', hnot', hleads'.congr (hdir k' fun heq => hnot' (heq ▸ hmem))⟩
  · obtain ⟨hk', x, hl, hleads'⟩ := h.over_lookup k' hmem'
    by_cases heq : k' = k
    · subst heq
      exact ⟨hk', item, hitem, hleads⟩
    · exact ⟨hk', x, (hlookup k' heq).trans hl, hleads'.congr (hdir k' heq)⟩
  · exact (hlookup k' fun heq => hnot (heq ▸ hmem)).trans (h.lookup_none k' hk' hnot)
  · by_cases heq : k' = k
    · exact .inl (heq ▸ hmem)
    · exact h.complete k' e' hk' ((hdir k' heq).symm.trans he')

theorem eraseOver (hmem : k ∈ spill) (hdir : ∀ k', k' ≠ k → dir' k' = dir k') (hnone : dir' k = none)
    (hlookup : ∀ k', k' ≠ k → lookup' k' = lookup k') (hitem : lookup' k = none) :
    RowInv dir' s row (spill.erase k) lookup' := by
  have herase (k' : InnerKey) : k' ∈ spill.erase k ↔ k' ≠ k ∧ k' ∈ spill := h.over_nodup.mem_erase_iff
  refine ⟨fun x hx hne => ?_, h.distinct, h.over_nodup.erase k, fun k' hmem' => ?_,
    fun k' hk' hnot => ?_, fun k' e' hk' he' => ?_⟩
  · obtain ⟨k', hk', hnot', hleads⟩ := h.items x hx hne
    have hne' : k' ≠ k := fun heq => hnot' (heq ▸ hmem)
    exact ⟨k', hk', fun hmem' => hnot' ((herase k').mp hmem').2, hleads.congr (hdir k' hne')⟩
  · obtain ⟨hne', hmem'⟩ := (herase k').mp hmem'
    obtain ⟨hk', x, hl, hleads⟩ := h.over_lookup k' hmem'
    exact ⟨hk', x, (hlookup k' hne').trans hl, hleads.congr (hdir k' hne')⟩
  · by_cases heq : k' = k
    · rw [heq, hitem]
    · rw [hlookup k' heq]
      exact h.lookup_none k' hk' fun hmem' => hnot ((herase k').mpr ⟨heq, hmem'⟩)
  · have hne' : k' ≠ k := by
      rintro rfl
      simp [hnone] at he'
    rw [hdir k' hne'] at he'
    exact (h.complete k' e' hk' he').imp_left fun hmem' => (herase k').mpr ⟨hne', hmem'⟩

end

end RowInv

/-! ### One slot changes -/

namespace Db

variable {db db' : Db} {a : Addr}

theorem SlotInv.congr (h : db.SlotInv dir s) (hbucket : db'.buckets s = db.buckets s)
    (hrow : (db.buckets s).type = .conflictData → ∀ r, (db.fastConflicts s.bucket).rowOf (db.buckets s) = some r →
      (db'.fastConflicts s.bucket).rowOf (db.buckets s) = some r)
    (hdir : ∀ k, slotOf k = s → dir' k = dir k)
    (hlookup : ∀ k, slotOf k = s → db'.conflicts.lookup k = db.conflicts.lookup k) :
    db'.SlotInv dir' s := by
  unfold SlotInv at h ⊢
  rw [hbucket]
  split at h
  · intro k hk
    rw [hdir k hk, hlookup k hk]
    exact h k hk
  · obtain ⟨hnone, k, hk, hleads, hothers⟩ := h
    refine ⟨fun k hk => (hlookup k hk).trans (hnone k hk), k, hk, hleads.congr (hdir k hk),
      fun k' hk' hkk' => (hdir k' hk').trans (hothers k' hk' hkk')⟩
  · rename_i htype
    obtain ⟨index, row, spill, h⟩ := h
    refine ⟨index, row, spill, ?_, h.rowInv.congr hdir hlookup, hbucket ▸ h.count, hbucket ▸ h.count_pos,
      hbucket ▸ h.count_lt⟩
    rw [hbucket]
    exact hrow htype _ h.rowOf

structure StepAt (s : Slot) (db : Db) (dir : Directory) (db' : Db) (dir' : Directory) : Prop where
  buckets : ∀ s', s' ≠ s → db'.buckets s' = db.buckets s'
  rowOf : ∀ s', s' ≠ s → (db.buckets s').type = .conflictData → (db'.fastConflicts s'.bucket).rowOf (db.buckets s') =
      (db.fastConflicts s'.bucket).rowOf (db.buckets s')
  dir : ∀ k, slotOf k ≠ s → dir' k = dir k
  lookup : ∀ k, slotOf k ≠ s → db'.conflicts.lookup k = db.conflicts.lookup k

theorem SlotInv.stepAt {s' : Slot} (h : db.SlotInv dir s') (hstep : StepAt s db dir db' dir')
    (hne : s' ≠ s) : db'.SlotInv dir' s' := by
  have hslot {k : InnerKey} (hk : slotOf k = s') : slotOf k ≠ s := fun heq => hne (hk.symm.trans heq)
  exact h.congr (hstep.buckets s' hne) (fun ht r hr => (hstep.rowOf s' hne ht).trans hr)
    (fun k hk => hstep.dir k (hslot hk)) fun k hk => hstep.lookup k (hslot hk)

theorem IndexInv.step (h : db.IndexInv dir) (hstep : StepAt s db dir db' dir')
    (hfast : ∀ c, (db'.fastConflicts c).Inv ∧ (db'.fastConflicts c).fileId = c)
    (hslot : db'.SlotInv dir' s)
    (hrow : ∀ s', s' ≠ s → (db'.buckets s).type = .conflictData →
      (db.buckets s').type = .conflictData → s'.bucket = s.bucket →
      (db.buckets s').blockId.dataId ≠ (db'.buckets s).blockId.dataId) : db'.IndexInv dir' := by
  refine ⟨hfast, fun s' => ?_, fun s₁ s₂ h₁ h₂ hbucket hid => ?_⟩
  · by_cases hne : s' = s
    · exact hne ▸ hslot
    · exact (h.slots s').stepAt hstep hne
  · by_cases hs₁ : s₁ = s
    · by_cases hs₂ : s₂ = s
      · exact hs₁.trans hs₂.symm
      · subst hs₁
        rw [hstep.buckets s₂ hs₂] at h₂ hid
        exact absurd hid.symm (hrow s₂ hs₂ h₁ h₂ hbucket.symm)
    · rw [hstep.buckets s₁ hs₁] at h₁ hid
      by_cases hs₂ : s₂ = s
      · subst hs₂
        exact absurd hid (hrow s₁ hs₁ h₂ h₁ hbucket)
      · rw [hstep.buckets s₂ hs₂] at h₂ hid
        exact h.rows s₁ s₂ h₁ h₂ hbucket hid

theorem IndexInv.congr (h : db.IndexInv dir) (hindex : SameIndex db db') : db'.IndexInv dir := by
  refine ⟨?_, fun s => (h.slots s).congr (by rw [hindex.buckets]) (fun _ r hr => ?_)
    (fun _ _ => rfl) (fun _ _ => by rw [hindex.conflicts]), ?_⟩
  · rw [hindex.fastConflicts]
    exact h.fast
  · rw [hindex.fastConflicts]
    exact hr
  · rw [hindex.buckets]
    exact h.rows

/-! ### The whole state -/

theorem Inv.restrict (h : db.Inv dir) (hdir : ∀ k e', dir' k = some e' → ∃ e, dir k = some e ∧ e'.dataId = e.dataId)
    (hrec : db'.RecordsInv dir'.live ∅)
    (hsuffix : ∀ a ∈ dir'.live, (db'.cell a).md5Suffix = (db.cell a).md5Suffix)
    (hindex : db'.IndexInv dir') : db'.Inv dir' where
  records := hrec
  suffix k e' hk := by
    obtain ⟨e, he, hid⟩ := hdir k e' hk
    have haddr : e'.addr k = e.addr k := Prod.ext rfl hid
    rw [hsuffix _ (mem_live hk), haddr, h.suffix k e he]
  inj k k' e₁ e₂ hk hk' haddr := by
    obtain ⟨e, he, hid⟩ := hdir k e₁ hk
    obtain ⟨e', he', hid'⟩ := hdir k' e₂ hk'
    have hbucket : k.bucket = k'.bucket := congrArg Prod.fst haddr
    refine h.inj k k' e e' he he' (Prod.ext hbucket ?_)
    exact hid.symm.trans ((congrArg Prod.snd haddr).trans hid')
  index := hindex

theorem Inv.insert (h : db.Inv dir) (hrec : db.RecordsInv (insert a dir.live) ∅)
    (hfresh : a ∉ dir.live) (hsuffix : (db.cell a).md5Suffix = md5Suffix k)
    (hdir : ∀ k' e', k' ≠ k → dir' k' = some e' → ∃ e, dir k' = some e ∧ e'.dataId = e.dataId)
    (hentry : dir' k = some e) (ha : e.addr k = a) (hfk : db'.fullkeys = db.fullkeys)
    (hcontents : db'.contents = db.contents) (hindex : db'.IndexInv dir') : db'.Inv dir' := by
  -- Every entry of the new directory is the new one or an old one.
  have hcases (k' : InnerKey) (e' : Entry) (hk' : dir' k' = some e') :
      k' = k ∧ e'.addr k' = a ∨ ∃ e, dir k' = some e ∧ e'.addr k' = e.addr k' := by
    by_cases heq : k' = k
    · subst heq
      exact .inl ⟨rfl, by rw [Option.some.inj (hk'.symm.trans hentry), ha]⟩
    · obtain ⟨e, he, hid⟩ := hdir k' e' heq hk'
      exact .inr ⟨e, he, Prod.ext rfl hid⟩
  have hlive : dir'.live ⊆ Insert.insert a dir.live := by
    rintro b ⟨k', e', hk', rfl⟩
    rcases hcases k' e' hk' with ⟨-, haddr⟩ | ⟨e, he, haddr⟩
    · exact .inl haddr
    · exact .inr (haddr ▸ mem_live he)
  have hcell : db'.cell = db.cell := by
    funext b
    simp only [cell, hfk]
  refine ⟨(hrec.mono hlive (by simpa using hlive)).congr hfk hcontents, fun k' e' hk' => ?_,
    fun k₁ k₂ e₁ e₂ h₁ h₂ haddr => ?_, hindex⟩
  · rw [hcell]
    rcases hcases k' e' hk' with ⟨rfl, haddr⟩ | ⟨e, he, haddr⟩
    · rw [haddr, hsuffix]
    · rw [haddr, h.suffix k' e he]
  · rcases hcases k₁ e₁ h₁ with ⟨rfl, ha₁⟩ | ⟨e₁', he₁, ha₁⟩ <;>
      rcases hcases k₂ e₂ h₂ with ⟨rfl, ha₂⟩ | ⟨e₂', he₂, ha₂⟩
    · rfl
    · exact absurd (ha₁ ▸ haddr ▸ ha₂ ▸ mem_live he₂) hfresh
    · exact absurd (ha₂ ▸ haddr ▸ ha₁ ▸ mem_live he₁) hfresh
    · exact h.inj k₁ k₂ e₁' e₂' he₁ he₂ (ha₁.symm.trans (haddr.trans ha₂))

/-! ### Slots without a row -/

@[simp] theorem setBucket_buckets_self (item : BucketDataItem) :
    (db.setBucket s item).buckets s = item := assign_self ..

theorem setBucket_buckets_of_ne {s' : Slot} (h : s' ≠ s) (item : BucketDataItem) :
    (db.setBucket s item).buckets s' = db.buckets s' := assign_of_ne h ..

theorem update_of_slotOf_ne (o : Option Entry) (h : slotOf k' ≠ slotOf k) : Function.update dir k o k' = dir k' :=
  Function.update_of_ne (fun heq => h (congrArg slotOf heq)) _ _

section

variable (h : db.IndexInv dir)
include h

theorem IndexInv.setBucket {item : BucketDataItem}
    (htype : item.type ≠ .conflictData) (hdir : ∀ k, slotOf k ≠ s → dir' k = dir k)
    (hslot : (db.setBucket s item).SlotInv dir' s) : (db.setBucket s item).IndexInv dir' := by
  refine h.step ⟨fun s' hne => setBucket_buckets_of_ne hne _, fun _ _ _ => rfl, hdir,
    fun _ _ => rfl⟩ h.fast hslot fun s' _ hconflict => ?_
  rw [setBucket_buckets_self] at hconflict
  exact absurd hconflict htype

theorem IndexInv.setDirect {item : BucketDataItem}
    (htype : item.type = .directData) (hleads : Leads (Function.update dir k (some e)) k item)
    (hlookup : ∀ k', slotOf k' = slotOf k → db.conflicts.lookup k' = none)
    (hothers : ∀ k', slotOf k' = slotOf k → k' ≠ k → dir k' = none) :
    (db.setBucket (slotOf k) item).IndexInv (Function.update dir k (some e)) := by
  refine h.setBucket (by simp [htype]) (fun k' hk' => update_of_slotOf_ne _ hk') ?_
  unfold SlotInv
  simp only [setBucket_buckets_self, htype]
  refine ⟨hlookup, k, rfl, hleads, fun k' hk' hne => ?_⟩
  rw [Function.update_of_ne hne]
  exact hothers k' hk' hne

theorem IndexInv.setNoData {item : BucketDataItem} (htype : item.type = .noData)
    (hlookup : ∀ k', slotOf k' = slotOf k → db.conflicts.lookup k' = none)
    (hothers : ∀ k', slotOf k' = slotOf k → k' ≠ k → dir k' = none) :
    (db.setBucket (slotOf k) item).IndexInv (Function.update dir k none) := by
  refine h.setBucket (by simp [htype]) (fun k' hk' => update_of_slotOf_ne _ hk') ?_
  unfold SlotInv
  simp only [setBucket_buckets_self, htype]
  refine fun k' hk' => ⟨?_, hlookup k' hk'⟩
  by_cases hne : k' = k
  · rw [hne, Function.update_self]
  · rw [Function.update_of_ne hne]
    exact hothers k' hk' hne

theorem IndexInv.of_noData (htype : (db.buckets s).type = .noData)
    (hk : slotOf k = s) : dir k = none ∧ db.conflicts.lookup k = none := by
  have hslot := h.slots s
  unfold SlotInv at hslot
  rw [htype] at hslot
  exact hslot k hk

theorem IndexInv.of_directData (htype : (db.buckets s).type = .directData) :
    (∀ k, slotOf k = s → db.conflicts.lookup k = none) ∧
    ∃ k, slotOf k = s ∧ Leads dir k (db.buckets s) ∧ ∀ k', slotOf k' = s → k' ≠ k → dir k' = none := by
  have hslot := h.slots s
  unfold SlotInv at hslot
  rw [htype] at hslot
  exact hslot

theorem IndexInv.directData_some (htype : (db.buckets (slotOf k)).type = .directData) (hk : dir k = some e) :
    (db.buckets (slotOf k)).blockId = (e.addr k).blockId ∧
    (db.buckets (slotOf k)).version = e.version ∧
    (∀ k', slotOf k' = slotOf k → db.conflicts.lookup k' = none) ∧
    ∀ k', slotOf k' = slotOf k → k' ≠ k → dir k' = none := by
  obtain ⟨hlookup, k₁, hk₁, hleads, hothers⟩ := h.of_directData htype
  obtain rfl : k₁ = k := by
    by_contra hne
    rw [hothers k rfl (Ne.symm hne)] at hk
    cases hk
  obtain rfl : e = _ := Option.some.inj (hk.symm.trans hleads.entry)
  exact ⟨hleads.blockId_eq, rfl, hlookup, hothers⟩

theorem IndexInv.of_conflictData (htype : (db.buckets s).type = .conflictData) :
    ∃ index row spill, db.ConflictInv dir s index row spill := by
  have hslot := h.slots s
  unfold SlotInv at hslot
  rw [htype] at hslot
  exact hslot

end

/-! ### Slots with a row -/

@[simp] theorem setFastConflict_fastConflicts_self (c : UInt8) (fc : FastConflict) :
    (db.setFastConflict c fc).fastConflicts c = fc := assign_self ..

theorem setFastConflict_fastConflicts_of_ne {c d : UInt8} (h : d ≠ c) (fc : FastConflict) :
    (db.setFastConflict c fc).fastConflicts d = db.fastConflicts d := assign_of_ne h ..

end Db

variable {fc : FastConflict} {index : Nat}

theorem FastConflict.rowOf_setData_of_ne (h : item.blockId.dataId ≠ index) (row : List BucketDataItem) :
    (fc.setData index row).rowOf item = fc.rowOf item := by
  unfold rowOf
  split
  · rfl
  · change (fc.parseAddr item.blockId).map _ = (fc.parseAddr item.blockId).map _
    refine Option.map_congr fun i hi => ?_
    have hid : i = item.blockId.dataId := by
      rw [(parseAddr_eq_some hi).1]
    rw [setData_data_of_ne (hid ▸ h)]

theorem FastConflict.rowOf_eq_some {row : List BucketDataItem} (h : fc.rowOf item = some (index, row)) :
    item.type = .conflictData ∧ item.blockId = ⟨fc.fileId, index⟩ ∧ 0 < index ∧ index ≤ fc.count ∧
      row = fc.data index := by
  unfold rowOf at h
  split at h
  · simp at h
  · rename_i htype
    obtain ⟨i, hi, heq⟩ := Option.map_eq_some_iff.mp h
    obtain ⟨rfl, rfl⟩ := Prod.mk.inj heq
    obtain ⟨haddr, hpos, hle⟩ := parseAddr_eq_some hi
    exact ⟨not_not.mp htype, haddr, hpos, hle, rfl⟩

theorem FastConflict.Inv.rowOf (h : fc.Inv)
    (htype : item.type = .conflictData) (haddr : item.blockId = ⟨fc.fileId, index⟩)
    (hpos : 0 < index) (hle : index ≤ fc.count) :
    fc.rowOf item = some (index, fc.data index) := by
  unfold FastConflict.rowOf
  rw [if_neg (by simp [htype]), haddr, h.parseAddr hpos hle]
  rfl

namespace Db

variable {db db' : Db} {conflicts : Conflicts}

/-- The state after the row, the conflict databases and the count of a slot were written. -/
abbrev withConflict (db : Db) (s : Slot) (index : Nat) (row : List BucketDataItem)
    (conflicts : Conflicts) (item : BucketDataItem) : Db :=
  ({ db.setFastConflict s.bucket ((db.fastConflicts s.bucket).setData index row) with
      conflicts } : Db).setBucket s item

theorem withConflict_buckets_self (db : Db) (s : Slot) (index : Nat) (row : List BucketDataItem)
    (conflicts : Conflicts) :
    db.withConflict s index row conflicts (db.buckets s) =
      { db.setFastConflict s.bucket ((db.fastConflicts s.bucket).setData index row) with
        conflicts } := by
  simp [withConflict, setBucket, setFastConflict]

section

variable (h : db.IndexInv dir) (hslot : db.ConflictInv dir s index row spill)
  (hdir : ∀ k, slotOf k ≠ s → dir' k = dir k)
  (hlookup : ∀ k, slotOf k ≠ s → conflicts.lookup k = db.conflicts.lookup k)
  (haddr : item.blockId = (db.buckets s).blockId)
include h hslot hdir hlookup haddr

theorem IndexInv.withConflict (hinv : (db.withConflict s index row' conflicts item).SlotInv dir' s) :
    (db.withConflict s index row' conflicts item).IndexInv dir' := by
  obtain ⟨hconflict, hblock, -⟩ := FastConflict.rowOf_eq_some hslot.rowOf
  have hid : (db.buckets s).blockId.dataId = index := by rw [hblock]
  refine h.step ⟨fun s' hne => setBucket_buckets_of_ne hne _, fun s' hne ht => ?_, hdir, hlookup⟩
    (fun c => ?_) hinv fun s' hne _ ht hbucket => ?_
  · change ((db.setFastConflict s.bucket _).fastConflicts s'.bucket).rowOf _ = _
    by_cases hbucket : s'.bucket = s.bucket
    · rw [hbucket, setFastConflict_fastConflicts_self]
      refine FastConflict.rowOf_setData_of_ne (fun heq => hne ?_) _
      exact h.rows s' s ht hconflict hbucket (heq.trans hid.symm)
    · rw [setFastConflict_fastConflicts_of_ne hbucket]
  · change ((db.setFastConflict s.bucket _).fastConflicts c).Inv ∧
      ((db.setFastConflict s.bucket _).fastConflicts c).fileId = c
    by_cases hc : c = s.bucket
    · subst hc
      rw [setFastConflict_fastConflicts_self]
      exact ⟨(h.fast s.bucket).1.setData index row', (h.fast s.bucket).2⟩
    · rw [setFastConflict_fastConflicts_of_ne hc]
      exact h.fast c
  · rw [setBucket_buckets_self, haddr]
    exact fun heq => hne (h.rows s' s ht hconflict hbucket heq)

theorem IndexInv.setConflict (over' : List InnerKey) (hrow : RowInv dir' s row' over' conflicts.lookup)
    (htype : item.type = .conflictData)
    (hcount : item.version = FastConflict.validConflictCount row' + over'.length)
    (hpos : 0 < item.version) (hlt : item.version < 64) :
    (db.withConflict s index row' conflicts item).IndexInv dir' := by
  obtain ⟨-, hblock, hindex, hle, -⟩ := FastConflict.rowOf_eq_some hslot.rowOf
  refine h.withConflict hslot hdir hlookup haddr ?_
  unfold SlotInv
  simp only [setBucket_buckets_self, htype]
  refine ⟨index, row', over', ?_, hrow, ?_, ?_, ?_⟩ <;> rw [setBucket_buckets_self]
  · change ((db.setFastConflict s.bucket _).fastConflicts s.bucket).rowOf _ = _
    rw [setFastConflict_fastConflicts_self, ((h.fast s.bucket).1.setData index row').rowOf htype
      (haddr.trans hblock) hindex hle, FastConflict.setData_data_self]
  · exact hcount
  · exact hpos
  · exact hlt

end

end Db

/-! ### A new row -/

theorem RowInv.pair {dir : Directory} {s : Slot} {lookup : InnerKey → Option BucketDataItem}
    {k₁ k₂ : InnerKey} {item₁ item₂ : BucketDataItem} (n : Nat) (hk₁ : slotOf k₁ = s)
    (hk₂ : slotOf k₂ = s) (h₁ : Leads dir k₁ item₁) (h₂ : Leads dir k₂ item₂)
    (hne : item₁.blockId.dataId ≠ item₂.blockId.dataId) (hpos : item₂.blockId.dataId ≠ 0)
    (hlookup : ∀ k, slotOf k = s → lookup k = none)
    (hothers : ∀ k, slotOf k = s → k ≠ k₁ → k ≠ k₂ → dir k = none) :
    RowInv dir s (item₁ :: item₂ :: List.replicate n .reset) [] lookup := by
  have hreset {item : BucketDataItem} (h : item ∈ List.replicate n BucketDataItem.reset) :
      item.blockId.dataId = 0 := by
    rw [List.eq_of_mem_replicate h]
    rfl
  refine ⟨fun item hitem hid => ?_, ?_, List.nodup_nil, by simp, fun k hk _ => hlookup k hk,
    fun k e hk he => .inr ?_⟩
  · rcases List.mem_cons.mp hitem with rfl | hitem
    · exact ⟨k₁, hk₁, by simp, h₁⟩
    · rcases List.mem_cons.mp hitem with rfl | hitem
      · exact ⟨k₂, hk₂, by simp, h₂⟩
      · exact absurd (hreset hitem) hid
  · refine List.pairwise_cons.mpr ⟨fun item hitem hid => ?_, List.pairwise_cons.mpr
      ⟨fun item hitem _ => ?_, List.pairwise_replicate.mpr (.inr (by simp [BucketDataItem.reset]))⟩⟩
    · rcases List.mem_cons.mp hitem with rfl | hitem
      · exact hne
      · rw [hreset hitem]
        exact hid
    · rw [hreset hitem]
      exact hpos
  · by_cases heq₁ : k = k₁
    · subst heq₁
      exact ⟨item₁, by simp, by rw [Option.some.inj (he.symm.trans h₁.entry)]⟩
    · by_cases heq₂ : k = k₂
      · subst heq₂
        exact ⟨item₂, by simp, by rw [Option.some.inj (he.symm.trans h₂.entry)]⟩
      · rw [hothers k hk heq₁ heq₂] at he
        cases he

structure FastConflict.Grown (fc : FastConflict) (row : List BucketDataItem) (fc' : FastConflict) : Prop where
  inv : fc'.Inv
  fileId : fc'.fileId = fc.fileId
  count : fc'.count = fc.count + 1
  row_eq : fc'.data (fc.count + 1) = row
  rows_eq : ∀ i, i ≤ fc.count → fc'.data i = fc.data i

theorem FastConflict.Grown.rowOf {fc fc' : FastConflict} {row row' : List BucketDataItem} (h : fc.Grown row fc')
    (hrow : fc.rowOf item = some (index, row')) : fc'.rowOf item = some (index, row') := by
  obtain ⟨htype, haddr, hpos, hle, rfl⟩ := rowOf_eq_some hrow
  have hcount := h.count
  rw [h.inv.rowOf htype (haddr.trans (by rw [h.fileId])) hpos (by omega), h.rows_eq index hle]

namespace Db

variable {db db' : Db}

theorem IndexInv.grow (h : db.IndexInv dir) {c : UInt8} (hgrown : (db.fastConflicts c).Grown row fc) :
    (db.setFastConflict c fc).IndexInv dir := by
  refine ⟨fun d => ?_, fun s => (h.slots s).congr rfl (fun _ r hr => ?_) (fun _ _ => rfl) (fun _ _ => rfl), h.rows⟩
  · by_cases hd : d = c
    · subst hd
      rw [setFastConflict_fastConflicts_self]
      exact ⟨hgrown.inv, hgrown.fileId.trans (h.fast d).2⟩
    · rw [setFastConflict_fastConflicts_of_ne hd]
      exact h.fast d
  · by_cases hc : s.bucket = c
    · subst hc
      rw [setFastConflict_fastConflicts_self]
      exact hgrown.rowOf hr
    · rw [setFastConflict_fastConflicts_of_ne hc]
      exact hr

theorem IndexInv.setRow (h : db.IndexInv dir) (hgrown : (db.fastConflicts s.bucket).Grown row fc)
    (hdir : ∀ k, slotOf k ≠ s → dir' k = dir k) (hrow : RowInv dir' s row [] db.conflicts.lookup)
    (htype : item.type = .conflictData)
    (haddr : item.blockId = ⟨s.bucket, (db.fastConflicts s.bucket).count + 1⟩)
    (hcount : item.version = FastConflict.validConflictCount row) (hpos : 0 < item.version)
    (hlt : item.version < 64) : ((db.setFastConflict s.bucket fc).setBucket s item).IndexInv dir' := by
  have hinv := h.grow hgrown
  refine hinv.step ⟨fun s' hne => setBucket_buckets_of_ne hne _, fun _ _ _ => rfl, hdir,
    fun _ _ => rfl⟩ hinv.fast ?_ fun s' hne _ ht hbucket => ?_
  · unfold SlotInv
    rw [setBucket_buckets_self]
    simp only [htype]
    refine ⟨(db.fastConflicts s.bucket).count + 1, row, [], ?_, hrow, ?_, ?_, ?_⟩ <;> rw [setBucket_buckets_self]
    · change ((db.setFastConflict s.bucket fc).fastConflicts s.bucket).rowOf _ = _
      rw [setFastConflict_fastConflicts_self, hgrown.inv.rowOf htype
        (haddr.trans (by rw [hgrown.fileId, (h.fast s.bucket).2])) (Nat.succ_pos _)
        hgrown.count.ge, hgrown.row_eq]
    · exact hcount
    · exact hpos
    · exact hlt
  · -- All other rows of the file were there before.
    rw [setBucket_buckets_self, haddr]
    obtain ⟨index, row', spill, hslot⟩ := h.of_conflictData (s := s') ht
    obtain ⟨-, haddr', -, hle, -⟩ := FastConflict.rowOf_eq_some hslot.rowOf
    rw [hbucket] at hle
    change (db.buckets s').blockId.dataId ≠ _
    rw [haddr']
    exact (Nat.lt_succ_of_le hle).ne

end Db

end HustStore.Md5db
