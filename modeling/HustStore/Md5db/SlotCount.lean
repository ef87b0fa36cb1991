import Mathlib.Data.Finset.Card
import HustStore.Md5db.Refinement

/-!
# The keys of a slot

The type of a slot says whether it has no key, one key, or a row of keys, and the version field of a slot with a
row counts them.
-/

namespace HustStore.Md5db

/-! ### Live keys -/

namespace Call

variable (md5 : Bytes → InnerKey)

def innerKey (c : Call) : InnerKey := Db.innerKeyOf md5 c.query c.userKey

def observe (s : Db × Finset InnerKey) (c : Call) : Db × Finset InnerKey :=
  let db := c.step md5 s.1
  (db, if (db.locate (c.innerKey md5)).isOk then insert (c.innerKey md5) s.2
    else s.2.erase (c.innerKey md5))

theorem observe_fst (s : Db × Finset InnerKey) (c : Call) : (c.observe md5 s).1 = c.step md5 s.1 :=
  rfl

/-- The set of live keys agrees with the reply: a put that succeeds leaves its key live, and a
deletion that succeeds, and was not refused for its version, does not. -/
def ReplyAgrees (db : Db) (live : Finset InnerKey) : Call → Prop
  | .put q userKey val version isDup => (db.put md5 q userKey val version isDup).1.r = .ok →
      Db.innerKeyOf md5 q userKey ∈ live
  | .del q userKey version isDup =>
    (db.del md5 q userKey version isDup).1.r = .ok →
    (∀ ctxt ∈ (db.del md5 q userKey version isDup).1.ctxt, ctxt.isVersionError = false) →
    Db.innerKeyOf md5 q userKey ∉ live
  | .get _ _ | .exists_ _ _ => True

def TakesLast (db : Db) (s : Slot) : Call → Prop
  | .del q userKey version isDup =>
    Db.checkUserKey userKey = true ∧ version ≤ bucketDataMaxVersion ∧
    slotOf (Db.innerKeyOf md5 q userKey) = s ∧ (db.buckets s).type = .conflictData ∧
    (db.buckets s).getConflictCount = 1 ∧
    ∃ found, db.locate (Db.innerKeyOf md5 q userKey) = .ok found ∧ Db.Accepts version isDup found.2
  | .put _ _ _ _ _ | .get _ _ | .exists_ _ _ => False

end Call

def keysIn (live : Finset InnerKey) (s : Slot) : Finset InnerKey :=
  live.filter fun k => slotOf k = s

@[simp] theorem mem_keysIn {live : Finset InnerKey} {s : Slot} {k : InnerKey} :
    k ∈ keysIn live s ↔ k ∈ live ∧ slotOf k = s := Finset.mem_filter

theorem RowInv.card_items {dir : Directory} {s : Slot} {row : List BucketDataItem}
    {spill : List InnerKey} {lookup : InnerKey → Option BucketDataItem}
    (h : RowInv dir s row spill lookup) :
    ((row.filter fun item => item.blockId.dataId ≠ 0).map
      fun item => item.blockId.dataId).toFinset.card = FastConflict.validConflictCount row := by
  rw [List.toFinset_card_of_nodup, List.length_map, FastConflict.validConflictCount, List.countP_eq_length_filter]
  refine List.pairwise_map.mpr (List.Pairwise.imp_of_mem (fun ha _ hne => ?_) (h.distinct.filter _))
  exact hne (by simpa using (List.mem_filter.mp ha).2)

structure SlotExact (db : Db) (live : Finset InnerKey) (s : Slot) : Prop where
  noData : (db.buckets s).type = .noData ↔ keysIn live s = ∅
  directData : (db.buckets s).type = .directData → (keysIn live s).card = 1
  count : (db.buckets s).type = .conflictData → (db.buckets s).getConflictCount = (keysIn live s).card
  items : (db.buckets s).type = .conflictData → ∃ index row,
    (db.fastConflicts s.bucket).rowOf (db.buckets s) = some (index, row) ∧
    (keysIn live s).card = FastConflict.validConflictCount row +
      ((keysIn live s).filter fun k => db.conflicts.lookup k ≠ none).card

namespace Db

variable {db db' : Db} {dir dir' : Directory} {live live' : Finset InnerKey} {s : Slot}
  {k : InnerKey} {md5 : Bytes → InnerKey} {c : Call}

/-- The live keys are those of the directory of the store. -/
structure Tracked (db : Db) (dir : Directory) (live : Finset InnerKey) : Prop where
  run : db.RunInv dir
  mem_iff : ∀ k, k ∈ live ↔ dir k ≠ none

theorem Inv.isOk_locate (h : db.Inv dir) (k : InnerKey) : (db.locate k).isOk ↔ dir k ≠ none := by
  rw [h.locate k]
  cases dir k <;> simp [Except.isOk, Except.toBool]

/-! #### Counting a row -/

section Row

variable {index : Nat} {row : List BucketDataItem} {spill : List InnerKey}

theorem ConflictInv.lookup_ne_none_iff (h : db.ConflictInv dir s index row spill)
    (hk : slotOf k = s) : db.conflicts.lookup k ≠ none ↔ k ∈ spill := by
  constructor
  · intro hlookup
    by_contra hnot
    exact hlookup (h.rowInv.lookup_none k hk hnot)
  · intro hmem
    obtain ⟨-, item, hlookup, -⟩ := h.rowInv.over_lookup k hmem
    simp [hlookup]

theorem ConflictInv.card_spill (h : db.ConflictInv dir s index row spill) (hlive : ∀ k, k ∈ live ↔ dir k ≠ none) :
    ((keysIn live s).filter fun k => db.conflicts.lookup k ≠ none).card = spill.length := by
  have hset : ((keysIn live s).filter fun k => db.conflicts.lookup k ≠ none) = spill.toFinset := by
    ext k
    simp only [Finset.mem_filter, mem_keysIn, List.mem_toFinset]
    constructor
    · rintro ⟨⟨-, hk⟩, hlookup⟩
      exact (h.lookup_ne_none_iff hk).mp hlookup
    · intro hmem
      obtain ⟨hk, item, hlookup, hleads⟩ := h.rowInv.over_lookup k hmem
      exact ⟨⟨(hlive k).mpr (by simp [hleads.entry]), hk⟩, by simp [hlookup]⟩
  rw [hset, List.toFinset_card_of_nodup h.rowInv.over_nodup]

section

variable (h : db.Inv dir) (hslot : db.ConflictInv dir s index row spill) (hlive : ∀ k, k ∈ live ↔ dir k ≠ none)
include h hslot hlive

theorem Inv.card_row : ((keysIn live s).filter fun k => ¬ db.conflicts.lookup k ≠ none).card =
      FastConflict.validConflictCount row := by
  -- Each of them has a record of its own, and the items of the row lead to exactly these.
  let record (k : InnerKey) : Nat := ((dir k).map Entry.dataId).getD 0
  have hmem {k : InnerKey} (hk : k ∈ (keysIn live s).filter fun k => ¬ db.conflicts.lookup k ≠ none) :
      ∃ e, dir k = some e ∧ slotOf k = s ∧ k ∉ spill := by
    obtain ⟨hk, hlookup⟩ := Finset.mem_filter.mp hk
    obtain ⟨hk, hslot'⟩ := mem_keysIn.mp hk
    obtain ⟨e, he⟩ := Option.ne_none_iff_exists'.mp ((hlive k).mp hk)
    exact ⟨e, he, hslot', mt (hslot.lookup_ne_none_iff hslot').mpr hlookup⟩
  have hinj : Set.InjOn record
      ((keysIn live s).filter fun k => ¬ db.conflicts.lookup k ≠ none : Finset InnerKey) := by
    intro k hk k' hk' heq
    obtain ⟨e, he, hs, -⟩ := hmem hk
    obtain ⟨e', he', hs', -⟩ := hmem hk'
    have hid : e.dataId = e'.dataId := by simpa [record, he, he'] using heq
    exact h.eq_of_dataId (hs.trans hs'.symm) he he' hid
  have himage : ((keysIn live s).filter fun k => ¬ db.conflicts.lookup k ≠ none).image record =
      ((row.filter fun item => item.blockId.dataId ≠ 0).map fun item => item.blockId.dataId).toFinset := by
    ext id
    simp only [Finset.mem_image, List.mem_toFinset, List.mem_map, List.mem_filter, decide_eq_true_eq]
    constructor
    · rintro ⟨k, hk, rfl⟩
      obtain ⟨e, he, hs, hnot⟩ := hmem hk
      obtain ⟨item, hitem, hid⟩ := (hslot.rowInv.complete k e hs he).resolve_left hnot
      exact ⟨item, ⟨hitem, hid ▸ h.dataId_ne he⟩, by simp [record, he, hid]⟩
    · rintro ⟨item, ⟨hitem, hzero⟩, rfl⟩
      obtain ⟨k, hk, hnot, hleads⟩ := hslot.rowInv.items item hitem hzero
      have hlookup := mt (hslot.lookup_ne_none_iff hk).mp hnot
      refine ⟨k, Finset.mem_filter.mpr ⟨mem_keysIn.mpr ⟨(hlive k).mpr ?_, hk⟩, hlookup⟩, ?_⟩
      · simp [hleads.entry]
      · simp [record, hleads.entry]
  rw [← Finset.card_image_of_injOn hinj, himage, hslot.rowInv.card_items]

theorem Inv.card_conflict : (keysIn live s).card = FastConflict.validConflictCount row +
      ((keysIn live s).filter fun k => db.conflicts.lookup k ≠ none).card := by
  rw [← h.card_row hslot hlive, Nat.add_comm]
  exact (Finset.card_filter_add_card_filter_not _).symm

end

end Row

theorem Inv.count_eq_card (h : db.Inv dir) (hlive : ∀ k, k ∈ live ↔ dir k ≠ none)
    (htype : (db.buckets s).type = .conflictData) :
    (db.buckets s).version = (keysIn live s).card := by
  obtain ⟨index, row, spill, hslot⟩ := h.index.of_conflictData htype
  rw [h.card_conflict hslot hlive, hslot.card_spill hlive]
  exact hslot.count

theorem Tracked.rows (h : db.Tracked dir live) (htype : (db.buckets s).type = .conflictData) :
    (keysIn live s).Nonempty := by
  obtain ⟨index, row, spill, hslot⟩ := h.run.inv.index.of_conflictData htype
  refine Finset.card_pos.mp ?_
  rw [← h.run.inv.count_eq_card h.mem_iff htype]
  exact hslot.count_pos

theorem Tracked.exact (h : db.Tracked dir live) (s : Slot) : SlotExact db live s := by
  have hnone : (db.buckets s).type = .noData → keysIn live s = ∅ := by
    intro htype
    refine Finset.eq_empty_of_forall_notMem fun k hk => ?_
    obtain ⟨hk, hslot⟩ := mem_keysIn.mp hk
    exact (h.mem_iff k).mp hk (h.run.inv.index.of_noData htype hslot).1
  have hone : (db.buckets s).type = .directData → (keysIn live s).card = 1 := by
    intro htype
    obtain ⟨-, k, hk, hleads, hothers⟩ := h.run.inv.index.of_directData htype
    refine Finset.card_eq_one.mpr ⟨k, Finset.eq_singleton_iff_unique_mem.mpr ⟨?_, fun k' hk' => ?_⟩⟩
    · exact mem_keysIn.mpr ⟨(h.mem_iff k).mpr (by simp [hleads.entry]), hk⟩
    · obtain ⟨hk', hslot⟩ := mem_keysIn.mp hk'
      by_contra hne
      exact (h.mem_iff k').mp hk' (hothers k' hslot hne)
  refine ⟨⟨hnone, fun hempty => ?_⟩, hone, fun htype => ?_, fun htype => ?_⟩
  · cases htype : (db.buckets s).type with
    | noData => rfl
    | directData => simp [hempty] at hone; exact absurd htype hone
    | conflictData => exact absurd hempty (h.rows htype).ne_empty
  · exact h.run.inv.count_eq_card h.mem_iff htype
  · obtain ⟨index, row, spill, hslot⟩ := h.run.inv.index.of_conflictData htype
    exact ⟨index, row, hslot.rowOf, h.run.inv.card_conflict hslot h.mem_iff⟩

/-! #### One call -/

theorem Inv.view_eq_none (h : db.Inv dir) : db.view dir k = none ↔ dir k = none := by
  refine ⟨fun hview => ?_, view_none⟩
  by_contra hne
  obtain ⟨e, he⟩ := Option.ne_none_iff_exists'.mp hne
  obtain ⟨bytes, -, -, hsome⟩ := h.view_isSome he
  simp [hview] at hsome

section OneCall

variable {q : Query} {userKey val : Bytes} {version : Nat} {isDup : Bool}

theorem Inv.put_found (h : db.Inv dir) (hplace : db.HasPlace (innerKeyOf md5 q userKey))
    (hk : dir (innerKeyOf md5 q userKey) ≠ none ∨ (db.put md5 q userKey val version isDup).1.r = .ok) :
    ((db.put md5 q userKey val version isDup).2.locate (innerKeyOf md5 q userKey)).isOk := by
  by_cases hargs : PutArgs userKey val version isDup
  swap
  · rw [put_of_invalid md5 db q hargs] at hk ⊢
    exact (h.isOk_locate _).mpr (hk.resolve_right (by simp))
  obtain ⟨r, reported, ctxt, db', dir', houtcome, hput⟩ := h.put md5 hargs hplace
  rw [hput] at hk ⊢
  refine ((houtcome.inv h).isOk_locate _).mpr ?_
  cases houtcome with
  | failed habsent hflag _ _ =>
    have hversion : ctxt.isVersionError = false := hflag
    simp [habsent, hversion] at hk
  | refused hpresent _ _ _ => simp [hpresent]
  | inserted hins _ _ _ _ => simp [hins.entry]
  | updated _ _ _ _ _ => simp

theorem RunInv.del_found (h : db.RunInv dir) (hroom : db.contents.Room)
    (htable : q.table.length + 5 ≤ leveldbKeyMax) {e : Entry}
    (hk : dir (innerKeyOf md5 q userKey) = some e) :
    ((db.del md5 q userKey version isDup).2.locate (innerKeyOf md5 q userKey)).isOk ↔
      ¬ (checkUserKey userKey = true ∧ version ≤ bucketDataMaxVersion ∧
        Accepts version isDup e.version) := by
  by_cases hargs : checkUserKey userKey = true ∧ version ≤ bucketDataMaxVersion
  swap
  · rw [del_of_invalid md5 db q hargs]
    exact iff_of_true ((h.inv.isOk_locate _).mpr (by simp [hk])) fun hall => hargs ⟨hall.1, hall.2.1⟩
  obtain ⟨r, reported, ctxt, db', dir', houtcome, hdel⟩ :=
    h.inv.del md5 hargs.1 hargs.2 isDup hroom (h.listable htable _)
  rw [hdel]
  refine ((houtcome.inv h.inv).isOk_locate _).trans ?_
  cases houtcome with
  | absent habsent => simp [hk] at habsent
  | refused hpresent hrefuse _ _ _ _ =>
    obtain rfl := Option.some.inj (hk.symm.trans hpresent)
    simp [hk, hrefuse]
  | removed haccept hremoved _ _ =>
    obtain rfl := Option.some.inj (hk.symm.trans hremoved.present)
    simp [hargs, haccept]

theorem RunInv.del_ok (h : db.RunInv dir) (hroom : db.contents.Room) (htable : q.table.length + 5 ≤ leveldbKeyMax)
    (hok : (db.del md5 q userKey version isDup).1.r = .ok)
    (hflag : ∀ ctxt ∈ (db.del md5 q userKey version isDup).1.ctxt, ctxt.isVersionError = false) :
    ¬ ((db.del md5 q userKey version isDup).2.locate (innerKeyOf md5 q userKey)).isOk := by
  by_cases hargs : checkUserKey userKey = true ∧ version ≤ bucketDataMaxVersion
  swap
  · simp [del_of_invalid md5 db q hargs] at hok
  obtain ⟨r, reported, ctxt, db', dir', houtcome, hdel⟩ :=
    h.inv.del md5 hargs.1 hargs.2 isDup hroom (h.listable htable _)
  rw [hdel] at hok hflag ⊢
  rw [(houtcome.inv h.inv).isOk_locate]
  cases houtcome with
  | absent _ => cases hok
  | refused _ _ hversion _ _ _ =>
    have hno : ctxt.isVersionError = false := hflag ctxt rfl
    rw [hversion] at hno
    cases hno
  | removed _ _ _ _ => simp

end OneCall

theorem mem_observe_of_ne (hne : k ≠ c.innerKey md5) : k ∈ (c.observe md5 (db, live)).2 ↔ k ∈ live := by
  simp only [Call.observe]
  split <;> simp [hne]

theorem innerKey_mem_observe : c.innerKey md5 ∈ (c.observe md5 (db, live)).2 ↔
      ((c.step md5 db).locate (c.innerKey md5)).isOk := by
  simp only [Call.observe]
  split <;> simp [*]

section

variable (h : db.Tracked dir live) (hplaced : c.Placed md5 db)
include h hplaced

theorem Tracked.step : ∃ dir', (c.observe md5 (db, live)).1.Tracked dir' (c.observe md5 (db, live)).2 := by
  obtain ⟨dir', hrun, -, hview⟩ := h.run.step hplaced
  have hlive : ∀ k, k ∈ (c.observe md5 (db, live)).2 ↔ dir' k ≠ none := by
    intro k
    by_cases hk : k = c.innerKey md5
    · rw [hk, innerKey_mem_observe, hrun.inv.isOk_locate]
    · have hnone : dir' k = none ↔ dir k = none := by
        rw [← hrun.inv.view_eq_none, ← h.run.inv.view_eq_none]
        rcases hview k hk with heq | heq <;> simp [heq]
      rw [mem_observe_of_ne hk, h.mem_iff, ne_eq, ne_eq, hnone]
  exact ⟨dir', hrun, hlive⟩

theorem Tracked.replyAgrees :
    c.ReplyAgrees md5 db (c.observe md5 (db, live)).2 := by
  cases c with
  | put q userKey val version isDup =>
    exact fun hok => innerKey_mem_observe.mpr (h.run.inv.put_found hplaced (.inr hok))
  | del q userKey version isDup =>
    exact fun hok hflag => mt innerKey_mem_observe.mp (h.run.del_ok hplaced.1 hplaced.2 hok hflag)
  | get | exists_ => trivial

theorem Tracked.takesLast_iff (htype : (db.buckets s).type = .conflictData) :
    c.TakesLast md5 db s ↔ keysIn (c.observe md5 (db, live)).2 s = ∅ := by
  have hcount := h.run.inv.count_eq_card h.mem_iff htype
  constructor
  · intro hlast
    cases c with
    | put | get | exists_ => exact hlast.elim
    | del q userKey version isDup =>
      obtain ⟨huser, hver, hs, -, hone, found, hfound, haccept⟩ := hlast
      obtain ⟨e, he⟩ : ∃ e, dir (innerKeyOf md5 q userKey) = some e := by
        refine Option.ne_none_iff_exists'.mp ((h.run.inv.isOk_locate _).mp ?_)
        rw [hfound]
        rfl
      have hversion : found.2 = e.version := by
        have hlocate := h.run.inv.locate (innerKeyOf md5 q userKey)
        rw [hfound, he] at hlocate
        exact congrArg Prod.snd (Except.ok.inj hlocate)
      obtain ⟨k, hk⟩ := Finset.card_eq_one.mp (hcount.symm.trans hone)
      have hself : innerKeyOf md5 q userKey ∈ keysIn live s :=
        mem_keysIn.mpr ⟨(h.mem_iff _).mpr (by simp [he]), hs⟩
      refine Finset.eq_empty_of_forall_notMem fun k' hk' => ?_
      obtain ⟨hk', hs'⟩ := mem_keysIn.mp hk'
      by_cases heq : k' = innerKeyOf md5 q userKey
      · subst heq
        exact (h.run.del_found hplaced.1 hplaced.2 he).mp (innerKey_mem_observe.mp hk')
          ⟨huser, hver, hversion ▸ haccept⟩
      · have hmem : k' ∈ keysIn live s := mem_keysIn.mpr ⟨(mem_observe_of_ne heq).mp hk', hs'⟩
        rw [hk, Finset.mem_singleton] at hself hmem
        exact heq (hmem.trans hself.symm)
  · intro hempty
    -- The key that was there is the one the call names.
    have hown {k : InnerKey} (hk : k ∈ keysIn live s) : k = c.innerKey md5 ∧ k ∉ (c.observe md5 (db, live)).2 := by
      obtain ⟨hk, hs⟩ := mem_keysIn.mp hk
      have hnot : k ∉ (c.observe md5 (db, live)).2 := fun hmem =>
        Finset.notMem_empty k (hempty ▸ mem_keysIn.mpr ⟨hmem, hs⟩)
      refine ⟨?_, hnot⟩
      by_contra hne
      exact hnot ((mem_observe_of_ne hne).mpr hk)
    obtain ⟨k, hk⟩ := h.rows htype
    obtain ⟨rfl, hnot⟩ := hown hk
    obtain ⟨hmem, hs⟩ := mem_keysIn.mp hk
    obtain ⟨e, he⟩ := Option.ne_none_iff_exists'.mp ((h.mem_iff _).mp hmem)
    have hone : (keysIn live s).card = 1 := Finset.card_eq_one.mpr
      ⟨_, Finset.eq_singleton_iff_unique_mem.mpr ⟨hk, fun k' hk' => (hown hk').1⟩⟩
    rw [innerKey_mem_observe] at hnot
    cases c with
    | put q userKey val version isDup =>
      exact absurd (h.run.inv.put_found hplaced (.inl ((h.mem_iff _).mp hmem))) hnot
    | del q userKey version isDup =>
      have hlast := not_not.mp (mt (h.run.del_found hplaced.1 hplaced.2 he).mpr hnot)
      have hfound := h.run.inv.locate ((Call.del q userKey version isDup).innerKey md5)
      rw [he] at hfound
      exact ⟨hlast.1, hlast.2.1, hs, htype, hcount.trans hone, _, hfound, hlast.2.2⟩
    | get | exists_ => exact absurd ((h.run.inv.isOk_locate _).mpr ((h.mem_iff _).mp hmem)) hnot

end

end Db

/-! ### Runs -/

section Runs

variable {md5 : Bytes → InnerKey} {cfg : Config} {calls : List Call}

theorem tracked_run (hcfg : cfg.Valid)
    (hguard : Run.Guarded (Call.step md5) (Call.Placed md5) (Db.create cfg) calls) :
    let s := Run.exec (Call.observe md5) (Db.create cfg, ∅) calls
    ∃ dir, s.1.Tracked dir s.2 := by
  have hlift := Run.Guarded.lift (f := Prod.fst) (t := (Db.create cfg, (∅ : Finset InnerKey)))
    (Call.observe_fst md5) hguard
  refine hlift.invariant (P := fun s => ∃ dir, s.1.Tracked dir s.2) ?_ ?_
  · rintro ⟨db, live⟩ c ⟨dir, h⟩ hc
    exact h.step hc
  · exact ⟨_, Db.runInv_create hcfg, by simp⟩

/-- Along every run that finds room for its calls, the type of a slot and its count say exactly how
many live keys it has, so that a slot becomes empty when its last key is deleted. A call treats the
row of a slot as it should, giving it back exactly when the last key is gone, unless it deletes that
key: no row is ever given back. -/
theorem slots_count_live_keys (hcfg : cfg.Valid)
    (hguard : Run.Guarded (Call.step md5) (Call.Placed md5) (Db.create cfg) calls) (s : Slot) :
    let state := Run.exec (Call.observe md5) (Db.create cfg, ∅) calls
    SlotExact state.1 state.2 s ∧
    ∀ c : Call, c.Placed md5 state.1 →
      let next := c.observe md5 state
      c.ReplyAgrees md5 state.1 next.2 ∧ SlotExact next.1 next.2 s ∧
      ((state.1.buckets s).type = .conflictData →
        (((next.1.fastConflicts s.bucket).Released (state.1.buckets s).blockId ↔
          keysIn next.2 s = ∅) ↔ ¬ c.TakesLast md5 state.1 s)) := by
  intro state
  obtain ⟨dir, h⟩ : ∃ dir, state.1.Tracked dir state.2 := tracked_run hcfg hguard
  refine ⟨h.exact s, fun c hplaced => ?_⟩
  intro next
  obtain ⟨dir', hnext⟩ : ∃ dir', next.1.Tracked dir' next.2 := h.step hplaced
  refine ⟨h.replyAgrees hplaced, hnext.exact s, fun htype => ?_⟩
  have hlast : c.TakesLast md5 state.1 s ↔ keysIn next.2 s = ∅ := h.takesLast_iff hplaced htype
  have hkept := (hnext.run.inv.index.fast s.bucket).1.not_released (state.1.buckets s).blockId
  rw [hlast, iff_false_left hkept]

theorem slots_count_live_keys_slotMates :
    Run.Guarded (Call.step Md5.md5) (Call.Placed Md5.md5) (Db.create ⟨4, 2, 1, 1⟩) (churn "++++-".toList 0) ∧
    let state := Run.exec (Call.observe Md5.md5) (Db.create ⟨4, 2, 1, 1⟩, ∅)
      (churn "++++-".toList 0)
    let slot := slotOf (Md5.md5 (slotMates.getD 0 []))
    (state.1.buckets slot).type = .conflictData ∧
    (state.1.buckets slot).getConflictCount = (keysIn state.2 slot).card := by
  have hguard : Run.Guarded (Call.step Md5.md5) (Call.Placed Md5.md5) (Db.create ⟨4, 2, 1, 1⟩)
      (churn "++++-".toList 0) := by decide +kernel
  have htype : ((Run.exec (Call.observe Md5.md5) (Db.create ⟨4, 2, 1, 1⟩, ∅)
      (churn "++++-".toList 0)).1.buckets (slotOf (Md5.md5 (slotMates.getD 0 [])))).type =
      .conflictData := by decide +kernel
  have h := slots_count_live_keys Config.valid_small hguard (slotOf (Md5.md5 (slotMates.getD 0 [])))
  exact ⟨hguard, htype, h.1.count htype⟩

/-- Sixty-four puts leave a slot that counts eighty keys. Two puts and two deletions leave an empty
slot, and the row that it had is not on the free list. -/
theorem count_skips_and_row_is_kept :
    let slot := slotOf (Md5.md5 (slotMates.getD 0 []))
    let full := Run.exec (Call.observe Md5.md5) (Db.create ⟨4, 2, 1, 1⟩, ∅)
      (churn (List.replicate 64 '+') 0)
    let last := Run.exec (Call.observe Md5.md5) (Db.create ⟨4, 2, 1, 1⟩, ∅)
      (churn "++-".toList 0)
    let gone := Run.exec (Call.observe Md5.md5) (Db.create ⟨4, 2, 1, 1⟩, ∅)
      (churn "++--".toList 0)
    ((full.1.buckets slot).type = .conflictData ∧ (full.1.buckets slot).getConflictCount = 80 ∧
      (keysIn full.2 slot).card = 64) ∧
    (last.1.buckets slot).type = .conflictData ∧ (gone.1.buckets slot).type = .noData ∧
    keysIn gone.2 slot = ∅ ∧
    ¬ (gone.1.fastConflicts slot.bucket).Released (last.1.buckets slot).blockId := by
  decide +kernel

end Runs

end HustStore.Md5db
