import HustStore.Lib.Run
import HustStore.Md5db.Fullkey
import Mathlib.Data.Finset.Basic

/-!
# The records of a fullkey file

A record is allocated or on the free list, and never both, as long as only allocated records are deleted. `del` does
not look whether a record is free already: deleting it twice links it to itself.
-/

namespace HustStore.Md5db

open Intrusive (Chain)

namespace Fullkey

/-- `fullkey_t::open` of a file that is there: its size is checked, and the mapping shows what was written. -/
def reopen (fk : Fullkey) : Option Fullkey := if fk.capacity < fullkeyDefaultItemCount then none else some fk

/-- The free list ends, and the free and the allocated records are apart and are all records. -/
structure Slots (fk : Fullkey) (live : Finset Nat) : Prop where
  parts : ∃ free : List Nat, Chain (fun i => (fk.data i).link) 0 fk.freeListId free ∧ free.Nodup ∧
    (∀ i ∈ free, i ∉ live) ∧ ∀ i, i ∈ free ∨ i ∈ live ↔ 0 < i ∧ i ≤ fk.count
  count_le : fk.count ≤ fk.capacity
  capacity_lt : fk.capacity < fullkeyItemMaxPerFile
  opens : fk.reopen = some fk

end Fullkey

inductive FullkeyCall
  | write (innerKey : InnerKey)
  | del (blockId : BlockId)
  | setContentId (blockId : BlockId) (contentId : ContentId)
  | reopen

/-- A file and the records that were allocated and not deleted since. -/
structure FullkeyUse where
  fk : Fullkey
  live : Finset Nat

namespace FullkeyUse

def start (fileId : UInt8) : FullkeyUse := ⟨.create fileId, ∅⟩

def step (u : FullkeyUse) : FullkeyCall → FullkeyUse
  | .write innerKey => match u.fk.write innerKey with
    | (some blockId, fk) => ⟨fk, insert blockId.dataId u.live⟩
    | (none, fk) => { u with fk }
  | .del blockId => match u.fk.del blockId with
    | (true, fk) => ⟨fk, u.live.erase blockId.dataId⟩
    | (false, fk) => { u with fk }
  | .setContentId blockId contentId => { u with fk := (u.fk.setContentId blockId contentId).2 }
  | .reopen => { u with fk := u.fk.reopen.getD u.fk }

/-- A record that is deleted is allocated, unless the block id is refused. -/
def Frees (u : FullkeyUse) : FullkeyCall → Prop
  | .del blockId => (u.fk.parseBlockId blockId).isSome → blockId.dataId ∈ u.live
  | .write _ | .setContentId _ _ | .reopen => True

/-- The call is for this record. -/
def Names (i : Nat) : FullkeyCall → Prop
  | .del blockId | .setContentId blockId _ => blockId.dataId = i
  | .write _ | .reopen => False

end FullkeyUse

namespace Fullkey

variable {fk fk' : Fullkey} {live : Finset Nat} {item i : Nat} {blockId : BlockId}

theorem Slots.inv (h : fk.Slots live) : fk.Inv live where
  free := by
    obtain ⟨free, hchain, hnodup, hapart, hall⟩ := h.parts
    exact ⟨free, hchain, hnodup, fun i hi => ⟨((hall i).mp (Or.inl hi)).1, ((hall i).mp (Or.inl hi)).2, hapart i hi⟩⟩
  live_le i hi := by
    obtain ⟨free, -, -, -, hall⟩ := h.parts
    exact (hall i).mp (Or.inr hi)
  count_le := h.count_le
  capacity_lt := h.capacity_lt

theorem reopen_eq_some (h : fullkeyDefaultItemCount ≤ fk.capacity) : fk.reopen = some fk := if_neg (Nat.not_lt.mpr h)

theorem Slots.capacity_ge (h : fk.Slots live) : fullkeyDefaultItemCount ≤ fk.capacity := by
  have := h.opens
  unfold reopen at this
  split_ifs at this with hsmall
  exact Nat.not_lt.mp hsmall

theorem slots_create (fileId : UInt8) : (create fileId).Slots ∅ where
  parts := ⟨[], rfl, List.nodup_nil, by simp, fun i => by simp [create]; omega⟩
  count_le := Nat.zero_le _
  capacity_lt := (inv_create fileId).capacity_lt
  opens := reopen_eq_some le_rfl

theorem parseBlockId_eq_some (h : fk.parseBlockId blockId = some i) :
    i = blockId.dataId ∧ 0 < i ∧ i ≤ fk.count ∧ blockId = ⟨fk.fileId, i⟩ := by
  unfold parseBlockId at h
  simp only at h
  split_ifs at h with h0 h1 h2
  obtain rfl := Option.some.inj h
  simp only [not_or, ne_eq, not_not] at h1 h2
  exact ⟨rfl, Nat.pos_of_ne_zero h0, Nat.not_lt.mp h2.2, by rw [← h1.1]⟩

theorem appendItem_frame (h : fk.appendItem = some (item, fk')) : item = fk.count + 1 ∧ fk'.count = fk.count + 1 ∧
    fk.capacity ≤ fk'.capacity ∧ fk'.data = fk.data ∧ fk'.freeListId = fk.freeListId := by
  unfold appendItem at h
  simp only at h
  split_ifs at h
  all_goals
    obtain ⟨rfl, rfl⟩ := Prod.mk.inj (Option.some.inj h)
    simp

theorem Slots.allocItem (h : fk.Slots live) (halloc : fk.allocItem = some (item, fk')) :
    fk'.Slots (insert item live) := by
  have hspec := h.inv.allocItem halloc
  obtain ⟨free, hchain, hnodup, hapart, hall⟩ := h.parts
  have hcapacity := h.capacity_ge
  unfold Fullkey.allocItem at halloc
  split_ifs at halloc with hfirst
  · obtain ⟨rest, rfl, hrest⟩ := hchain.exists_cons hfirst.1
    obtain ⟨hnot, hnodup⟩ := List.nodup_cons.mp hnodup
    have hnext : ¬ (fk.data fk.freeListId).link > fk.count := by
      rcases hrest.head_mem with hend | hmem
      · simp [hend]
      · exact Nat.not_lt.mpr ((hall _).mp (Or.inl (List.mem_cons_of_mem _ hmem))).2
    simp only [if_neg hnext, Option.some.injEq, Prod.mk.injEq] at halloc
    obtain ⟨rfl, rfl⟩ := halloc
    refine ⟨⟨rest, hrest.congr fun j hj => ?_, hnodup, fun j hj => ?_, fun j => ?_⟩, h.count_le, h.capacity_lt,
      reopen_eq_some hcapacity⟩
    · have hne : j ≠ fk.freeListId := fun heq => hnot (heq ▸ hj)
      rw [setData_data_of_ne hne]
    · rw [Finset.mem_insert, not_or]
      exact ⟨fun heq => hnot (heq ▸ hj), hapart j (List.mem_cons_of_mem _ hj)⟩
    · rw [Finset.mem_insert, ← or_assoc, or_comm (a := j ∈ rest), ← List.mem_cons]
      exact hall j
  · obtain ⟨rfl, hcount, hgrown, hdata, hfree⟩ := appendItem_frame halloc
    refine ⟨⟨free, ?_, hnodup, fun j hj => ?_, fun j => ?_⟩, hspec.inv.count_le, hspec.inv.capacity_lt,
      reopen_eq_some (hcapacity.trans hgrown)⟩
    · rw [hdata, hfree]
      exact hchain
    · have := ((hall j).mp (Or.inl hj)).2
      rw [Finset.mem_insert, not_or]
      exact ⟨by omega, hapart j hj⟩
    · have := hall j
      rw [Finset.mem_insert, hcount, or_left_comm, this]
      omega

theorem Slots.setData (h : fk.Slots live) {d : FullkeyData} (hd : i ∈ live ∨ d.link = (fk.data i).link) :
    (fk.setData i d).Slots live := by
  obtain ⟨free, hchain, hnodup, hapart, hall⟩ := h.parts
  refine ⟨⟨free, hchain.congr fun j hj => ?_, hnodup, hapart, hall⟩, h.count_le, h.capacity_lt,
    reopen_eq_some h.capacity_ge⟩
  by_cases heq : j = i
  · rw [heq, setData_data_self, hd.resolve_left (heq ▸ hapart j hj)]
  · rw [setData_data_of_ne heq]

theorem Slots.write (h : fk.Slots live) {innerKey : InnerKey} (hwrite : fk.write innerKey = (some blockId, fk')) :
    blockId.dataId ∉ live ∧ fk'.Slots (insert blockId.dataId live) ∧ ∀ i ∈ live, fk'.data i = fk.data i := by
  unfold Fullkey.write at hwrite
  cases halloc : fk.allocItem with
  | none => simp [halloc] at hwrite
  | some result =>
    obtain ⟨item, fk₁⟩ := result
    have hspec := h.inv.allocItem halloc
    simp only [halloc] at hwrite
    split_ifs at hwrite
    · exact absurd (congrArg Prod.fst hwrite) (Option.some_ne_none _).symm
    simp only [Prod.mk.injEq, Option.some.injEq] at hwrite
    obtain ⟨rfl, rfl⟩ := hwrite
    rw [show item * fullkeyDataBytes / fullkeyDataBytes = item from Nat.mul_div_cancel _ (by decide)]
    refine ⟨hspec.fresh, (h.allocItem halloc).setData (Or.inl (Finset.mem_insert_self ..)), fun i hi => ?_⟩
    have hne : i ≠ item := fun heq => hspec.fresh (heq ▸ hi)
    rw [setData_data_of_ne hne, hspec.data_eq i hi]

theorem Slots.del (h : fk.Slots live) (hi : i ∈ live) : (fk.del ⟨fk.fileId, i⟩).2.Slots (live.erase i) := by
  rw [Fullkey.del, h.inv.parseBlockId hi]
  obtain ⟨free, hchain, hnodup, hapart, hall⟩ := h.parts
  have hnot : i ∉ free := fun hmem => hapart i hmem hi
  refine ⟨⟨i :: free, hchain.push (by simp [FullkeyData.link, FullkeyData.setLink]) fun j hj => ?_,
    List.nodup_cons.mpr ⟨hnot, hnodup⟩, fun j hj => ?_, fun j => ?_⟩, h.count_le, h.capacity_lt,
    reopen_eq_some h.capacity_ge⟩
  · have hne : j ≠ i := fun heq => hnot (heq ▸ hj)
    rw [setData_data_of_ne hne]
  · rw [Finset.mem_erase, not_and_or, not_not]
    exact (List.mem_cons.mp hj).imp_right (hapart j)
  · rw [List.mem_cons, Finset.mem_erase]
    refine Iff.trans ?_ (hall j)
    by_cases hj : j = i
    · simp [hj, hi]
    · simp [hj]

end Fullkey

namespace FullkeyUse

variable {u : FullkeyUse}

theorem slots_step (h : u.fk.Slots u.live) (call : FullkeyCall) (hfrees : u.Frees call) :
    (u.step call).fk.Slots (u.step call).live ∧
      ∀ i ∈ u.live, ¬ Names i call → (u.step call).fk.data i = u.fk.data i := by
  cases call with
  | write innerKey =>
    rcases hwrite : u.fk.write innerKey with ⟨result, fk⟩
    simp only [step, hwrite]
    cases result with
    | none =>
      rcases h.inv.write innerKey with ⟨-, hsame⟩ | ⟨item, hsome, -⟩
      · obtain rfl : fk = u.fk := by rw [← hsame, hwrite]
        exact ⟨h, fun _ _ _ => rfl⟩
      · simp [hwrite] at hsome
    | some blockId => exact ⟨(h.write hwrite).2.1, fun i hi _ => (h.write hwrite).2.2 i hi⟩
  | del blockId =>
    cases hparse : u.fk.parseBlockId blockId with
    | none =>
      simp only [step, Fullkey.del, hparse]
      exact ⟨h, fun _ _ _ => trivial⟩
    | some i =>
      obtain ⟨rfl, -, -, hid⟩ := Fullkey.parseBlockId_eq_some hparse
      have hlive : blockId.dataId ∈ u.live := hfrees (hparse ▸ rfl)
      have hdel := h.inv.del hlive
      rw [← hid] at hdel
      have hslots := h.del hlive
      rw [← hid] at hslots
      rcases hresult : u.fk.del blockId with ⟨done, fk⟩
      rw [hresult] at hdel hslots
      obtain rfl : done = true := hdel.1
      simp only [step, hresult]
      exact ⟨hslots, fun i _ hnames => hdel.2.2.1 i fun heq => hnames heq.symm⟩
  | setContentId blockId contentId =>
    simp only [step, Fullkey.setContentId]
    split
    · exact ⟨h, fun _ _ _ => rfl⟩
    · rename_i index hparse
      split
      · exact ⟨h, fun _ _ _ => rfl⟩
      · refine ⟨h.setData (Or.inr rfl), fun i _ hnames => Fullkey.setData_data_of_ne (fun heq => hnames ?_) _⟩
        exact (heq.trans (Fullkey.parseBlockId_eq_some hparse).1).symm
  | reopen =>
    simp only [step, h.opens]
    exact ⟨h, fun _ _ _ => rfl⟩

/-- In every run that deletes allocated records only, the free list ends, the free and the allocated records are apart
and make up all records, a new record was not allocated before, and calls for other records leave a record alone. -/
theorem fullkey_slots_exact {fileId : UInt8} {calls : List FullkeyCall}
    (h : Run.Guarded step Frees (start fileId) calls) :
    let u := Run.exec step (start fileId) calls
    u.fk.Slots u.live ∧
      (∀ innerKey blockId fk, u.fk.write innerKey = (some blockId, fk) → blockId.dataId ∉ u.live) ∧
      ∀ call, u.Frees call → ∀ i ∈ u.live, ¬ Names i call → (u.step call).fk.data i = u.fk.data i := by
  have hslots := h.invariant (P := fun u => u.fk.Slots u.live) (fun u call hu hcall => (slots_step hu call hcall).1)
    (Fullkey.slots_create fileId)
  exact ⟨hslots, fun innerKey blockId fk hwrite => (hslots.write hwrite).1,
    fun call hcall => (slots_step hslots call hcall).2⟩

def twoFreed : List FullkeyCall :=
  [.write default, .write default, .write default, .del ⟨0, 1⟩, .reopen, .del ⟨0, 3⟩]

theorem fullkey_slots_small :
    let u := Run.exec step (start 0) twoFreed
    Run.Guarded step Frees (start 0) twoFreed ∧ u.live = {2} ∧ u.fk.freeListId = 3 ∧ u.fk.Slots u.live :=
  have h : Run.Guarded step Frees (start 0) twoFreed :=
    ⟨trivial, trivial, trivial, fun _ => by decide, trivial, fun _ => by decide, trivial⟩
  ⟨h, by decide, by decide, (fullkey_slots_exact h).1⟩

/-- A record that was deleted twice is given out twice. -/
theorem deleted_twice :
    let u := Run.exec step (start 0) [.write default, .del ⟨0, 1⟩, .del ⟨0, 1⟩, .write default]
    u.live = {1} ∧ (u.fk.write default).1 = some ⟨0, 1⟩ := by
  decide

end FullkeyUse

end HustStore.Md5db
