import HustStore.Md5db.Allocator
import HustStore.Lib.PartialMap
import HustStore.Lib.Run

/-!
# Runs of a content file

A content file together with the records that its callers hold in it. A call writes, updates or deletes a
record, or closes the file and opens it again.
-/

namespace HustStore.Md5db

open Intrusive (Chain)

structure Archive where
  file : Content2
  records : Nat → Option (Nat × Bytes)

inductive ContentCall
  | write (id : Nat) (data : Bytes)
  | update (id : Nat) (data : Bytes)
  | del (id : Nat)
  | reopen

namespace Archive

def create : Archive := ⟨.create, fun _ => none⟩

def place (s : Archive) (id : Nat) (file : Content2) (offset : Nat) (data : Bytes) : Archive :=
  ⟨file, Function.update s.records id (some (offset, data))⟩

def drop (s : Archive) (id : Nat) (file : Content2) : Archive :=
  ⟨file, Function.update s.records id none⟩

end Archive

def ContentCall.step (s : Archive) : ContentCall → Archive
  | .write id data =>
    match s.records id with
    | some _ => s
    | none =>
      match s.file.write data with
      | none => s
      | some (offset, file) => s.place id file offset data
  | .update id data =>
    match s.records id with
    | none => s
    | some (offset, old) =>
      match s.file.update offset old.length data with
      | (none, file) => { s with file }
      | (some offset, file) => s.place id file offset data
  | .del id =>
    match s.records id with
    | none => s
    | some (offset, old) =>
      match s.file.del offset old.length with
      | none => s
      | some file => s.drop id file
  | .reopen => { s with file := s.file.reopen }

def ContentCall.Solid (s : Archive) : ContentCall → Prop
  | .write _ data => data.length < 2 ^ 32
  | .update id data =>
    data.length < 2 ^ 32 ∧ ∀ offset, s.records id = some (offset, []) → data = []
  | .del id => ∀ offset, s.records id ≠ some (offset, [])
  | .reopen => True

def ContentCall.Slotted (s : Archive) : ContentCall → Prop
  | .update id data => ∀ offset old, s.records id = some (offset, old) →
      pageCount data.length < pageCount old.length → s.file.HasSlot
  | _ => True

/-- The largest free run stays known: growing the table of runs merges no span that is longer than
the remembered size and the run that is given back, and the file is opened again only when it has no
free run. -/
def ContentCall.Level (s : Archive) : ContentCall → Prop
  | .write _ _ => True
  | .update id data => ∀ offset old, s.records id = some (offset, old) → s.file.UpdateSpans old.length data.length
  | .del id => ∀ offset old, s.records id = some (offset, old) → s.file.header = freeBlockFileMaxSize →
        s.file.SpansAtMost (max s.file.freeBlockMax (pageCount old.length))
  | .reopen => s.file.freeBlockList = []

namespace Archive

variable {s : Archive} {c : ContentCall}

def live (s : Archive) : Set Nat :=
  {p | ∃ id offset data, s.records id = some (offset, data) ∧ p ∈ extent offset data.length}

def others (s : Archive) (id : Nat) : Set Nat :=
  {p | ∃ j offset data, j ≠ id ∧ s.records j = some (offset, data) ∧ p ∈ extent offset data.length}

structure Inv (s : Archive) : Prop where
  sound : s.file.Sound s.live
  apart : ∀ id id' offset offset' data data', id ≠ id' → s.records id = some (offset, data) →
    s.records id' = some (offset', data') → Disjoint (extent offset data.length) (extent offset' data'.length)

def Reads (s : Archive) : Prop :=
  ∀ id offset data, s.records id = some (offset, data) → s.file.get offset data.length = some data

variable {data : Bytes}

theorem extent_subset_live {id offset : Nat}
    (h : s.records id = some (offset, data)) : extent offset data.length ⊆ s.live :=
  fun _ hp => ⟨id, offset, data, h, hp⟩

theorem others_subset_live (id : Nat) : s.others id ⊆ s.live := by
  rintro p ⟨j, offset, data, -, hj, hp⟩
  exact ⟨j, offset, data, hj, hp⟩

theorem Inv.others_subset (h : s.Inv) {id offset : Nat} (hid : s.records id = some (offset, data)) :
    s.others id ⊆ s.live \ extent offset data.length := by
  rintro p ⟨j, offset', data', hne, hj, hp⟩
  exact ⟨⟨j, offset', data', hj, hp⟩, Set.disjoint_left.1 (h.apart j id _ _ _ _ hne hj hid) hp⟩

theorem extent_subset_others {id j offset : Nat} (hne : j ≠ id)
    (hj : s.records j = some (offset, data)) : extent offset data.length ⊆ s.others id :=
  fun _ hp => ⟨j, offset, data, hne, hj, hp⟩

end Archive

theorem Content2.Written.mono {c c' : Content2} {live live' : Set Nat} {offset : Nat} {data : Bytes}
    (h : Content2.Written c live offset data c') (hsub : live' ⊆ live) :
    Content2.Written c live' offset data c' where
  fresh := h.fresh.mono_right hsub
  inv := h.inv.mono (Set.union_subset_union_left _ hsub)
  get_eq := h.get_eq
  same := h.same.mono hsub
  offset_le := h.offset_le

namespace Archive

variable {s : Archive} {c : ContentCall} {id offset : Nat} {data : Bytes} {file : Content2}

theorem Inv.pairwise (h : s.Inv) : PartialMap.Pairwise
    (fun v w : Nat × Bytes => Disjoint (extent v.1 v.2.length) (extent w.1 w.2.length)) s.records :=
  fun i j v w => h.apart i j v.1 w.1 v.2 w.2

theorem Inv.place (h : s.Inv) (hwritten : Content2.Written s.file (s.others id) offset data file)
    (htidy : file.Tidy) : (s.place id file offset data).Inv := by
  refine ⟨⟨hwritten.inv.mono ?_, htidy⟩, fun i j o o' d d' => ?_⟩
  · rintro p ⟨j, o, d, hj, hp⟩
    rcases PartialMap.update_eq_some_iff.mp hj with ⟨-, hnew⟩ | ⟨hne, hj⟩
    · cases hnew
      exact .inr hp
    · exact .inl (extent_subset_others hne hj hp)
  · exact h.pairwise.update_some (fun _ _ hvw => hvw.symm)
      (fun k w hne hk => hwritten.fresh.mono_right (extent_subset_others hne hk)) i j (o, d) (o', d')

theorem Reads.place (h : s.Reads) (hwritten : Content2.Written s.file (s.others id) offset data file) :
    (s.place id file offset data).Reads := by
  intro j o d hj
  rcases PartialMap.update_eq_some_iff.mp hj with ⟨-, hnew⟩ | ⟨hne, hj⟩
  · cases hnew
    exact hwritten.get_eq
  · exact Content2.get_of_samePages (h j o d hj) hwritten.same (extent_subset_others hne hj)

theorem Inv.drop (h : s.Inv) (hfile : file.Sound (s.others id)) : (s.drop id file).Inv := by
  refine ⟨hfile.mono ?_, fun i j o o' d d' => h.pairwise.update_none i j (o, d) (o', d')⟩
  rintro p ⟨j, o, d, hj, hp⟩
  obtain ⟨hne, hj⟩ := PartialMap.update_none_eq_some_iff.mp hj
  exact extent_subset_others hne hj hp

theorem Reads.drop (h : s.Reads) (hsame : Content2.SamePages s.live s.file file) : (s.drop id file).Reads := by
  intro j o d hj
  have hj' := (PartialMap.update_none_eq_some_iff.mp hj).2
  exact Content2.get_of_samePages (h j o d hj') hsame (extent_subset_live hj')

theorem Inv.setFile (h : s.Inv) (hfile : file.Sound s.live) : Inv { s with file } :=
  ⟨hfile, h.apart⟩

theorem Reads.setFile (h : s.Reads) (hsame : Content2.SamePages s.live s.file file) :
    Reads { s with file } := fun _ _ _ hid =>
  Content2.get_of_samePages (h _ _ _ hid) hsame (extent_subset_live hid)

structure Keeps (s : Archive) (c : ContentCall) (s' : Archive) : Prop where
  inv : s'.Inv
  reads : c.Slotted s → s.Reads → s'.Reads
  maxTop : c.Level s → s.file.MaxTop → s'.file.MaxTop

theorem Inv.keeps_self (h : s.Inv) : Keeps s c s := ⟨h, fun _ hreads => hreads, fun _ htop => htop⟩

theorem Inv.write (h : s.Inv) (hid : s.records id = none) (hlt : data.length < 2 ^ 32) :
    Keeps s (.write id data) ((ContentCall.write id data).step s) := by
  simp only [ContentCall.step, hid]
  cases hwrite : s.file.write data with
  | none => exact h.keeps_self
  | some out =>
    obtain ⟨offset, file⟩ := out
    obtain ⟨hwritten, htidy, htop⟩ := h.sound.write hlt hwrite
    have hothers := hwritten.mono (others_subset_live id)
    exact ⟨h.place hothers htidy, fun _ hreads => hreads.place hothers, fun _ => htop⟩

theorem update_nil (c : Content2) (offset : Nat) : c.update offset 0 [] = (some offset, c) := by
  simp only [Content2.update, List.length_nil, Content2.pwrite_nil]
  rfl

theorem Inv.update (h : s.Inv) {old : Bytes} (hid : s.records id = some (offset, old))
    (hsolid : (ContentCall.update id data).Solid s) :
    Keeps s (.update id data) ((ContentCall.update id data).step s) := by
  obtain ⟨hlt, hnil⟩ := hsolid
  simp only [ContentCall.step, hid]
  by_cases hold : old = []
  · subst hold
    obtain rfl := hnil offset hid
    rw [List.length_nil, update_nil]
    have hplace : s.place id s.file offset [] = s := by
      rw [Archive.place, Function.update_eq_self_iff.2 hid.symm]
    simp only [hplace]
    exact h.keeps_self
  have hlen : 0 < old.length := List.length_pos_of_ne_nil hold
  rcases hupdate : s.file.update offset old.length data with ⟨_ | offset', file⟩
  · -- The update has failed, and at most the bytes of its own record have changed.
    refine ⟨h.setFile ?_, fun hslotted hreads => ?_, fun _ htop => ?_⟩
    · have houtcome := Content2.update_outcome s.file offset old.length data
      rw [hupdate] at houtcome
      cases houtcome with
      | overwritten _ _ => exact h.sound.setData _
      | full _ _ => exact h.sound
      | kept _ _ => exact h.sound
    · rw [Content2.update_of_none (fun hless => hslotted offset old hid hless) hupdate]
      exact hreads
    · have houtcome := Content2.update_outcome s.file offset old.length data
      rw [hupdate] at houtcome
      cases houtcome with
      | overwritten _ _ => exact htop
      | full _ _ => exact htop
      | kept _ _ => exact htop
  · obtain ⟨hwritten, htidy, htop⟩ := h.sound.update hlt hlen (extent_subset_live hid) hupdate
    have hothers := hwritten.mono (h.others_subset hid)
    exact ⟨h.place hothers htidy, fun _ hreads => hreads.place hothers,
      fun hlevel hmax => htop hmax (hlevel offset old hid)⟩

theorem Inv.del (h : s.Inv) {old : Bytes} (hid : s.records id = some (offset, old)) (hold : old ≠ []) :
    Keeps s (.del id) ((ContentCall.del id).step s) := by
  simp only [ContentCall.step, hid]
  have hlen : 0 < old.length := List.length_pos_of_ne_nil hold
  cases hdel : s.file.del offset old.length with
  | none => exact h.keeps_self
  | some file =>
    obtain ⟨hsound, hsame⟩ := h.sound.del hlen (extent_subset_live hid) hdel
    exact ⟨h.drop (hsound.mono (h.others_subset hid)), fun _ hreads => hreads.drop hsame.samePages,
      fun hlevel htop => h.sound.addFreeBlock_maxTop htop (hlevel offset old hid) hdel⟩

theorem Inv.reopen (h : s.Inv) : Keeps s .reopen (ContentCall.reopen.step s) := by
  refine ⟨h.setFile h.sound.reopen, fun _ hreads => hreads.setFile h.sound.reopen_same.samePages,
    fun hempty _ i hi => ?_⟩
  -- Without a run before there is none after.
  have hpos := h.sound.reopen.tidy.pos i hi
  have hfirst := h.sound.reopen_regroups.within i hi
    (show (s.file.reopen.cache i).offset ∈ _ by simp only [FreeBlock.pages, Set.mem_Ico]; omega)
  obtain ⟨j, hj, -⟩ := hfirst
  have hnone : s.file.freeBlockList = [] := hempty
  rw [hnone] at hj
  cases hj

theorem Inv.step (h : s.Inv) (hsolid : c.Solid s) : Keeps s c (c.step s) := by
  cases c with
  | write id data =>
    cases hid : s.records id with
    | none => exact h.write hid hsolid
    | some r =>
      simp only [ContentCall.step, hid]
      exact h.keeps_self
  | update id data =>
    cases hid : s.records id with
    | none =>
      simp only [ContentCall.step, hid]
      exact h.keeps_self
    | some r => exact h.update hid hsolid
  | del id =>
    cases hid : s.records id with
    | none =>
      simp only [ContentCall.step, hid]
      exact h.keeps_self
    | some r =>
      refine h.del hid fun hnil => hsolid r.1 ?_
      rw [hid, ← hnil]
  | reopen => exact h.reopen

theorem inv_create : create.Inv where
  sound := by
    have hlive : create.live = ∅ := by
      ext p
      simp [live, create]
    rw [hlive]
    exact Content2.sound_create
  apart _ _ _ _ _ _ _ hid := by cases hid

theorem inv_exec {guard : Archive → ContentCall → Prop} {calls : List ContentCall}
    (hguard : Run.Guarded ContentCall.step guard create calls)
    (hsolid : ∀ s c, guard s c → c.Solid s) :
    (Run.exec ContentCall.step create calls).Inv :=
  hguard.invariant (fun s c h hc => (h.step (hsolid s c hc)).inv) inv_create

/-! ### Records keep to themselves -/

structure Intact (s : Archive) : Prop where
  apart : ∀ id id' offset offset' data data', id ≠ id' → s.records id = some (offset, data) →
    s.records id' = some (offset', data') → Disjoint (extent offset data.length) (extent offset' data'.length)
  -- Page 0 is outside as well.
  inside : ∀ id offset data, s.records id = some (offset, data) →
    extent offset data.length ⊆ Set.Ico 1 (s.file.dataFileSize / page)
  runs_free : ∀ id offset data, s.records id = some (offset, data) → ∀ i ∈ s.file.freeBlockList,
    Disjoint (extent offset data.length) (s.file.cache i).pages
  runs_apart : ∀ i ∈ s.file.freeBlockList, ∀ j ∈ s.file.freeBlockList, i ≠ j →
    Disjoint (s.file.cache i).pages (s.file.cache j).pages
  slots : ∃ chain, Chain (fun i => (s.file.cache i).offset) freeBlockFileMaxSize s.file.header chain ∧
    chain.Nodup ∧ (∀ i ∈ chain, s.file.IsSlot i) ∧
    ∀ i, s.file.IsSlot i → Xor (i ∈ s.file.freeBlockList) (i ∈ chain)
  -- A slot is in use when it describes pages.
  in_use : ∀ i, s.file.IsSlot i → (i ∈ s.file.freeBlockList ↔ 0 < (s.file.cache i).size)
  reads : s.Reads

theorem Inv.intact (h : s.Inv) (hreads : s.Reads) : s.Intact where
  apart := h.apart
  inside id offset data hid p hp := by
    have hlive := h.sound.inv.sizes.live_lt p (extent_subset_live hid hp)
    exact ⟨hlive.1, hlive.2⟩
  runs_free id offset data hid i hi :=
    ((h.sound.run hi).2.2.2.mono_right (extent_subset_live hid)).symm
  runs_apart := h.sound.inv.runs.disjoint
  slots := by
    obtain ⟨chain, hslots⟩ := h.sound.inv.slots
    obtain ⟨hchain, -, hapart⟩ := List.nodup_append.1 hslots.nodup
    refine ⟨chain, hslots.linked, hchain,
      fun i hi => (hslots.mem_iff i).1 (List.mem_append_left _ hi), fun i hi => ?_⟩
    rcases List.mem_append.1 ((hslots.mem_iff i).2 hi) with hi | hi
    · exact .inr ⟨hi, fun hlist => hapart i hi i hlist rfl⟩
    · exact .inl ⟨hi, fun hmem => hapart i hmem i hi rfl⟩
  in_use i hi := by
    refine ⟨h.sound.tidy.pos i, fun hpos => ?_⟩
    by_contra hnot
    exact hpos.ne' (h.sound.tidy.listed.rest i hi hnot)
  reads := hreads

/-- Along every run in which no record without pages is given back, and in which an update to fewer
pages finds a slot for the rest, the records keep their pages and their bytes. -/
theorem content_runs_intact {calls : List ContentCall} (hguard : Run.Guarded ContentCall.step
      (fun s c => c.Solid s ∧ c.Slotted s) create calls) :
    (Run.exec ContentCall.step create calls).Intact := by
  have hboth : (Run.exec ContentCall.step create calls).Inv ∧ (Run.exec ContentCall.step create calls).Reads := by
    refine hguard.invariant (P := fun s => s.Inv ∧ s.Reads) (fun s c h hc => ?_) ⟨inv_create, ?_⟩
    · have hkeeps := h.1.step hc.1
      exact ⟨hkeeps.inv, hkeeps.reads hc.2 h.2⟩
    · intro id offset data hid
      cases hid
  exact hboth.1.intact hboth.2

/-- A record that is written, updated in place and deleted, and its page given out again after the
file was closed. -/
theorem content_runs_intact_recycled : (Run.exec ContentCall.step create
      [.write 0 [7], .write 1 [8], .update 0 [9, 9], .del 0, .reopen, .write 2 [5]]).Intact := by
  have hlt : ([7] : Bytes).length < 2 ^ 32 := by decide
  refine content_runs_intact ⟨⟨hlt, trivial⟩, ⟨hlt, trivial⟩, ⟨⟨by decide, ?_⟩, ?_⟩,
    ⟨?_, trivial⟩, ⟨trivial, trivial⟩, ⟨hlt, trivial⟩, trivial⟩
  · intro offset hid
    cases hid
  · intro offset old hid hless
    cases hid
    exact absurd hless (by decide)
  · intro offset hid
    cases hid

theorem exec_reopen_file (s : Archive) (calls : List ContentCall) :
    (Run.exec ContentCall.step s (calls ++ [.reopen])).file = (Run.exec ContentCall.step s calls).file.reopen := by
  rw [Run.exec_append]
  rfl

theorem del_empty_file : (Run.exec ContentCall.step create [.write 0 [], .del 0]).file =
      Content2.create.pushFreeBlock 0 1 := by
  have hwrite : Content2.create.write [] = some (1, .create) := by
    rw [Content2.write, if_neg (by decide), Content2.sound_create.writeInner_nil]
    rfl
  simp only [Run.exec_cons, Run.exec_nil, ContentCall.step, create, hwrite]
  rfl

theorem del_empty_cache {i : Nat} (hi : i ≠ 8) :
    (Content2.create.pushFreeBlock 0 1).cache i = Content2.create.cache i :=
  Content2.pushFreeBlock_cache_of_ne hi

theorem del_empty_reopen : (Content2.create.pushFreeBlock 0 1).reopen =
    { Content2.create.pushFreeBlock 0 1 with freeBlockMax := 0, freeBlockList := [] } := by
  refine Content2.reopen_of_linked (by decide) fun i hpos hi => ?_
  have hincr : freeBlockIncr = 8388608 := rfl
  have hsize : (Content2.create.pushFreeBlock 0 1).freeBlockFileSize = freeBlockIncr := rfl
  by_cases hone : i = 1
  · subst hone
    exact ⟨by decide, rfl⟩
  · rw [del_empty_cache (by omega), Content2.create]
    simp only
    rw [if_pos ⟨by omega, by omega, by omega⟩]
    refine ⟨?_, rfl⟩
    simp only
    split
    · decide
    · omega

/-- Deleting an empty record and opening the file again loses a slot: it is neither listed nor on the
chain. -/
theorem empty_record_loses_slot : ¬ (Run.exec ContentCall.step create [.write 0 [], .del 0, .reopen]).Intact := by
  intro h
  have hslots := h.slots
  have hfile : (Run.exec ContentCall.step create
      ([.write 0 [], .del 0] ++ [.reopen])).file = (Content2.create.pushFreeBlock 0 1).reopen := by
    rw [exec_reopen_file, del_empty_file]
  rw [List.cons_append, List.cons_append, List.nil_append] at hfile
  rw [hfile, del_empty_reopen] at hslots
  obtain ⟨chain, hchain, -, -, hslots⟩ := hslots
  simp only at hchain hslots
  rcases hslots 8 ⟨rfl, le_rfl, by decide⟩ with ⟨hlist, -⟩ | ⟨hmem, -⟩
  · cases hlist
  -- The chain starts behind the slot, and no link leads to it.
  · refine hchain.forall_mem (P := fun i => i ≠ 8) (by decide) (fun i hi => ?_) 8 hmem rfl
    rw [del_empty_cache hi]
    unfold Content2.create
    simp only
    split
    · simp only
      split
      · decide
      · omega
    · decide

/-! ### Free pages are found again -/

/-- What was given back is given out before the data file grows: the file remembers the size of its
largest run, and a full file still takes a record that fits a run. -/
structure Reusable (s : Archive) : Prop where
  max_eq : s.file.freeBlockMax = s.file.largestRun
  write_extends : ∀ data offset file, data.length < 2 ^ 32 → s.file.write data = some (offset, file) →
    s.file.dataFileSize < file.dataFileSize →
      ∀ i ∈ s.file.freeBlockList, (s.file.cache i).size < pageCount data.length
  update_extends : ∀ id data offset old, (ContentCall.update id data).Solid s →
    (ContentCall.update id data).Level s → s.records id = some (offset, old) →
    s.file.dataFileSize < (s.file.update offset old.length data).2.dataFileSize →
      ∀ i ∈ s.file.freeBlockList, (s.file.cache i).size < pageCount data.length
  accepts : ∀ data, ∀ i ∈ s.file.freeBlockList, pageCount data.length ≤ (s.file.cache i).size →
    (s.file.write data).isSome

theorem Inv.reusable (h : s.Inv) (htop : s.file.MaxTop) : s.Reusable where
  max_eq := h.sound.tidy.max_eq htop
  write_extends data offset file hlt hwrite hext := by
    unfold Content2.write at hwrite
    split_ifs at hwrite
    have heq := Option.some.inj hwrite
    rw [← show (s.file.writeInner data).2 = file by rw [heq]] at hext
    exact fun i => h.sound.writeInner_extends htop hlt hext
  update_extends id data offset old hsolid hlevel hid hext := by
    by_cases hold : old = []
    · subst hold
      rw [hsolid.2 offset hid, List.length_nil, update_nil] at hext
      exact absurd hext (lt_irrefl _)
    · exact fun i => h.sound.update_extends htop hsolid.1 (List.length_pos_of_ne_nil hold)
        (extent_subset_live hid) (hlevel offset old hid) hext
  accepts data i hi hle := by
    have hmax := htop i hi
    rw [Content2.write, if_neg (by omega)]
    rfl

/-- Along every run that gives back no record without pages, opens the file again only without free
runs, and merges no runs beyond the largest size that the file remembers, free pages are found
again. -/
theorem content_runs_reuse {calls : List ContentCall} (hguard : Run.Guarded ContentCall.step
      (fun s c => c.Solid s ∧ c.Level s) create calls) :
    (Run.exec ContentCall.step create calls).Reusable := by
  have hboth : (Run.exec ContentCall.step create calls).Inv ∧
      (Run.exec ContentCall.step create calls).file.MaxTop := by
    refine hguard.invariant (P := fun s => s.Inv ∧ s.file.MaxTop) (fun s c h hc => ?_)
      ⟨inv_create, fun i hi => by cases hi⟩
    have hkeeps := h.1.step hc.1
    exact ⟨hkeeps.inv, hkeeps.maxTop hc.2 h.2⟩
  exact hboth.1.reusable hboth.2

/-- A page that is given back and given out again, and a file that is then opened again. -/
theorem content_runs_reuse_page : (Run.exec ContentCall.step create
      [.write 0 [7], .write 1 [8], .del 0, .write 2 [9], .reopen]).Reusable := by
  have hlt : ([7] : Bytes).length < 2 ^ 32 := by decide
  refine content_runs_reuse ⟨⟨hlt, trivial⟩, ⟨hlt, trivial⟩, ⟨fun offset hid => ?_, ?_⟩,
    ⟨hlt, trivial⟩, ⟨trivial, rfl⟩, trivial⟩
  · cases hid
  · intro offset old _ (hheader : 8 = freeBlockFileMaxSize)
    cases hheader

/-- A file that is opened again does not find the page of a deleted record, and grows instead. -/
theorem reopened_file_grows : ∃ s, s = Run.exec ContentCall.step create ([.write 0 [7], .del 0] ++ [.reopen]) ∧
      s.file.freeBlockMax = 0 ∧ (∃ i ∈ s.file.freeBlockList, 1 ≤ (s.file.cache i).size) ∧
      ∃ offset file, s.file.write [7] = some (offset, file) ∧
        s.file.dataFileSize < file.dataFileSize := by
  have hlt : ([7] : Bytes).length < 2 ^ 32 := by decide
  have hguard : Run.Guarded ContentCall.step (fun s c => c.Solid s) create [.write 0 [7], .del 0] := by
    refine ⟨hlt, fun offset hid => ?_, trivial⟩
    cases hid
  have hsound := (inv_exec hguard fun _ _ h => h).sound
  have hsize : (Run.exec ContentCall.step create [.write 0 [7], .del 0]).file.dataFileSize = 2048 := rfl
  have hlist : (Run.exec ContentCall.step create [.write 0 [7], .del 0]).file.freeBlockList = [8] := rfl
  refine ⟨_, rfl, ?_⟩
  rw [exec_reopen_file]
  refine ⟨hsound.reopen_max, ?_, hsound.reopen_write (by decide) hlt (by rw [hsize]; decide)⟩
  obtain ⟨j, hj, -⟩ := hsound.reopen_regroups.covers 8 (by rw [hlist]; exact List.mem_singleton_self 8)
  exact ⟨j, hj, hsound.reopen.tidy.pos j hj⟩

end Archive

end HustStore.Md5db
