import HustStore.KeyHash.Plan
import HustStore.Lib.Deal
import HustStore.Lib.RunLength

/-!
# Making and saving a hash plan

A new plan deals the copies of the files to the servers in turn and gives every file the same number of buckets,
the last one also those that are left.
-/

namespace HustStore.KeyHash

open Appini Incidence Deal RunLength

def fileIds (n : Nat) : List Int := (List.range n).map fun i : Nat => (i : Int)

def fileCopies (userFileCount copyCount : Nat) : List Int :=
  (fileIds userFileCount).flatMap fun i => List.replicate copyCount i

def bucketFiles (userFileCount : Nat) : List Int :=
  let data := (fileIds userFileCount).flatMap fun i => List.replicate (hashCount / userFileCount) i
  data ++ List.replicate (hashCount - data.length) ((userFileCount : Int) - 1)

def maxUserFid (src : List Int) : Int := src.foldl (fun m n => if 0 ≤ n ∧ m < n then n else m) 0

def create (userFileCount serverCount copyCount : Int) : Option HashPlan := do
  guard (0 < userFileCount ∧ 0 < serverCount ∧ 0 < copyCount ∧ copyCount ≤ 3 ∧ copyCount ≤ serverCount)
  let inner := deal (List.replicate serverCount.toNat []) 0
    (fileCopies userFileCount.toNat copyCount.toNat)
  let realDataCount := inner.foldl (fun n ids => max n ids.length) 0
  guard (0 < realDataCount)
  let user ← inner.mapM fun src => userFiles src 0 (List.replicate ((maxUserFid src).toNat + 1) (-1))
  pure ⟨bucketFiles userFileCount.toNat, realDataCount, userFileCount.toNat, user, inner, [], copyCount.toNat, -1⟩

/-! ### Saving -/

def printD3 (z : Int) : Bytes := List.replicate (3 - (printD z).length) 32 ++ printD z

def fileText (n : Int) : Bytes := if 0 ≤ n then printD3 n else ascii "-1"

def serverLine : List Int → Bytes
  | [] => []
  | n :: rest => fileText n ++ rest.flatMap fun n => ascii ", " ++ fileText n

def saveLines (p : HashPlan) : List Bytes :=
  [ascii "[hash]", ascii "data_file_count = " ++ printD p.dataFileCount,
      ascii "user_file_count = " ++ printD p.userFileCount]
    ++ (starts (-1) 0 p.data).map (fun e => printD e.1 ++ ascii " = " ++ printD e.2)
    ++ [ascii "[server]", ascii "server_count = " ++ printD p.serverToUserFile.length,
      ascii "copy_count   = " ++ printD p.copyCount]
    ++ p.serverToInnerFile.zipIdx.map fun e => serverKey e.2 ++ ascii " = " ++ serverLine e.1

def saveMemory (p : HashPlan) : Option Bytes :=
  if p.dataFileCount = 0 ∨ p.userFileCount = 0 ∨ p.data = [] ∨ p.serverToUserFile = []
      ∨ p.copyCount = 0 ∨ p.copyCount > 3 then none
  else some ((saveLines p).flatMap fun line => line ++ [10])

/-! ### What a new plan is like -/

variable {n : Nat}

theorem mem_fileIds {i : Int} : i ∈ fileIds n ↔ 0 ≤ i ∧ i < n := by
  simp only [fileIds, List.mem_map, List.mem_range]
  constructor
  · rintro ⟨k, hk, rfl⟩
    omega
  · rintro ⟨hpos, hlt⟩
    exact ⟨i.toNat, by omega, by omega⟩

theorem nodup_fileIds (n : Nat) : (fileIds n).Nodup :=
  List.nodup_range.map fun _ _ h => Int.ofNat.inj h

@[simp] theorem length_fileIds (n : Nat) : (fileIds n).length = n := by
  simp [fileIds]

theorem length_flatMap_replicate {α : Type} (vs : List α) (c : Nat) :
    (vs.flatMap fun v => List.replicate c v).length = vs.length * c := by
  induction vs with
  | nil => simp
  | cons v vs ih =>
    rw [List.flatMap_cons, List.length_append, ih, List.length_replicate, List.length_cons, Nat.succ_mul]
    omega

theorem count_flatMap_replicate {α : Type} [DecidableEq α] (vs : List α) (c : Nat) (a : α) :
    (vs.flatMap fun v => List.replicate c v).count a = vs.count a * c := by
  induction vs with
  | nil => simp
  | cons v vs ih =>
    rw [List.flatMap_cons, List.count_append, ih, List.count_replicate, List.count_cons]
    by_cases hv : v = a
    · simp [hv, Nat.succ_mul, Nat.add_comm]
    · simp [hv]

theorem count_fileCopies {n c : Nat} {i : Int} (h : i ∈ fileIds n) : (fileCopies n c).count i = c := by
  rw [fileCopies, count_flatMap_replicate, List.count_eq_one_of_mem (nodup_fileIds n) h, Nat.one_mul]

theorem mem_of_mem_fileCopies {n c : Nat} {i : Int} (h : i ∈ fileCopies n c) : 0 ≤ i ∧ i < n := by
  obtain ⟨v, hv, hrep⟩ := List.mem_flatMap.mp h
  rw [List.eq_of_mem_replicate hrep]
  exact mem_fileIds.mp hv

structure Created (files servers copies : Nat) (p : HashPlan) : Prop where
  files_pos : 0 < files
  servers_pos : 0 < servers
  copies_pos : 0 < copies
  copies_le : copies ≤ 3
  copies_le_servers : copies ≤ servers
  data : p.data = bucketFiles files
  userFileCount : p.userFileCount = files
  copyCount : p.copyCount = copies
  inner : p.serverToInnerFile = deal (List.replicate servers []) 0 (fileCopies files copies)
  length_user : p.serverToUserFile.length = servers
  dataFileCount : p.dataFileCount = p.serverToInnerFile.foldl (fun n ids => max n ids.length) 0
  dataFileCount_pos : 0 < p.dataFileCount

variable {userFileCount serverCount copyCount : Int}

theorem created_of_create {p : HashPlan} (h : create userFileCount serverCount copyCount = some p) :
    Created userFileCount.toNat serverCount.toNat copyCount.toNat p := by
  simp only [create, guard, Option.bind_eq_bind, Option.bind_eq_some_iff, Option.pure_def,
    Option.some.injEq, Option.failure_eq_none, Option.ite_none_right_eq_some, exists_const,
    and_true] at h
  obtain ⟨⟨hf, hs, hc, hc3, hcs⟩, hreal, user, huser, rfl⟩ := h
  refine ⟨by omega, by omega, by omega, by omega, by omega, rfl, rfl, rfl, rfl, ?_, rfl, hreal⟩
  have hlen := (mapM_eq_some_iff.mp huser).length_eq
  rw [length_deal, List.length_replicate] at hlen
  exact hlen.symm

theorem le_foldl_max {lists : List (List Int)} {start : Nat} :
    start ≤ lists.foldl (fun n ids => max n ids.length) start
      ∧ ∀ ids ∈ lists, ids.length ≤ lists.foldl (fun n ids => max n ids.length) start := by
  induction lists generalizing start with
  | nil => simp
  | cons ids lists ih =>
    obtain ⟨hstart, hrest⟩ := @ih (max start ids.length)
    rw [List.foldl_cons, List.forall_mem_cons]
    exact ⟨(Nat.le_max_left _ _).trans hstart, (Nat.le_max_right _ _).trans hstart, hrest⟩

theorem foldl_max_le {lists : List (List Int)} {start bound : Nat} (hstart : start ≤ bound)
    (h : ∀ ids ∈ lists, ids.length ≤ bound) :
    lists.foldl (fun n ids => max n ids.length) start ≤ bound := by
  induction lists generalizing start with
  | nil => exact hstart
  | cons ids lists ih =>
    rw [List.forall_mem_cons] at h
    exact ih (Nat.max_le.mpr ⟨hstart, h.1⟩) h.2

theorem le_foldl_maxUserFid {src : List Int} {start : Int} :
    start ≤ src.foldl (fun m n => if 0 ≤ n ∧ m < n then n else m) start
      ∧ ∀ n ∈ src, 0 ≤ n → n ≤ src.foldl (fun m n => if 0 ≤ n ∧ m < n then n else m) start := by
  induction src generalizing start with
  | nil => simp
  | cons n src ih =>
    obtain ⟨hstart, hrest⟩ := @ih (if 0 ≤ n ∧ start < n then n else start)
    rw [List.foldl_cons, List.forall_mem_cons]
    refine ⟨?_, ?_, hrest⟩
    · split_ifs at hstart ⊢ with hn
      · exact (Int.le_of_lt hn.2).trans hstart
      · exact hstart
    · intro hn
      split_ifs at hstart ⊢ with hlt
      · exact hstart
      · omega

theorem exists_create
    (h : 0 < userFileCount ∧ 0 < serverCount ∧ 0 < copyCount ∧ copyCount ≤ 3 ∧ copyCount ≤ serverCount) :
    ∃ p, create userFileCount serverCount copyCount = some p := by
  obtain ⟨hf, hs, hc, hc3, hcs⟩ := h
  have hrow := @getElem?_deal_replicate Int serverCount.toNat 0 (by omega) 0
    (fileCopies userFileCount.toNat copyCount.toNat)
  have hlen : 0 < (share serverCount.toNat 0 0 (fileCopies userFileCount.toNat copyCount.toNat)).length := by
    rw [List.length_pos_iff, ne_eq, share_zero_eq_nil_iff (by omega), fileCopies, length_flatMap_replicate,
      length_fileIds, Nat.le_zero, Nat.mul_eq_zero]
    omega
  have hreal := (@le_foldl_max _ 0).2 _ (List.mem_of_getElem? hrow)
  obtain ⟨user, huser⟩ := @exists_mapM _ _
    (fun src => userFiles src 0 (List.replicate ((maxUserFid src).toNat + 1) (-1)))
    (deal (List.replicate serverCount.toNat []) 0 (fileCopies userFileCount.toNat copyCount.toNat)) (by
      intro src _
      rw [exists_userFiles_iff]
      intro n hn
      rw [List.length_replicate]
      by_cases hpos : 0 ≤ n
      · have hle : n ≤ maxUserFid src := le_foldl_maxUserFid.2 n hn hpos
        omega
      · omega)
  simp only [create, guard, Option.bind_eq_bind, Option.bind_eq_some_iff, Option.pure_def,
    Option.some.injEq, Option.failure_eq_none, Option.ite_none_right_eq_some, exists_const, and_true]
  exact ⟨_, ⟨hf, hs, hc, hc3, hcs⟩, lt_of_lt_of_le hlen hreal, user, huser, rfl⟩

namespace Created

variable {files servers copies : Nat} {p : HashPlan}

@[simp] theorem length_inner (h : Created files servers copies p) : p.serverToInnerFile.length = servers := by
  rw [h.inner, length_deal, List.length_replicate]

theorem row (h : Created files servers copies p) {s : Nat} (hs : s < servers) :
    p.serverToInnerFile[s]? = some (share servers s 0 (fileCopies files copies)) := by
  rw [h.inner, getElem?_deal_replicate hs]

variable {ids : List Int}

section

variable (h : Created files servers copies p) (hids : ids ∈ p.serverToInnerFile)
include h hids

theorem exists_of_mem_inner : ∃ s < servers, ids = share servers s 0 (fileCopies files copies) := by
  obtain ⟨s, hs, rfl⟩ := List.getElem_of_mem hids
  have hlt : s < servers := by
    rwa [h.length_inner] at hs
  refine ⟨s, hlt, ?_⟩
  rw [← Option.some.injEq, ← List.getElem?_eq_getElem hs, h.row hlt]

theorem file_mem : ∀ n ∈ ids, 0 ≤ n ∧ n < files := by
  obtain ⟨s, -, rfl⟩ := h.exists_of_mem_inner hids
  intro n hn
  exact mem_of_mem_fileCopies ((share_sublist _ _ _ _).mem hn)

theorem count_le_one (n : Int) : ids.count n ≤ 1 := by
  obtain ⟨s, -, rfl⟩ := h.exists_of_mem_inner hids
  exact count_share_le_one (nodup_fileIds files) h.copies_le_servers n

theorem length_le : ids.length ≤ files := by
  obtain ⟨s, -, rfl⟩ := h.exists_of_mem_inner hids
  have hle := @length_share_le Int _ servers s copies 0 _ (nodup_fileIds files) h.copies_le_servers
  rwa [length_fileIds] at hle

end

theorem row_eq_nil_iff {s : Nat} (hs : s < servers) :
    share servers s 0 (fileCopies files copies) = [] ↔ files * copies ≤ s := by
  rw [share_zero_eq_nil_iff hs, fileCopies, length_flatMap_replicate, length_fileIds]

theorem length_holders_inner (h : Created files servers copies p) {i : Nat} (hi : i < files) :
    (holders 0 p.serverToInnerFile (i : Int)).length = copies := by
  rw [h.inner, length_holders_deal h.servers_pos]
  exact count_fileCopies (mem_fileIds.mpr (by omega))

theorem nodup_holders (h : Created files servers copies p) (i : Int) : (holders 0 p.serverToInnerFile i).Nodup :=
  nodup_holders_iff.mpr fun _ hids => h.count_le_one hids i

theorem dataFileCount_le (h : Created files servers copies p) : p.dataFileCount ≤ files := by
  rw [h.dataFileCount]
  exact foldl_max_le (Nat.zero_le _) fun _ hids => h.length_le hids

end Created

/-! ### The buckets of a new plan -/

theorem isChain_fileIds (n : Nat) : ((-1 : Int) :: fileIds n).IsChain (· ≠ ·) := by
  have hlt : ((-1 : Int) :: fileIds n).Pairwise (· < ·) := by
    rw [List.pairwise_cons]
    constructor
    · intro i hi
      have := mem_fileIds.mp hi
      omega
    · rw [fileIds, List.pairwise_map]
      exact List.pairwise_lt_range.imp fun h => by omega
  exact (hlt.imp fun h => ne_of_lt h).isChain

theorem getLast_fileIds (h : 0 < n) : ((-1 : Int) :: fileIds n).getLast (List.cons_ne_nil _ _) = (n : Int) - 1 := by
  obtain ⟨m, rfl⟩ := Nat.exists_eq_succ_of_ne_zero h.ne'
  simp [fileIds, List.range_succ]

theorem length_starts_bucketFiles (h : 0 < n) :
    (starts (-1) 0 (bucketFiles n)).length = if n ≤ hashCount then n else 1 := by
  unfold bucketFiles
  split_ifs with hn
  · obtain ⟨q, hq⟩ := Nat.exists_eq_succ_of_ne_zero (Nat.div_pos hn h).ne'
    have hblocks := @length_starts_blocks Int _ (-1) (fileIds n) (isChain_fileIds n) 0 q
    simp only [getLast_fileIds h, length_fileIds] at hblocks
    rw [hq]
    exact hblocks _
  · have hnil : ((fileIds n).flatMap fun i => List.replicate (hashCount / n) i) = [] := by
      rw [Nat.div_eq_of_lt (show hashCount < n by omega)]
      simp
    have hne : (n : Int) - 1 ≠ -1 := by omega
    have hcount : hashCount - ([] : List Int).length = (hashCount - 1) + 1 := rfl
    rw [hnil, List.nil_append, hcount, List.replicate_succ, starts, if_pos hne, starts_replicate]
    rfl

theorem length_bucketFiles (n : Nat) : (bucketFiles n).length = hashCount := by
  have hle : n * (hashCount / n) ≤ hashCount := Nat.mul_div_le hashCount n
  simp only [bucketFiles, List.length_append, length_flatMap_replicate, length_fileIds, List.length_replicate]
  omega

theorem mem_bucketFiles (h : 0 < n) {v : Int} (hv : v ∈ bucketFiles n) : 0 ≤ v ∧ v < n := by
  rcases List.mem_append.mp hv with hv | hv
  · exact mem_of_mem_fileCopies hv
  · rw [List.eq_of_mem_replicate hv]
    omega

end HustStore.KeyHash
