import HustStore.KeyHash.Appini
import HustStore.Lib.Incidence
import Mathlib.Data.List.Forall2
import Mathlib.Order.Interval.Finset.Nat

/-!
# The hash plan

The plan of a cluster says which file the keys of a hash bucket belong to and which servers hold a file.
-/

namespace HustStore.KeyHash

open Appini Incidence

def hashCount : Nat := 10000

structure HashPlan where
  data : List Int
  dataFileCount : Nat
  userFileCount : Nat
  serverToUserFile : List (List Int)
  serverToInnerFile : List (List Int)
  fileToServer : List (List Nat)
  copyCount : Nat
  serverId : Int
  deriving DecidableEq, Repr

/-! ### Hashing -/

namespace HashPlan

def hashOf (key : Bytes) : Nat := key.foldl (fun hash b => (hash * 131 + b.toNat) % 2 ^ 32) 0

def hashNoMd5db (p : HashPlan) (key : Bytes) : Option Int := p.data[hashOf key % hashCount]?

def hashMd5db (p : HashPlan) (key : Bytes) : Option Int :=
  if key.length < 8 then none else p.data[readLe32 (key.drop 4) % hashCount]?

structure Routed where
  file : Int
  otherServers : List Nat
  localFile : Int
  deriving DecidableEq, Repr

def localFile (p : HashPlan) (v : Int) : Int :=
  match p.serverToUserFile[p.serverId.toNat]? with
  | none => -1
  | some ids => ids.getD v.toNat (-1)

def route (p : HashPlan) (v : Int) : Option Routed :=
  if v < 0 ∨ v ≥ p.fileToServer.length then none
  else
    let servers := p.fileToServer.getD v.toNat []
    let isLocal (sid : Nat) : Bool := p.serverId ≥ 0 && p.serverId = sid
    some ⟨v, servers.filter fun sid => !isLocal sid,
      if servers.any isLocal then p.localFile v else -1⟩

def hashWithCluster (p : HashPlan) (key : Bytes) : Option Routed := (p.hashNoMd5db key).bind p.route

def hashWithMd5db (p : HashPlan) (key : Bytes) : Option Routed := (p.hashMd5db key).bind p.route

end HashPlan

/-! ### Opening -/

def secHash : Bytes := ascii "hash"

def secServer : Bytes := ascii "server"

def bucket (ini : Ini) (index : Nat) : Int := iniGetInt ini secHash (printD index) (-1)

def bucketLoop (get : Nat → Int) : List Nat → Int → Option (List Int)
  | [], _ => some []
  | index :: rest, last =>
    let fileId := get index
    if fileId < 0 then
      if last < 0 then none else (bucketLoop get rest last).map (last :: ·)
    else (bucketLoop get rest fileId).map (fileId :: ·)

def serverKey (i : Nat) : Bytes := ascii "server_" ++ printD i

def fileId (item : Bytes) : Option Int :=
  if item = ascii "-1" then some (-1)
  else
    match item with
    | [] => none
    | b :: rest => if Decimal.isDigit b then some (atoi (b :: rest)) else none

def serverFiles (ini : Ini) (i : Nat) : Option (List Int) :=
  match iniGetString ini secServer (serverKey i) with
  | none => none
  | some s => if s = [] then none else (toVector s).mapM fileId

def padTo (n : Nat) (files : List Int) : List Int :=
  files ++ List.replicate (n - files.length) (-1)

def userFiles : List Int → Nat → List Int → Option (List Int)
  | [], _, dst => some dst
  | n :: rest, j, dst =>
    if 0 ≤ n then
      if n ≥ dst.length then none else userFiles rest (j + 1) (dst.set n.toNat j)
    else userFiles rest (j + 1) dst

def namedFiles (lines : List (List Int)) : List (Nat × Int) :=
  (listed 0 lines).filter fun e => 0 ≤ e.2

def userFileToServer (lines : List (List Int)) : SortedMap Int (List Nat) :=
  (namedFiles lines).foldl (note fun ids i => ids.getD [] ++ [i]) .empty

def verifyCounts (lines : List (List Int)) : SortedMap Int Nat :=
  (namedFiles lines).foldl (note fun n _ => n.getD 0 + 1) .empty

def fileServers (byFile : SortedMap Int (List Nat)) (copyCount : Nat) (i : Nat) :
    Option (List Nat) :=
  match byFile.get? i with
  | none => none
  | some ids => if ids.length = copyCount then some ids else none

def HashPlan.isHeldBy (p : HashPlan) (i sid : Nat) : Bool :=
  match p.serverToUserFile[sid]?, p.serverToInnerFile[sid]? with
  | some pfids, some ifids =>
    match pfids[i]? with
    | none => false
    | some innerFile => 0 ≤ innerFile && ifids[innerFile.toNat]? = some (i : Int)
  | _, _ => false

def HashPlan.isConsistent (p : HashPlan) : Bool :=
  (List.range p.userFileCount).all fun i =>
    match p.fileToServer[i]? with
    | none => false
    | some ids => ids.length = p.copyCount && ids.all fun sid => p.isHeldBy i sid

def openIni (serverId : Int) (ini : Ini) : Option HashPlan := do
  guard (0 ≤ serverId)
  let dataFileCount := iniGetInt ini secHash (ascii "data_file_count") 0
  guard (0 < dataFileCount)
  let userFileCount := iniGetInt ini secHash (ascii "user_file_count") 0
  guard (0 < userFileCount)
  let data ← bucketLoop (bucket ini) (List.range hashCount) (-1)
  let copyCount := iniGetInt ini secServer (ascii "copy_count") 0
  guard (0 < copyCount)
  let serverCount := iniGetInt ini secServer (ascii "server_count") 0
  guard (0 < serverCount ∧ copyCount ≤ serverCount ∧ copyCount ≤ 3 ∧ serverId < serverCount)
  let lines ← (List.range serverCount.toNat).mapM (serverFiles ini)
  let inner := lines.map (padTo dataFileCount.toNat)
  let user ← inner.mapM fun src => userFiles src 0 (List.replicate userFileCount.toNat (-1))
  let verify := verifyCounts lines
  guard ((List.range dataFileCount.toNat).all fun i => verify.get? i = some copyCount.toNat)
  let byFile := userFileToServer lines
  guard (byFile.entries.length = userFileCount.toNat)
  let fileToServer ← (List.range userFileCount.toNat).mapM (fileServers byFile copyCount.toNat)
  let plan : HashPlan := ⟨data, dataFileCount.toNat, userFileCount.toNat, user, inner, fileToServer,
    copyCount.toNat, serverId⟩
  guard plan.isConsistent
  pure plan

def openMemory (serverId : Int) (text : Bytes) : Option HashPlan :=
  (iniOpen2 text).bind (openIni serverId)

/-! ### What a configuration that is taken is like -/

theorem mapM_eq_some_iff {α β : Type} {f : α → Option β} {l : List α} {r : List β} :
    l.mapM f = some r ↔ List.Forall₂ (fun a b => f a = some b) l r := by
  induction l generalizing r with
  | nil => simp [eq_comm]
  | cons a l ih =>
    rw [List.mapM_cons]
    simp only [Option.bind_eq_bind, Option.bind_eq_some_iff, Option.pure_def, Option.some.injEq, ih]
    constructor
    · rintro ⟨b, hb, bs, hbs, rfl⟩
      exact .cons hb hbs
    · rintro (- | ⟨hb, hbs⟩)
      exact ⟨_, hb, _, hbs, rfl⟩

theorem exists_mapM {α β : Type} {f : α → Option β} {l : List α} (h : ∀ a ∈ l, ∃ b, f a = some b) :
    ∃ r, l.mapM f = some r := by
  induction l with
  | nil => exact ⟨[], rfl⟩
  | cons a l ih =>
    obtain ⟨⟨b, hb⟩, hl⟩ := List.forall_mem_cons.mp h
    obtain ⟨r, hr⟩ := ih hl
    exact ⟨b :: r, mapM_eq_some_iff.mpr (.cons hb (mapM_eq_some_iff.mp hr))⟩

structure Loads (serverId : Int) (ini : Ini) (lines : List (List Int)) (p : HashPlan) : Prop where
  serverId_eq : p.serverId = serverId
  serverId_mem : 0 ≤ serverId ∧ serverId < lines.length
  dataFileCount : iniGetInt ini secHash (ascii "data_file_count") 0 = p.dataFileCount
  dataFileCount_pos : 0 < p.dataFileCount
  userFileCount : iniGetInt ini secHash (ascii "user_file_count") 0 = p.userFileCount
  userFileCount_pos : 0 < p.userFileCount
  data : bucketLoop (bucket ini) (List.range hashCount) (-1) = some p.data
  copyCount : iniGetInt ini secServer (ascii "copy_count") 0 = p.copyCount
  copyCount_mem : 0 < p.copyCount ∧ p.copyCount ≤ 3 ∧ p.copyCount ≤ lines.length
  serverCount : iniGetInt ini secServer (ascii "server_count") 0 = lines.length
  lines_eq : (List.range lines.length).mapM (serverFiles ini) = some lines
  inner : p.serverToInnerFile = lines.map (padTo p.dataFileCount)
  user : p.serverToInnerFile.mapM (fun src => userFiles src 0 (List.replicate p.userFileCount (-1)))
    = some p.serverToUserFile
  verify : ∀ i < p.dataFileCount, (verifyCounts lines).get? i = some p.copyCount
  size : (userFileToServer lines).entries.length = p.userFileCount
  files : (List.range p.userFileCount).mapM (fileServers (userFileToServer lines) p.copyCount)
    = some p.fileToServer
  consistent : p.isConsistent

theorem openIni_eq_some_iff {serverId : Int} {ini : Ini} {p : HashPlan} :
    openIni serverId ini = some p ↔ ∃ lines, Loads serverId ini lines p := by
  simp only [openIni, guard, Option.bind_eq_bind, Option.bind_eq_some_iff, Option.pure_def,
    Option.some.injEq, Option.failure_eq_none, Option.ite_none_right_eq_some, exists_const,
    List.all_eq_true, List.mem_range, decide_eq_true_eq, and_true]
  constructor
  · rintro ⟨hid, hd, hu, data, hdata, hc, ⟨hs, hcs, hc3, hids⟩, lines, hlines, user, huser, hverify,
      hsize, fileToServer, hfiles, hcons, rfl⟩
    have hlen : lines.length = (iniGetInt ini secServer (ascii "server_count") 0).toNat := by
      have := (mapM_eq_some_iff.mp hlines).length_eq
      simpa using this.symm
    exact ⟨lines,
      { serverId_eq := rfl
        serverId_mem := ⟨hid, by omega⟩
        dataFileCount := by dsimp only; omega
        dataFileCount_pos := by dsimp only; omega
        userFileCount := by dsimp only; omega
        userFileCount_pos := by dsimp only; omega
        data := hdata
        copyCount := by dsimp only; omega
        copyCount_mem := by dsimp only; omega
        serverCount := by omega
        lines_eq := by rw [hlen]; exact hlines
        inner := rfl
        user := huser
        verify := hverify
        size := hsize
        files := hfiles
        consistent := hcons }⟩
  · rintro ⟨lines, h⟩
    obtain ⟨data, dataFileCount, userFileCount, user, inner, fileToServer, copyCount, id⟩ := p
    obtain ⟨rfl, hid, hd, hd0, hu, hu0, hdata, hc, hc0, hs, hlines, hinner, huser, hverify, hsize,
      hfiles, hcons⟩ := h
    dsimp only at hd hd0 hu hu0 hdata hc hc0 hinner huser hverify hsize hfiles hcons hid
    subst hinner
    rw [hd, hu, hc, hs]
    simp only [Int.toNat_natCast]
    exact ⟨hid.1, by omega, by omega, data, hdata, by omega, by omega, lines, hlines, user, huser,
      hverify, hsize, fileToServer, hfiles, hcons, rfl⟩

/-! ### The maps of the verification -/

theorem filter_namedFiles (lines : List (List Int)) (i : Nat) :
    ((namedFiles lines).filter fun e => e.2 = (i : Int)).map Prod.fst = holders 0 lines (i : Int) := by
  have hboth : ∀ e : Nat × Int, (decide (e.2 = (i : Int)) && decide (0 ≤ e.2)) = decide (e.2 = (i : Int)) := by
    intro e
    by_cases he : e.2 = (i : Int)
    · simp [he]
    · simp [he]
  rw [namedFiles, List.filter_filter, holders]
  simp only [hboth]

theorem get?_userFileToServer (lines : List (List Int)) (i : Nat) :
    (userFileToServer lines).get? i
      = if holders 0 lines (i : Int) = [] then none else some (holders 0 lines (i : Int)) := by
  rw [userFileToServer, get?_foldl_note, filter_namedFiles, SortedMap.get?_empty, foldl_concat_none]

theorem get?_verifyCounts (lines : List (List Int)) (i : Nat) :
    (verifyCounts lines).get? i
      = if holders 0 lines (i : Int) = [] then none else some (holders 0 lines (i : Int)).length := by
  rw [verifyCounts, get?_foldl_note, filter_namedFiles, SortedMap.get?_empty, foldl_succ_none]

theorem get?_userFileToServer_neg (lines : List (List Int)) {n : Int} (hn : n < 0) :
    (userFileToServer lines).get? n = none := by
  have hnil : (namedFiles lines).filter (fun e => e.2 = n) = [] := by
    rw [List.filter_eq_nil_iff]
    intro e he
    have hpos := (List.mem_filter.mp he).2
    rw [decide_eq_true_eq] at hpos ⊢
    omega
  rw [userFileToServer, get?_foldl_note, hnil]
  rfl

theorem fileServers_eq_some_iff {lines : List (List Int)} {copyCount i : Nat} {ids : List Nat}
    (hpos : 0 < copyCount) :
    fileServers (userFileToServer lines) copyCount i = some ids
      ↔ ids = holders 0 lines (i : Int) ∧ ids.length = copyCount := by
  rw [fileServers, get?_userFileToServer]
  by_cases hnil : holders 0 lines (i : Int) = []
  · simp only [hnil, if_true]
    constructor
    · simp
    · rintro ⟨rfl, hlen⟩
      exact absurd hlen hpos.ne
  · simp only [hnil, if_false, Option.ite_none_right_eq_some, Option.some.injEq]
    constructor
    · rintro ⟨hlen, rfl⟩
      exact ⟨rfl, hlen⟩
    · rintro ⟨rfl, hlen⟩
      exact ⟨hlen, rfl⟩

/-! ### The loops -/

section

variable {get : Nat → Int} {indices : List Nat} {last : Int} {data : List Int}

theorem bucketLoop_cons {index : Nat} :
    bucketLoop get (index :: indices) last = some data
      ↔ ∃ v data', data = v :: data' ∧ 0 ≤ v ∧ v = (if get index < 0 then last else get index)
          ∧ bucketLoop get indices v = some data' := by
  rw [bucketLoop]
  by_cases hget : get index < 0
  · simp only [hget, if_true, Option.ite_none_left_eq_some, Option.map_eq_some_iff]
    constructor
    · rintro ⟨hlast, data', h, rfl⟩
      exact ⟨last, data', rfl, by omega, rfl, h⟩
    · rintro ⟨v, data', rfl, hv, rfl, h⟩
      exact ⟨by omega, data', h, rfl⟩
  · simp only [hget, if_false, Option.map_eq_some_iff]
    constructor
    · rintro ⟨data', h, rfl⟩
      exact ⟨get index, data', rfl, by omega, rfl, h⟩
    · rintro ⟨v, data', rfl, -, rfl, h⟩
      exact ⟨data', h, rfl⟩

theorem length_bucketLoop (h : bucketLoop get indices last = some data) :
    data.length = indices.length := by
  induction indices generalizing last data with
  | nil =>
    cases h
    rfl
  | cons index indices ih =>
    obtain ⟨v, data', rfl, -, -, h⟩ := bucketLoop_cons.mp h
    simp [ih h]

theorem bucketLoop_nonneg (h : bucketLoop get indices last = some data) : ∀ v ∈ data, 0 ≤ v := by
  induction indices generalizing last data with
  | nil =>
    cases h
    simp
  | cons index indices ih =>
    obtain ⟨v, data', rfl, hv, -, h⟩ := bucketLoop_cons.mp h
    exact List.forall_mem_cons.mpr ⟨hv, ih h⟩

theorem bucketLoop_lt_iff {bound : Int} (hbound : 0 < bound) (hlast : last < bound)
    (h : bucketLoop get indices last = some data) :
    (∀ v ∈ data, v < bound) ↔ ∀ i ∈ indices, get i < bound := by
  induction indices generalizing last data with
  | nil =>
    cases h
    simp
  | cons index indices ih =>
    obtain ⟨v, data', rfl, -, hv, h⟩ := bucketLoop_cons.mp h
    have hiff : v < bound ↔ get index < bound := by
      rw [hv]
      split_ifs
      · exact ⟨fun _ => by omega, fun _ => hlast⟩
      · rfl
    rw [List.forall_mem_cons, List.forall_mem_cons, ← hiff]
    exact and_congr_right fun hlt => ih hlt h

end

section

variable {src dst dst' : List Int} {j : Nat}

theorem userFiles_cons {n : Int} :
    userFiles (n :: src) j dst = some dst'
      ↔ n < dst.length
          ∧ userFiles src (j + 1) (if 0 ≤ n then dst.set n.toNat j else dst) = some dst' := by
  rw [userFiles]
  by_cases hn : 0 ≤ n
  · simp [hn]
  · have hlt : n < dst.length := by omega
    simp [hn, hlt]

theorem length_userFiles (h : userFiles src j dst = some dst') : dst'.length = dst.length := by
  induction src generalizing j dst with
  | nil =>
    cases h
    rfl
  | cons n src ih =>
    rw [ih (userFiles_cons.mp h).2]
    split_ifs
    · exact List.length_set
    · rfl

theorem exists_userFiles_iff :
    (∃ dst', userFiles src j dst = some dst') ↔ ∀ n ∈ src, n < dst.length := by
  induction src generalizing j dst with
  | nil => simp [userFiles]
  | cons n src ih =>
    have hlen : (if 0 ≤ n then dst.set n.toNat j else dst).length = dst.length := by
      split_ifs
      · exact List.length_set
      · rfl
    simp only [userFiles_cons, exists_and_left, List.forall_mem_cons, ih, hlen]

theorem userFiles_of_notMem {i : Nat} (h : userFiles src j dst = some dst') (hi : (i : Int) ∉ src) :
    dst'[i]? = dst[i]? := by
  induction src generalizing j dst with
  | nil =>
    cases h
    rfl
  | cons n src ih =>
    rw [List.mem_cons, not_or] at hi
    rw [ih (userFiles_cons.mp h).2 hi.2]
    split_ifs with hn
    · exact List.getElem?_set_ne (by omega)
    · rfl

theorem userFiles_of_mem {i : Nat} (h : userFiles src j dst = some dst') (hi : (i : Int) ∈ src) :
    ∃ k, dst'[i]? = some ((j + k : Nat) : Int) ∧ src[k]? = some (i : Int) := by
  induction src generalizing j dst with
  | nil => simp at hi
  | cons n src ih =>
    obtain ⟨hlt, h⟩ := userFiles_cons.mp h
    by_cases hrest : (i : Int) ∈ src
    · obtain ⟨k, hk, hsrc⟩ := ih h hrest
      refine ⟨k + 1, ?_, hsrc⟩
      rw [hk]
      congr 2
      omega
    · have hn : n = i := by simpa [hrest, eq_comm] using hi
      subst hn
      refine ⟨0, ?_, rfl⟩
      rw [userFiles_of_notMem h hrest, if_pos (Int.natCast_nonneg i), Int.toNat_natCast,
        List.getElem?_set_self (by omega)]
      rfl

end

theorem isConsistent_of_tables {p : HashPlan} {lines : List (List Int)}
    (hinner : p.serverToInnerFile = lines.map (padTo p.dataFileCount))
    (huser : p.serverToInnerFile.mapM
      (fun src => userFiles src 0 (List.replicate p.userFileCount (-1))) = some p.serverToUserFile)
    (hfiles : p.fileToServer = (List.range p.userFileCount).map fun i : Nat => holders 0 lines (i : Int))
    (hcopies : ∀ i < p.userFileCount, (holders 0 lines (i : Int)).length = p.copyCount) :
    p.isConsistent := by
  rw [HashPlan.isConsistent, List.all_eq_true]
  intro i hi
  rw [List.mem_range] at hi
  have hget : p.fileToServer[i]? = some (holders 0 lines (i : Int)) := by
    rw [hfiles, List.getElem?_map, List.getElem?_range hi]
    rfl
  simp only [hget, Bool.and_eq_true, decide_eq_true_eq, List.all_eq_true]
  refine ⟨hcopies i hi, fun sid hsid => ?_⟩
  obtain ⟨line, k, rfl, hline, hmem⟩ := mem_holders_iff.mp hsid
  rw [Nat.zero_add]
  have hifids : p.serverToInnerFile[k]? = some (padTo p.dataFileCount line) := by
    rw [hinner, List.getElem?_map, hline]
    rfl
  have hall := List.forall₂_iff_get.mp (mapM_eq_some_iff.mp huser)
  obtain ⟨hlt, hrow⟩ := List.getElem?_eq_some_iff.mp hifids
  have hlt' : k < p.serverToUserFile.length := by
    rw [← hall.1]
    exact hlt
  have hturned := hall.2 k hlt hlt'
  simp only [List.get_eq_getElem, hrow] at hturned
  obtain ⟨j, hj, hsrc⟩ := userFiles_of_mem hturned (List.mem_append_left _ hmem)
  rw [Nat.zero_add] at hj
  simp [HashPlan.isHeldBy, hifids, List.getElem?_eq_getElem hlt', hj, hsrc]

/-! ### Consequences -/

theorem atoi_of_fileId {item : Bytes} {n : Int} (h : fileId item = some n) : n = atoi item := by
  unfold fileId at h
  split_ifs at h with hneg
  · subst hneg
    cases h
    decide
  · cases item with
    | nil => simp at h
    | cons b rest =>
      simp only [Option.ite_none_right_eq_some, Option.some.injEq] at h
      exact h.2.symm

theorem exists_of_serverFiles {ini : Ini} {i : Nat} {files : List Int}
    (h : serverFiles ini i = some files) :
    ∃ s, iniGetString ini secServer (serverKey i) = some s ∧ files = (toVector s).map atoi := by
  unfold serverFiles at h
  cases hs : iniGetString ini secServer (serverKey i) with
  | none => simp [hs] at h
  | some s =>
    simp only [hs, Option.ite_none_left_eq_some] at h
    refine ⟨s, rfl, ?_⟩
    have hall := mapM_eq_some_iff.mp h.2
    rw [← List.forall₂_eq_eq_eq, List.forall₂_map_right_iff]
    exact hall.flip.imp fun n item hn => atoi_of_fileId hn

namespace Loads

variable {serverId : Int} {ini : Ini} {lines : List (List Int)} {p : HashPlan}

section

variable (h : Loads serverId ini lines p)
include h

theorem line {i : Nat} (hi : i < lines.length) :
    serverFiles ini i = some (lines.get ⟨i, hi⟩) := by
  have hall := (List.forall₂_iff_get.mp (mapM_eq_some_iff.mp h.lines_eq)).2
  simpa using hall i (by simpa using hi) hi

theorem fileToServer :
    p.fileToServer = (List.range p.userFileCount).map fun i : Nat => holders 0 lines (i : Int) := by
  have hall := mapM_eq_some_iff.mp h.files
  rw [← List.forall₂_eq_eq_eq, List.forall₂_map_right_iff]
  exact hall.flip.imp fun ids i hids => ((fileServers_eq_some_iff h.copyCount_mem.1).mp hids).1

theorem length_holders_eq {i : Nat} (hi : i < p.userFileCount) :
    (holders 0 lines (i : Int)).length = p.copyCount := by
  have hall := (List.forall₂_iff_get.mp (mapM_eq_some_iff.mp h.files)).2
  have hlen : i < p.fileToServer.length := by
    rw [h.fileToServer]
    simpa using hi
  have hids := (fileServers_eq_some_iff h.copyCount_mem.1).mp (hall i (by simpa using hi) hlen)
  simp only [List.get_eq_getElem, List.getElem_range] at hids
  rw [← hids.1, hids.2]

theorem length_inner : p.serverToInnerFile.length = lines.length := by
  rw [h.inner, List.length_map]

theorem length_user : p.serverToUserFile.length = lines.length := by
  rw [← (mapM_eq_some_iff.mp h.user).length_eq, h.length_inner]

theorem user_get {i : Nat} {ids : List Int}
    (hi : p.serverToUserFile[i]? = some ids) : ids.length = p.userFileCount := by
  obtain ⟨hlt, rfl⟩ := List.getElem?_eq_some_iff.mp hi
  have hall := List.forall₂_iff_get.mp (mapM_eq_some_iff.mp h.user)
  have huser := length_userFiles (hall.2 i (by rw [hall.1]; exact hlt) hlt)
  simpa using huser

theorem file_lt {l : List Int} (hl : l ∈ lines) :
    ∀ n ∈ l, n < p.userFileCount := by
  intro n hn
  obtain ⟨i, hi, rfl⟩ := List.getElem_of_mem hl
  have hall := List.forall₂_iff_get.mp (mapM_eq_some_iff.mp h.user)
  have hinner : i < p.serverToInnerFile.length := by
    rw [h.length_inner]
    exact hi
  have hlt := exists_userFiles_iff.mp ⟨_, hall.2 i hinner (by rw [← hall.1]; exact hinner)⟩ n (by
    simp only [h.inner, List.get_eq_getElem, List.getElem_map, padTo]
    exact List.mem_append_left _ hn)
  simpa using hlt

end

end Loads

end HustStore.KeyHash
