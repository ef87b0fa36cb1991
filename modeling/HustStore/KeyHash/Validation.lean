import HustStore.KeyHash.Plan

/-!
# What the verification of a hash plan leaves open

A configuration is counted before it is taken, but not everything is counted. A bucket may name a file that
there is not, and a server that lists a file twice counts for two copies of it.
-/

namespace HustStore.KeyHash

open Appini Incidence

namespace HashPlan

structure Valid (p : HashPlan) : Prop where
  length_data : p.data.length = hashCount
  buckets : ∀ v ∈ p.data, 0 ≤ v ∧ v < p.userFileCount
  length_files : p.fileToServer.length = p.userFileCount
  copies : ∀ ids ∈ p.fileToServer, ids.length = p.copyCount ∧ ids.Nodup
  servers : ∀ ids ∈ p.fileToServer, ∀ sid ∈ ids, sid < p.serverToInnerFile.length

def Inside (p : HashPlan) (r : Routed) : Prop :=
  0 ≤ r.file ∧ r.file < p.fileToServer.length ∧
    ∃ pfids, p.serverToUserFile[p.serverId.toNat]? = some pfids ∧ r.file < pfids.length ∧
      (p.serverId.toNat ∈ p.fileToServer.getD r.file.toNat [] →
        0 ≤ r.localFile ∧ ∃ ifids, p.serverToInnerFile[p.serverId.toNat]? = some ifids ∧
          ifids[r.localFile.toNat]? = some r.file)

def Finds (p : HashPlan) (out : Option Routed) : Prop := ∃ r, out = some r ∧ p.Inside r

end HashPlan

structure Checked (ini : Ini) : Prop where
  buckets : ∀ k < hashCount, bucket ini k < iniGetInt ini secHash (ascii "user_file_count") 0
  lines : ∀ i < (iniGetInt ini secServer (ascii "server_count") 0).toNat, ∀ s,
    iniGetString ini secServer (serverKey i) = some s → (((toVector s).map atoi).filter fun n => 0 ≤ n).Nodup

namespace Loads

variable {serverId : Int} {ini : Ini} {lines : List (List Int)} {p : HashPlan}

section

variable (h : Loads serverId ini lines p)
include h

theorem length_data : p.data.length = hashCount := by
  rw [length_bucketLoop h.data, List.length_range]

theorem buckets_iff : (∀ v ∈ p.data, 0 ≤ v ∧ v < p.userFileCount)
      ↔ ∀ k < hashCount, bucket ini k < iniGetInt ini secHash (ascii "user_file_count") 0 := by
  have hpos := h.userFileCount_pos
  have hiff := bucketLoop_lt_iff (show (0 : Int) < p.userFileCount by omega) (by omega) h.data
  simp only [List.mem_range] at hiff
  rw [h.userFileCount, ← hiff]
  exact ⟨fun hall v hv => (hall v hv).2, fun hall v hv => ⟨bucketLoop_nonneg h.data v hv, hall v hv⟩⟩

theorem length_files : p.fileToServer.length = p.userFileCount := by
  rw [h.fileToServer, List.length_map, List.length_range]

theorem fileToServer_get {i : Nat} (hi : i < p.userFileCount) :
    p.fileToServer[i]? = some (holders 0 lines (i : Int)) := by
  rw [h.fileToServer, List.getElem?_map, List.getElem?_range hi]
  rfl

variable {ids : List Nat}

theorem mem_fileToServer_iff : ids ∈ p.fileToServer ↔ ∃ i < p.userFileCount, holders 0 lines (i : Int) = ids := by
  rw [h.fileToServer]
  simp

theorem copies_length (hids : ids ∈ p.fileToServer) : ids.length = p.copyCount := by
  obtain ⟨i, hi, rfl⟩ := h.mem_fileToServer_iff.mp hids
  exact h.length_holders_eq hi

theorem servers_lt (hids : ids ∈ p.fileToServer) : ∀ sid ∈ ids, sid < p.serverToInnerFile.length := by
  intro sid hsid
  obtain ⟨i, -, rfl⟩ := h.mem_fileToServer_iff.mp hids
  obtain ⟨line, k, rfl, hline, -⟩ := mem_holders_iff.mp hsid
  obtain ⟨hlt, -⟩ := List.getElem?_eq_some_iff.mp hline
  rw [h.length_inner]
  omega

theorem nodup_iff : (∀ ids ∈ p.fileToServer, ids.Nodup) ↔ ∀ line ∈ lines, (line.filter fun n => 0 ≤ n).Nodup := by
  constructor
  · intro hall line hline
    rw [List.nodup_iff_count_le_one]
    intro n
    by_cases hn : n ∈ line.filter fun n => 0 ≤ n
    · rw [List.mem_filter, decide_eq_true_eq] at hn
      have hlt := h.file_lt hline n hn.1
      have hnodup := hall _ (h.mem_fileToServer_iff.mpr ⟨n.toNat, by omega, rfl⟩)
      rw [Int.toNat_of_nonneg hn.2, nodup_holders_iff] at hnodup
      exact (List.filter_sublist.count_le n).trans (hnodup line hline)
    · rw [List.count_eq_zero.mpr hn]
      exact Nat.zero_le 1
  · intro hall ids hids
    obtain ⟨i, -, rfl⟩ := h.mem_fileToServer_iff.mp hids
    rw [nodup_holders_iff]
    intro line hline
    have hcount := List.nodup_iff_count_le_one.mp (hall line hline) i
    rwa [List.count_filter (by simp)] at hcount

theorem forall_lines_iff (Q : List Int → Prop) : (∀ line ∈ lines, Q line)
      ↔ ∀ i < (iniGetInt ini secServer (ascii "server_count") 0).toNat, ∀ s,
          iniGetString ini secServer (serverKey i) = some s → Q ((toVector s).map atoi) := by
  rw [h.serverCount, Int.toNat_natCast]
  constructor
  · intro hall i hi s hs
    obtain ⟨s', hs', hline⟩ := exists_of_serverFiles (h.line hi)
    rw [hs, Option.some.injEq] at hs'
    subst hs'
    rw [← hline]
    exact hall _ (List.get_mem lines ⟨i, hi⟩)
  · intro hall line hline
    obtain ⟨i, hi, rfl⟩ := List.getElem_of_mem hline
    obtain ⟨s, hs, heq⟩ := exists_of_serverFiles (h.line hi)
    rw [List.get_eq_getElem] at heq
    rw [heq]
    exact hall i hi s hs

theorem valid_iff : p.Valid ↔ Checked ini := by
  have hlines := h.forall_lines_iff fun line => (line.filter fun n => 0 ≤ n).Nodup
  constructor
  · intro hvalid
    exact ⟨h.buckets_iff.mp hvalid.buckets, hlines.mp (h.nodup_iff.mp fun ids hids => (hvalid.copies ids hids).2)⟩
  · intro hchecked
    have hnodup := h.nodup_iff.mpr (hlines.mpr hchecked.lines)
    exact ⟨h.length_data, h.buckets_iff.mpr hchecked.buckets, h.length_files,
      fun ids hids => ⟨h.copies_length hids, hnodup ids hids⟩, fun ids hids => h.servers_lt hids⟩

theorem isHeldBy {i sid : Nat} (hi : i < p.userFileCount)
    (hsid : sid ∈ holders 0 lines (i : Int)) : p.isHeldBy i sid := by
  have hall := List.all_eq_true.mp h.consistent i (List.mem_range.mpr hi)
  simp only [h.fileToServer_get hi, Bool.and_eq_true, List.all_eq_true] at hall
  exact hall.2 sid hsid

theorem serverId_eq_natCast : p.serverId = (p.serverId.toNat : Int) := by
  have := h.serverId_mem
  rw [h.serverId_eq]
  omega

theorem exists_userTable :
    ∃ pfids, p.serverToUserFile[p.serverId.toNat]? = some pfids ∧ pfids.length = p.userFileCount := by
  have hid : p.serverId.toNat < p.serverToUserFile.length := by
    have := h.serverId_mem
    rw [h.length_user, h.serverId_eq]
    omega
  exact ⟨_, List.getElem?_eq_getElem hid, h.user_get (List.getElem?_eq_getElem hid)⟩

theorem localFile_inside {n : Nat} (hn : n < p.userFileCount) (hmem : p.serverId.toNat ∈ holders 0 lines (n : Int)) :
    0 ≤ p.localFile n ∧ ∃ ifids, p.serverToInnerFile[p.serverId.toNat]? = some ifids ∧
      ifids[(p.localFile n).toNat]? = some (n : Int) := by
  obtain ⟨pfids, hpfids, hlen⟩ := h.exists_userTable
  have hget := List.getElem?_eq_getElem (show n < pfids.length by omega)
  have hnumber : p.localFile n = pfids[n] := by
    simp only [HashPlan.localFile, hpfids, Int.toNat_natCast, List.getD_eq_getElem?_getD, hget, Option.getD_some]
  have hheld := h.isHeldBy hn hmem
  cases hifids : p.serverToInnerFile[p.serverId.toNat]? with
  | none => simp [HashPlan.isHeldBy, hpfids, hifids] at hheld
  | some ifids =>
    simp only [HashPlan.isHeldBy, hpfids, hifids, hget, Bool.and_eq_true, decide_eq_true_eq] at hheld
    rw [hnumber]
    exact ⟨hheld.1, ifids, rfl, hheld.2⟩

theorem exists_route {v : Int} (hv : 0 ≤ v ∧ v < p.userFileCount) :
    p.Finds (p.route v) := by
  obtain ⟨n, rfl⟩ := Int.eq_ofNat_of_zero_le hv.1
  have hn : n < p.userFileCount := by omega
  obtain ⟨pfids, hpfids, hlen⟩ := h.exists_userTable
  have hservers : p.fileToServer.getD n [] = holders 0 lines (n : Int) := by
    rw [List.getD_eq_getElem?_getD, h.fileToServer_get hn, Option.getD_some]
  have hnot : ¬((n : Int) < 0 ∨ (n : Int) ≥ p.fileToServer.length) := by
    rw [h.length_files]
    omega
  refine ⟨_, if_neg hnot, hv.1, ?_, pfids, hpfids, ?_, ?_⟩
  · rw [h.length_files]
    exact hv.2
  · rw [hlen]
    exact hv.2
  · dsimp only
    rw [Int.toNat_natCast, hservers]
    intro hmem
    have hlocal := h.serverId_eq_natCast
    rw [if_pos]
    · exact h.localFile_inside hn hmem
    · rw [List.any_eq_true]
      refine ⟨_, hmem, ?_⟩
      rw [Bool.and_eq_true, decide_eq_true_eq, decide_eq_true_eq]
      exact ⟨by omega, hlocal⟩

theorem finds_bucket (hchecked : Checked ini) (n : Nat) :
    p.Finds ((p.data[n % hashCount]?).bind p.route) := by
  have hlt : n % hashCount < p.data.length := by
    rw [h.length_data]
    exact Nat.mod_lt _ (by decide)
  rw [List.getElem?_eq_getElem hlt, Option.bind_some]
  exact h.exists_route (h.buckets_iff.mpr hchecked.buckets _ (List.getElem_mem hlt))

end

end Loads

/-! ### Configurations that are taken -/

theorem bucketLoop_of_neg {get : Nat → Int} {indices : List Nat} {last : Int} (hlast : 0 ≤ last)
    (h : ∀ i ∈ indices, get i < 0) :
    bucketLoop get indices last = some (List.replicate indices.length last) := by
  induction indices with
  | nil => rfl
  | cons index indices ih =>
    rw [List.forall_mem_cons] at h
    rw [bucketLoop_cons]
    exact ⟨last, _, rfl, hlast, (if_pos h.1).symm, ih h.2⟩

theorem bucketLoop_single {get : Nat → Int} (hfirst : 0 ≤ get 0) (h : ∀ k, 0 < k → k < hashCount → get k < 0) :
    bucketLoop get (List.range hashCount) (-1) = some (List.replicate hashCount (get 0)) := by
  have hrange : List.range hashCount = 0 :: (List.range (hashCount - 1)).map Nat.succ :=
    List.range_succ_eq_map
  rw [hrange, bucketLoop_cons]
  refine ⟨get 0, List.replicate (hashCount - 1) (get 0), rfl, hfirst, (if_neg (by omega)).symm, ?_⟩
  have hrest := @bucketLoop_of_neg get ((List.range (hashCount - 1)).map Nat.succ) (get 0) hfirst (by
      intro i hi
      obtain ⟨k, hk, rfl⟩ := List.mem_map.mp hi
      exact h (k + 1) (Nat.succ_pos k) (Nat.add_lt_of_lt_sub (List.mem_range.mp hk)))
  rwa [List.length_map, List.length_range] at hrest

def soleFile (count file : Bytes) : Section :=
  ⟨secHash, [⟨ascii "data_file_count", count⟩, ⟨ascii "user_file_count", count⟩, ⟨ascii "0", file⟩]⟩

theorem bucket_soleFile {count file : Bytes} {ini : Ini} {k : Nat} (hpos : 0 < k) (hk : k < hashCount) :
    bucket (soleFile count file :: ini) k = -1 := by
  have hfind : (soleFile count file :: ini).find? (fun s => sameName s.name secHash) = some (soleFile count file) :=
    List.find?_cons_of_pos (show sameName secHash secHash by decide)
  have hdata := sameName_printD_of_notDigit (show ∃ b ∈ ascii "data_file_count", ¬Decimal.isDigit (toLower b)
    from ⟨100, by decide, by decide⟩) k
  have huser := sameName_printD_of_notDigit (show ∃ b ∈ ascii "user_file_count", ¬Decimal.isDigit (toLower b)
    from ⟨117, by decide, by decide⟩) k
  have hzero : sameName (ascii "0") (printD k) = false := by
    have hwidth : hashCount < 10 ^ 10 := by decide
    rw [show ascii "0" = printD (0 : Nat) by decide, sameName_printD (by decide) (by omega)]
    simpa using hpos.ne
  rw [bucket, iniGetInt, iniGetString, hfind]
  simp [iniFindInSection, soleFile, hdata, huser, hzero]

theorem bucketLoop_soleFile {count file : Bytes} {ini : Ini} {n : Nat} (h : bucket (soleFile count file :: ini) 0 = n) :
    bucketLoop (bucket (soleFile count file :: ini)) (List.range hashCount) (-1)
      = some (List.replicate hashCount (n : Int)) := by
  rw [← h]
  refine bucketLoop_single (by omega) fun k hpos hk => ?_
  rw [bucket_soleFile hpos hk]
  decide

theorem openIni_soleFile {count val : Bytes} {servers : Section} {l : List (List Int)} {p : HashPlan}
    (hdata : bucketLoop (bucket [soleFile count val, servers]) (List.range hashCount) (-1) = some p.data)
    (h : (0 ≤ p.serverId ∧ p.serverId < l.length)
      ∧ (iniGetInt [soleFile count val, servers] secHash (ascii "data_file_count") 0 = p.dataFileCount
        ∧ 0 < p.dataFileCount)
      ∧ (iniGetInt [soleFile count val, servers] secHash (ascii "user_file_count") 0 = p.userFileCount
        ∧ 0 < p.userFileCount)
      ∧ (iniGetInt [soleFile count val, servers] secServer (ascii "copy_count") 0 = p.copyCount
        ∧ 0 < p.copyCount ∧ p.copyCount ≤ 3 ∧ p.copyCount ≤ l.length)
      ∧ (iniGetInt [soleFile count val, servers] secServer (ascii "server_count") 0 = l.length
        ∧ (List.range l.length).mapM (serverFiles [soleFile count val, servers]) = some l)
      ∧ p.serverToInnerFile = l.map (padTo p.dataFileCount)
      ∧ p.serverToInnerFile.mapM (fun src => userFiles src 0 (List.replicate p.userFileCount (-1)))
        = some p.serverToUserFile
      ∧ (∀ i < p.dataFileCount, (verifyCounts l).get? i = some p.copyCount)
      ∧ (userFileToServer l).entries.length = p.userFileCount
      ∧ (List.range p.userFileCount).mapM (fileServers (userFileToServer l) p.copyCount) = some p.fileToServer
      ∧ p.isConsistent) : openIni p.serverId [soleFile count val, servers] = some p := by
  obtain ⟨hid, ⟨hd, hdpos⟩, ⟨hu, hupos⟩, ⟨hc, hcmem⟩, ⟨hs, hlines⟩, hinner, huser, hverify, hsize, hfiles, hcons⟩ := h
  exact openIni_eq_some_iff.mpr ⟨l, rfl, hid, hd, hdpos, hu, hupos, hdata, hc, hcmem, hs, hlines, hinner, huser,
    hverify, hsize, hfiles, hcons⟩

/-- A plan that is opened is valid and routes a key exactly when the configuration passes the checks
that the verification leaves out and the key has the word that `hash_md5db` reads. -/
theorem open_is_valid_iff {serverId : Int} {text key : Bytes} {ini : Ini} {p : HashPlan}
    (hini : iniOpen2 text = some ini) (hopen : openMemory serverId text = some p) :
    p.Valid ∧ p.Finds (p.hashWithCluster key) ∧ p.Finds (p.hashWithMd5db key) ↔ Checked ini ∧ 8 ≤ key.length := by
  rw [openMemory, hini, Option.bind_some, openIni_eq_some_iff] at hopen
  obtain ⟨lines, h⟩ := hopen
  constructor
  · rintro ⟨hvalid, -, r, hr, -⟩
    refine ⟨h.valid_iff.mp hvalid, ?_⟩
    by_contra hshort
    rw [HashPlan.hashWithMd5db, HashPlan.hashMd5db, if_pos (by omega)] at hr
    cases hr
  · rintro ⟨hchecked, hlen⟩
    refine ⟨h.valid_iff.mpr hchecked, h.finds_bucket hchecked _, ?_⟩
    rw [HashPlan.hashWithMd5db, HashPlan.hashMd5db, if_neg (by omega)]
    exact h.finds_bucket hchecked _

def soundText : Bytes :=
  ascii "[hash]\ndata_file_count = 2\nuser_file_count = 2\n0 = 1\n[server]\nserver_count = 2\n"
    ++ ascii "copy_count = 2\nserver_0 = 0,1\nserver_1 = 0,1\n"

def soundIni : Ini :=
  [soleFile (ascii "2") (ascii "1"), ⟨secServer, [⟨ascii "server_count", ascii "2"⟩, ⟨ascii "copy_count", ascii "2"⟩,
      ⟨ascii "server_0", ascii "0,1"⟩, ⟨ascii "server_1", ascii "0,1"⟩]⟩]

def soundPlan : HashPlan :=
  ⟨List.replicate hashCount 1, 2, 2, [[0, 1], [0, 1]], [[0, 1], [0, 1]], [[0, 1], [0, 1]], 2, 1⟩

theorem soundText_opens :
    iniOpen2 soundText = some soundIni ∧ openMemory 1 soundText = some soundPlan ∧ Checked soundIni := by
  have hini : iniOpen2 soundText = some soundIni := by decide +kernel
  refine ⟨hini, ?_, ?_⟩
  · rw [openMemory, hini, Option.bind_some]
    exact openIni_soleFile (p := soundPlan) (l := [[0, 1], [0, 1]]) (bucketLoop_soleFile (by decide +kernel))
      (by decide +kernel)
  obtain ⟨hfiles, hfirst, hservers, htext⟩ :
      iniGetInt soundIni secHash (ascii "user_file_count") 0 = 2 ∧ bucket soundIni 0 = 1
        ∧ iniGetInt soundIni secServer (ascii "server_count") 0 = 2
        ∧ ∀ i < 2, iniGetString soundIni secServer (serverKey i) = some (ascii "0,1") := by
    decide +kernel
  constructor
  · intro k hk
    rw [hfiles]
    by_cases hpos : 0 < k
    · rw [soundIni, bucket_soleFile hpos hk]
      decide
    · rw [show k = 0 by omega, hfirst]
      decide
  · intro i hi s hs
    rw [hservers] at hi
    rw [htext i hi] at hs
    cases hs
    decide

theorem open_is_valid_small : soundPlan.Valid ∧ soundPlan.Finds (soundPlan.hashWithCluster (ascii "12345678"))
      ∧ soundPlan.Finds (soundPlan.hashWithMd5db (ascii "12345678")) :=
  (open_is_valid_iff soundText_opens.1 soundText_opens.2.1).mpr ⟨soundText_opens.2.2, by decide⟩

def unsoundText : Bytes :=
  ascii "[hash]\ndata_file_count = 1\nuser_file_count = 1\n0 = 7\n[server]\nserver_count = 2\n"
    ++ ascii "copy_count = 2\nserver_0 = 0, 0\nserver_1 = -1\n"

def unsoundPlan : HashPlan :=
  ⟨List.replicate hashCount 7, 1, 1, [[1], [-1]], [[0, 0], [-1]], [[0, 0]], 2, 1⟩

theorem openMemory_unsoundText : openMemory 1 unsoundText = some unsoundPlan := by
  have hini : iniOpen2 unsoundText = some [soleFile (ascii "1") (ascii "7"),
      ⟨secServer, [⟨ascii "server_count", ascii "2"⟩, ⟨ascii "copy_count", ascii "2"⟩,
        ⟨ascii "server_0", ascii "0, 0"⟩, ⟨ascii "server_1", ascii "-1"⟩]⟩] := by decide +kernel
  rw [openMemory, hini, Option.bind_some]
  exact openIni_soleFile (p := unsoundPlan) (l := [[0, 0], [-1]]) (bucketLoop_soleFile (by decide +kernel))
      (by decide +kernel)

/-- A plan is opened although no key has a file in it and the copies of its file are not apart. -/
theorem unsound_plan_is_opened : openMemory 1 unsoundText = some unsoundPlan
      ∧ unsoundPlan.hashWithCluster (ascii "k") = none
      ∧ unsoundPlan.fileToServer = [[0, 0]] ∧ unsoundPlan.copyCount = 2 := by
  refine ⟨openMemory_unsoundText, ?_, rfl, rfl⟩
  have hlt : HashPlan.hashOf (ascii "k") % hashCount < hashCount := Nat.mod_lt _ (by decide)
  rw [HashPlan.hashWithCluster, HashPlan.hashNoMd5db, unsoundPlan, List.getElem?_replicate_of_lt hlt]
  rfl

end HustStore.KeyHash
