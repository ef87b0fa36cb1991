import HustStore.KeyHash.SavedText

/-!
# A saved hash plan is opened again

The text of a new plan is read back by every server, unless the tables of the reader are too small for it or a
server has no file. The reader holds 64 items a section.
-/

namespace HustStore.KeyHash

open Appini Incidence Deal RunLength

def HashPlan.SameServers (p q : HashPlan) : Prop :=
  q.fileToServer.length = p.userFileCount ∧
    ∀ i < p.userFileCount, ∃ ids, q.fileToServer[i]? = some ids ∧ ids.length = p.copyCount ∧ ids.Nodup ∧
      ∀ sid, sid ∈ ids ↔ ∃ files, p.serverToInnerFile[sid]? = some files ∧ (i : Int) ∈ files

def HashPlan.RoundTrips (p : HashPlan) : Prop :=
  ∃ text, saveMemory p = some text ∧ ∀ serverId : Nat, serverId < p.serverToInnerFile.length →
    ∃ q, openMemory serverId text = some q ∧ q.data = p.data ∧ p.SameServers q

namespace Created

variable {files servers copies : Nat} {p : HashPlan}

section

variable (h : Created files servers copies p)
include h

theorem printable (hfiles : files < 2 ^ 31)
    (hservers : servers < 2 ^ 31) : Printable p where
  length_data := by rw [h.data, length_bucketFiles]
  data v hv := by
    rw [h.data] at hv
    have := mem_bucketFiles h.files_pos hv
    omega
  dataFileCount := by
    have := h.dataFileCount_le
    omega
  userFileCount := by
    rw [h.userFileCount]
    exact hfiles
  copyCount := by
    have := h.copies_le
    rw [h.copyCount]
    omega
  length_inner := by rw [h.length_inner, h.length_user]
  servers := by
    rw [h.length_user]
    exact hservers
  inner ids hids n hn := by
    have := h.file_mem hids n hn
    omega

theorem saveMemory_eq :
    saveMemory p = some ((saveLines p).flatMap fun line => line ++ [10]) := by
  have hd := h.dataFileCount_pos
  have hf := h.files_pos
  have hs := h.servers_pos
  have hc := h.copies_pos
  have hc3 := h.copies_le
  have hdata : p.data ≠ [] := by
    rw [h.data, ← List.length_pos_iff, length_bucketFiles]
    decide
  have huser : p.serverToUserFile ≠ [] := by
    rw [← List.length_pos_iff, h.length_user]
    exact hs
  rw [saveMemory, if_neg]
  rw [h.userFileCount, h.copyCount]
  simp only [hdata, huser, false_or, not_or]
  omega

theorem length_starts :
    (starts (-1) 0 p.data).length = if files ≤ hashCount then files else 1 := by
  rw [h.data, length_starts_bucketFiles h.files_pos]

theorem openIni_eq_none (hp : Printable p)
    (hidle : files * copies < servers) (serverId : Int) : openIni serverId (savedIni p) = none := by
  cases hopen : openIni serverId (savedIni p) with
  | none => rfl
  | some q =>
    obtain ⟨lines, hloads⟩ := openIni_eq_some_iff.mp hopen
    have hlen : lines.length = servers := by
      have hcount := hloads.serverCount
      rw [getInt_serverCount hp, h.length_user] at hcount
      exact_mod_cast hcount.symm
    have hrow : p.serverToInnerFile[files * copies]? = some [] := by
      rw [h.row hidle, (row_eq_nil_iff hidle).mpr (Nat.le_refl _)]
    have hline := hloads.line (show files * copies < lines.length by omega)
    rw [serverFiles_savedIni_nil hp hrow] at hline
    cases hline

theorem length_userFileToServer :
    (userFileToServer p.serverToInnerFile).entries.length = files := by
  have hkeys : ∀ n : Int, n ∈ fileIds files ↔ ∃ ids, (userFileToServer p.serverToInnerFile).get? n = some ids := by
    intro n
    rw [mem_fileIds]
    by_cases hn : n < 0
    · rw [get?_userFileToServer_neg _ hn]
      simp [hn]
    · obtain ⟨i, rfl⟩ := Int.eq_ofNat_of_zero_le (show 0 ≤ n by omega)
      rw [get?_userFileToServer]
      constructor
      · rintro ⟨-, hi⟩
        have hlen := h.length_holders_inner (show i < files by omega)
        refine ⟨_, if_neg fun hnil => ?_⟩
        rw [hnil] at hlen
        exact h.copies_pos.ne hlen
      · rintro ⟨ids, hids⟩
        simp only [Option.ite_none_left_eq_some] at hids
        obtain ⟨sid, hsid⟩ := List.exists_mem_of_ne_nil _ hids.1
        obtain ⟨row, k, -, hrow, hmem⟩ := mem_holders_iff.mp hsid
        exact h.file_mem (List.mem_of_getElem? hrow) _ hmem
  rw [SortedMap.length_entries (nodup_fileIds files) hkeys, length_fileIds]

theorem get?_verifyCounts {i : Nat} (hi : i < files) :
    (verifyCounts p.serverToInnerFile).get? i = some copies := by
  have hlen := h.length_holders_inner hi
  rw [KeyHash.get?_verifyCounts, hlen, if_neg]
  intro hnil
  rw [hnil] at hlen
  exact h.copies_pos.ne hlen

theorem exists_user :
    ∃ user, (p.serverToInnerFile.map (padTo p.dataFileCount)).mapM
      (fun src => userFiles src 0 (List.replicate p.userFileCount (-1))) = some user := by
  apply exists_mapM
  intro src hsrc
  obtain ⟨ids, hids, rfl⟩ := List.mem_map.mp hsrc
  rw [exists_userFiles_iff]
  intro n hn
  rw [List.length_replicate, h.userFileCount]
  rcases List.mem_append.mp hn with hn | hn
  · exact (h.file_mem hids n hn).2
  · rw [List.eq_of_mem_replicate hn]
    omega

theorem mapM_serverFiles (hp : Printable p)
    (hbusy : servers ≤ files * copies) :
    (List.range p.serverToInnerFile.length).mapM (serverFiles (savedIni p)) = some p.serverToInnerFile := by
  rw [mapM_eq_some_iff, List.forall₂_iff_get]
  refine ⟨List.length_range, fun i _ hi => ?_⟩
  rw [List.get_eq_getElem, List.getElem_range, List.get_eq_getElem]
  have hlt : i < servers := by
    rwa [h.length_inner] at hi
  have hrow := List.getElem?_eq_getElem hi
  refine serverFiles_savedIni hp hrow fun hnil => ?_
  rw [hnil, h.row hlt, Option.some.injEq, row_eq_nil_iff hlt] at hrow
  omega

theorem loads (hp : Printable p) (hbusy : servers ≤ files * copies)
    {serverId : Nat} (hid : serverId < servers) :
    ∃ q, openIni serverId (savedIni p) = some q ∧ q.data = p.data ∧
      q.fileToServer = (List.range files).map fun i : Nat => holders 0 p.serverToInnerFile (i : Int) := by
  obtain ⟨user, huser⟩ := h.exists_user
  have hlen := h.length_inner
  have hcopies : ∀ i < files, (holders 0 p.serverToInnerFile (i : Int)).length = copies := fun i hi =>
    h.length_holders_inner hi
  have hcopies_pos := h.copies_pos
  have hfiles : (List.range files).mapM (fileServers (userFileToServer p.serverToInnerFile) copies)
      = some ((List.range files).map fun i : Nat => holders 0 p.serverToInnerFile (i : Int)) := by
    rw [mapM_eq_some_iff, List.forall₂_map_right_iff, List.forall₂_same]
    intro i hi
    exact (fileServers_eq_some_iff hcopies_pos).mpr ⟨rfl, hcopies i (List.mem_range.mp hi)⟩
  refine ⟨⟨p.data, p.dataFileCount, files, user, p.serverToInnerFile.map (padTo p.dataFileCount),
    (List.range files).map fun i : Nat => holders 0 p.serverToInnerFile (i : Int), copies, serverId⟩,
    openIni_eq_some_iff.mpr ⟨p.serverToInnerFile, ?_⟩, rfl, rfl⟩
  rw [h.userFileCount] at huser
  exact
    { serverId_eq := rfl
      serverId_mem := by omega
      dataFileCount := getInt_dataFileCount hp
      dataFileCount_pos := h.dataFileCount_pos
      userFileCount := by rw [getInt_userFileCount hp, h.userFileCount]
      userFileCount_pos := h.files_pos
      data := bucketLoop_savedIni hp
      copyCount := by rw [getInt_copyCount hp, h.copyCount]
      copyCount_mem := ⟨hcopies_pos, h.copies_le, by rw [hlen]; exact h.copies_le_servers⟩
      serverCount := by rw [getInt_serverCount hp, hp.length_inner]
      lines_eq := h.mapM_serverFiles hp hbusy
      inner := rfl
      user := huser
      verify := fun i hi => h.get?_verifyCounts (lt_of_lt_of_le hi h.dataFileCount_le)
      size := h.length_userFileToServer
      files := hfiles
      consistent := isConsistent_of_tables rfl huser rfl hcopies }

theorem sameServers {q : HashPlan}
    (hq : q.fileToServer = (List.range files).map fun i : Nat => holders 0 p.serverToInnerFile (i : Int)) :
    p.SameServers q := by
  rw [HashPlan.SameServers, h.userFileCount, h.copyCount, hq]
  refine ⟨by simp, fun i hi => ⟨holders 0 p.serverToInnerFile (i : Int), ?_, h.length_holders_inner hi,
    h.nodup_holders i, fun sid => ?_⟩⟩
  · rw [List.getElem?_map, List.getElem?_range hi]
    rfl
  · rw [mem_holders_iff]
    constructor
    · rintro ⟨row, k, rfl, hrow, hmem⟩
      rw [Nat.zero_add]
      exact ⟨row, hrow, hmem⟩
    · rintro ⟨row, hrow, hmem⟩
      exact ⟨row, sid, (Nat.zero_add sid).symm, hrow, hmem⟩

theorem openMemory_saved (hp : Printable p) (serverId : Int) :
    openMemory serverId ((saveLines p).flatMap fun line => line ++ [10])
      = if (files ≤ 62 ∨ 10000 < files) ∧ servers ≤ 62 then openIni serverId (savedIni p) else none := by
  have hfits : ((starts (-1) 0 p.data).length + 2 ≤ itemCount ∧ p.serverToInnerFile.length + 2 ≤ itemCount)
      ↔ (files ≤ 62 ∨ 10000 < files) ∧ servers ≤ 62 := by
    rw [h.length_starts, h.length_inner]
    unfold itemCount hashCount
    split_ifs
    · omega
    · omega
  rw [openMemory, iniOpen2_saved hp, if_congr hfits rfl rfl]
  split_ifs
  · rfl
  · rfl

theorem roundTrips_iff (hfiles : files < 2 ^ 31)
    (hservers : servers < 2 ^ 31) :
    p.RoundTrips ↔ (files ≤ 62 ∨ 10000 < files) ∧ servers ≤ 62 ∧ servers ≤ files * copies := by
  have hp := h.printable hfiles hservers
  constructor
  · rintro ⟨text, hsave, hopen⟩
    rw [h.saveMemory_eq, Option.some.injEq] at hsave
    subst hsave
    obtain ⟨q, hq, -⟩ := hopen 0 (by rw [h.length_inner]; exact h.servers_pos)
    rw [h.openMemory_saved hp, Option.ite_none_right_eq_some] at hq
    refine ⟨hq.1.1, hq.1.2, ?_⟩
    by_contra hidle
    rw [h.openIni_eq_none hp (by omega)] at hq
    cases hq.2
  · rintro ⟨hlines, hcount, hbusy⟩
    refine ⟨_, h.saveMemory_eq, fun serverId hid => ?_⟩
    rw [h.length_inner] at hid
    obtain ⟨q, hq, hdata, hservers⟩ := h.loads hp hbusy hid
    refine ⟨q, ?_, hdata, h.sameServers hservers⟩
    rw [h.openMemory_saved hp, if_pos ⟨hlines, hcount⟩]
    exact hq

end

end Created

/-- A new plan is opened again by every server exactly when the lines of the files that have buckets
and of the servers fit into the sections of the reader and every server has a file. -/
theorem new_plan_round_trips_iff {userFileCount serverCount copyCount : Int} {p : HashPlan}
    (hfiles : userFileCount < 2 ^ 31) (hservers : serverCount < 2 ^ 31)
    (hcreate : create userFileCount serverCount copyCount = some p) :
    p.RoundTrips ↔ (userFileCount ≤ 62 ∨ 10000 < userFileCount) ∧ serverCount ≤ 62
      ∧ serverCount ≤ userFileCount * copyCount := by
  have h := created_of_create hcreate
  have hf := h.files_pos
  have hs := h.servers_pos
  have hc := h.copies_pos
  obtain ⟨files, rfl⟩ := Int.eq_ofNat_of_zero_le (show 0 ≤ userFileCount by omega)
  obtain ⟨servers, rfl⟩ := Int.eq_ofNat_of_zero_le (show 0 ≤ serverCount by omega)
  obtain ⟨copies, rfl⟩ := Int.eq_ofNat_of_zero_le (show 0 ≤ copyCount by omega)
  simp only [Int.toNat_natCast] at h
  rw [h.roundTrips_iff (by omega) (by omega), ← Int.natCast_mul]
  omega

/-- Two servers share the three files of a plan. -/
theorem new_plan_round_trips_small :
    ∃ p, create 3 2 1 = some p ∧ p.RoundTrips := by
  obtain ⟨p, hcreate⟩ := @exists_create 3 2 1 (by decide)
  exact ⟨p, hcreate, (new_plan_round_trips_iff (by decide) (by decide) hcreate).mpr (by decide)⟩

/-- A plan of 63 files is made and saved, but no server can open it. -/
theorem plan_of_many_files_is_lost :
    ∃ p text, create 63 1 1 = some p ∧ saveMemory p = some text ∧ openMemory 0 text = none := by
  obtain ⟨p, hcreate⟩ := @exists_create 63 1 1 (by decide)
  have h := created_of_create hcreate
  refine ⟨p, _, hcreate, h.saveMemory_eq, ?_⟩
  rw [h.openMemory_saved (h.printable (by decide) (by decide)), if_neg (by decide)]

end HustStore.KeyHash
