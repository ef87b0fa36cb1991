import HustStore.KeyHash.Create

/-!
# The text of a saved hash plan

What is printed for a plan is a configuration of two sections. It is shown here what the reader makes
of it: every number is read back, a bucket has what stands in its line, and a server has its files
unless its line is empty.
-/

set_option maxRecDepth 4000

namespace HustStore.KeyHash

open Appini Incidence Deal RunLength

/-! ### Names and numbers in the text -/

/-- A byte that the reader neither trims nor takes for a comment, an equals sign or the start of a section. -/
def IsNameByte (b : UInt8) : Prop := IsPlain b ∧ b ≠ 35 ∧ b ≠ 59 ∧ b ≠ 61 ∧ b ≠ 91 ∧ ¬isspace2 b

instance : DecidablePred IsNameByte := fun _ =>
  inferInstanceAs (Decidable (_ ∧ _ ∧ _ ∧ _ ∧ _ ∧ _))

theorem isNameByte_of_isDigit {b : UInt8} (h : Decimal.isDigit b) : IsNameByte b := by
  refine ⟨isPlain_of_isDigit h, ?_, ?_, ?_, ?_, by simp [isspace2_of_isDigit h]⟩
  all_goals
    intro heq
    subst heq
    exact absurd h (by decide)

structure IsName (name : Bytes) : Prop where
  ne_nil : name ≠ []
  bytes : ∀ b ∈ name, IsNameByte b

variable {name : Bytes}

theorem IsName.trimmed (h : IsName name) : Trimmed name :=
  .of_forall h.ne_nil fun b hb => (h.bytes b hb).2.2.2.2.2

variable {n : Nat}

theorem isName_printD (h : n < 10 ^ 10) : IsName (printD n) :=
  ⟨printD_ne_nil h, fun _ hb => isNameByte_of_isDigit (isDigit_of_mem_printD hb)⟩

theorem isName_serverKey (i : Nat) : IsName (serverKey i) := by
  refine ⟨by simp [serverKey, ascii], fun b hb => ?_⟩
  rcases List.mem_append.mp hb with hb | hb
  · exact (show ∀ b ∈ ascii "server_", IsNameByte b by decide) b hb
  · exact isNameByte_of_isDigit (isDigit_of_mem_printD hb)

theorem isPlain_printD : ∀ b ∈ printD n, IsPlain b := fun _ hb =>
  isPlain_of_isDigit (isDigit_of_mem_printD hb)

def spaced (name val : Bytes) : ItemText := ⟨name ++ [32], 32 :: val⟩

theorem strTrim_name (h : IsName name) : strTrim (name ++ [32]) = name := by
  have htrim := @strTrim_of_trimmed name [] [32] h.trimmed (by simp) (by decide)
  rwa [List.nil_append] at htrim

theorem strTrim_number (h : n < 10 ^ 10) : strTrim (32 :: printD n) = printD n := by
  have htrim := @strTrim_of_trimmed (printD n) [32] [] (trimmed_printD h) (by decide) (by simp)
  rwa [List.append_nil] at htrim

theorem spaced_wellFormed {name val : Bytes} (hname : IsName name) (hval : ∀ b ∈ val, IsPlain b) :
    (spaced name val).WellFormed := by
  obtain ⟨b, rest, hcons⟩ := List.exists_cons_of_ne_nil hname.ne_nil
  refine ⟨?_, ?_, ?_, ?_⟩
  · intro b hb
    simp only [spaced, List.mem_append, List.mem_cons, List.not_mem_nil, or_false, or_assoc] at hb
    rcases hb with hb | rfl | rfl | hb
    · exact (hname.bytes b hb).1
    · decide
    · decide
    · exact hval b hb
  · intro hmem
    rcases List.mem_append.mp hmem with hmem | hmem
    · exact (hname.bytes _ hmem).2.2.2.1 rfl
    · exact absurd hmem (by decide)
  · rw [spaced, strTrim_name hname]
    exact hname.ne_nil
  · intro c hc
    have hb := hname.bytes b (by simp [hcons])
    simp only [spaced, hcons, List.cons_append, List.head?_cons, Option.mem_def, Option.some.injEq] at hc
    subst hc
    exact ⟨hb.2.1, hb.2.2.1, hb.2.2.2.2.1⟩

/-! ### The line of a server -/

def blanks (n : Nat) : Bytes := List.replicate (3 - (printD n).length) 32

theorem fileText_natCast (n : Nat) : fileText n = blanks n ++ printD n := by
  rw [fileText, if_pos (Int.natCast_nonneg n)]
  rfl

theorem mem_blanks {b : UInt8} (h : b ∈ blanks n) : b = 32 := List.eq_of_mem_replicate h

theorem strTrim_blanks {s : Bytes} (hs : Trimmed s) (n : Nat) : strTrim (32 :: (blanks n ++ s)) = s := by
  have hspace : ∀ b ∈ 32 :: blanks n, isspace2 b := by
    intro b hb
    rcases List.mem_cons.mp hb with rfl | hb
    · decide
    · rw [mem_blanks hb]
      decide
  have htrim := @strTrim_of_trimmed s (32 :: blanks n) [] hs hspace (by simp)
  rwa [List.append_nil] at htrim

variable {ids : List Nat}

theorem isPlain_serverLine : ∀ b ∈ serverLine (ids.map fun n : Nat => (n : Int)), IsPlain b := by
  have hfile : ∀ n : Nat, ∀ b ∈ fileText n, IsPlain b := by
    intro n b hb
    rw [fileText_natCast] at hb
    rcases List.mem_append.mp hb with hb | hb
    · rw [mem_blanks hb]
      decide
    · exact isPlain_printD b hb
  cases ids with
  | nil => simp [serverLine]
  | cons n ids =>
    intro b hb
    rw [List.map_cons, serverLine, List.mem_append, List.mem_flatMap] at hb
    rcases hb with hb | ⟨m, hm, hb⟩
    · exact hfile n b hb
    · obtain ⟨k, -, rfl⟩ := List.mem_map.mp hm
      rcases List.mem_append.mp hb with hb | hb
      · exact (show ∀ b ∈ ascii ", ", IsPlain b by decide) b hb
      · exact hfile k b hb

def lineRest (ids : List Nat) : Bytes := ids.flatMap fun n => 44 :: 32 :: (blanks n ++ printD n)

theorem serverLine_cons (n : Nat) (ids : List Nat) :
    serverLine ((n :: ids).map fun n : Nat => (n : Int)) = blanks n ++ (printD n ++ lineRest ids) := by
  rw [List.map_cons, serverLine, fileText_natCast, List.append_assoc, List.flatMap_map]
  simp only [fileText_natCast]
  rfl

theorem trimmed_line (hn : n < 10 ^ 10) (hids : ∀ m ∈ ids, m < 10 ^ 10) :
    Trimmed (printD n ++ lineRest ids) := by
  rcases List.eq_nil_or_concat ids with rfl | ⟨init, m, rfl⟩
  · simpa [lineRest] using trimmed_printD hn
  · have hm := trimmed_printD (hids m (by simp))
    have htrim := (trimmed_printD hn).append hm (lineRest init ++ 44 :: 32 :: blanks m)
    simpa [lineRest] using htrim

theorem strTrim_serverLine (hn : n < 10 ^ 10) (hids : ∀ m ∈ ids, m < 10 ^ 10) :
    strTrim (32 :: serverLine ((n :: ids).map fun n : Nat => (n : Int))) = printD n ++ lineRest ids := by
  rw [serverLine_cons, strTrim_blanks (trimmed_line hn hids)]

theorem splitOn_line (s : Bytes) (hs : 44 ∉ s) (ids : List Nat) :
    (s ++ lineRest ids).splitOn 44 = s :: ids.map fun n => 32 :: (blanks n ++ printD n) := by
  have hpart : ∀ t : Bytes, 44 ∉ t → ∀ b ∈ t, (b == (44 : UInt8)) = false := by
    intro t ht b hb
    simp only [beq_eq_false_iff_ne, ne_eq]
    rintro rfl
    exact ht hb
  induction ids generalizing s with
  | nil => simpa [lineRest, List.splitOn] using List.splitOnP_eq_singleton (hpart s hs)
  | cons n ids ih =>
    have hn : 44 ∉ 32 :: (blanks n ++ printD n) := by
      intro hmem
      rcases List.mem_cons.mp hmem with heq | hmem
      · exact absurd heq (by decide)
      · rcases List.mem_append.mp hmem with hmem | hmem
        · exact absurd (mem_blanks hmem) (by decide)
        · exact absurd (isDigit_of_mem_printD hmem) (by decide)
    have hrest := ih (32 :: (blanks n ++ printD n)) hn
    have hline : s ++ lineRest (n :: ids) = s ++ 44 :: ((32 :: (blanks n ++ printD n)) ++ lineRest ids) := by
      simp [lineRest]
    rw [List.splitOn] at hrest ⊢
    rw [hline, List.splitOnP_append_cons_of_forall_mem (hpart s hs) 44 (by decide), hrest]
    rfl

theorem toVector_line (hn : n < 10 ^ 10) (hids : ∀ m ∈ ids, m < 10 ^ 10) :
    toVector (printD n ++ lineRest ids) = (n :: ids).map fun n : Nat => printD n := by
  have hcomma : 44 ∉ printD n := fun hmem => absurd (isDigit_of_mem_printD hmem) (by decide)
  rw [toVector, splitOn_line _ hcomma, List.map_cons, strTrim_self (trimmed_printD hn), List.map_map, List.map_cons]
  congr 1
  apply List.map_congr_left
  intro m hm
  exact strTrim_blanks (trimmed_printD (hids m hm)) m

theorem fileId_printD (h : n < 2 ^ 31) : fileId (printD n) = some (n : Int) := by
  obtain ⟨b, rest, hcons⟩ := List.exists_cons_of_ne_nil (printD_ne_nil (show n < 10 ^ 10 by omega))
  have hb : Decimal.isDigit b := isDigit_of_mem_printD (by rw [hcons]; exact List.mem_cons_self)
  have hneg : printD n ≠ ascii "-1" := by
    intro heq
    rw [hcons] at heq
    rw [(List.cons.inj heq).1] at hb
    exact absurd hb (by decide)
  unfold fileId
  rw [if_neg hneg, hcons]
  simp only [hb, if_true]
  rw [← hcons, atoi_printD h]

theorem mapM_toVector_serverLine (h : ∀ m ∈ n :: ids, m < 2 ^ 31) :
    (toVector (strTrim (32 :: serverLine ((n :: ids).map fun n : Nat => (n : Int))))).mapM fileId
      = some ((n :: ids).map fun n : Nat => (n : Int)) := by
  have hwide : ∀ m ∈ n :: ids, m < 10 ^ 10 := fun m hm => by
    have := h m hm
    omega
  obtain ⟨hn, hids⟩ := List.forall_mem_cons.mp hwide
  rw [strTrim_serverLine hn hids, toVector_line hn hids, mapM_eq_some_iff, List.forall₂_map_left_iff,
    List.forall₂_map_right_iff, List.forall₂_same]
  exact fun m hm => fileId_printD (h m hm)

/-! ### The two sections -/

/-- A plan whose numbers are printed as `%d` prints them, with a list of inner files for each server. -/
structure Printable (p : HashPlan) : Prop where
  length_data : p.data.length = hashCount
  data : ∀ v ∈ p.data, 0 ≤ v ∧ v < 2 ^ 31
  dataFileCount : p.dataFileCount < 2 ^ 31
  userFileCount : p.userFileCount < 2 ^ 31
  copyCount : p.copyCount < 2 ^ 31
  length_inner : p.serverToInnerFile.length = p.serverToUserFile.length
  servers : p.serverToUserFile.length < 2 ^ 31
  inner : ∀ ids ∈ p.serverToInnerFile, ∀ n ∈ ids, 0 ≤ n ∧ n < 2 ^ 31

/-- The section of the buckets: a line for each bucket whose entry differs from that of the bucket before. -/
def hashText (p : HashPlan) : SectionText where
  name := secHash
  items := spaced (ascii "data_file_count") (printD p.dataFileCount)
    :: spaced (ascii "user_file_count") (printD p.userFileCount)
    :: (starts (-1) 0 p.data).map fun e => spaced (printD e.1) (printD e.2)

def serverText (p : HashPlan) : SectionText where
  name := secServer
  items := spaced (ascii "server_count") (printD p.serverToUserFile.length)
    :: spaced (ascii "copy_count  ") (printD p.copyCount)
    :: p.serverToInnerFile.zipIdx.map fun e => spaced (serverKey e.2) (serverLine e.1)

theorem saveLines_eq (p : HashPlan) : saveLines p = [hashText p, serverText p].flatMap SectionText.lines := by
  have hhash : ascii "[hash]" = 91 :: (secHash ++ [93]) := by decide
  have hdata : ascii "data_file_count = " = ascii "data_file_count" ++ [32, 61, 32] := by decide
  have huser : ascii "user_file_count = " = ascii "user_file_count" ++ [32, 61, 32] := by decide
  have hserver : ascii "[server]" = 91 :: (secServer ++ [93]) := by decide
  have hcount : ascii "server_count = " = ascii "server_count" ++ [32, 61, 32] := by decide
  have hcopy : ascii "copy_count   = " = ascii "copy_count  " ++ [32, 61, 32] := by decide
  have hequals : ascii " = " = [32, 61, 32] := by decide
  rw [saveLines, hhash, hdata, huser, hserver, hcount, hcopy, hequals]
  simp [SectionText.lines, SectionText.header, hashText, serverText, spaced, ItemText.line, Function.comp_def]

def copyKey : Bytes := ascii "copy_count  " ++ [32]

theorem exists_natRow {ids : List Int} (h : ∀ n ∈ ids, 0 ≤ n ∧ n < 2 ^ 31) :
    ∃ ids' : List Nat, ids = ids'.map (fun n : Nat => (n : Int)) ∧ ∀ m ∈ ids', m < 2 ^ 31 := by
  refine ⟨ids.map Int.toNat, ?_, ?_⟩
  · rw [List.map_map]
    have hid : ids.map ((fun n : Nat => (n : Int)) ∘ Int.toNat) = ids.map id :=
      List.map_congr_left fun n hn => Int.toNat_of_nonneg (h n hn).1
    rw [hid, List.map_id]
  · intro m hm
    obtain ⟨n, hn, rfl⟩ := List.mem_map.mp hm
    have := h n hn
    omega

namespace Printable

variable {p : HashPlan}

theorem bucketLine (h : Printable p) {e : Nat × Int} (he : e ∈ starts (-1) 0 p.data) :
    e.1 < 10 ^ 10 ∧ ∃ n : Nat, e.2 = n ∧ n < 2 ^ 31 := by
  obtain ⟨-, hlt, hmem⟩ := le_of_mem_starts he
  have hv := h.data _ hmem
  rw [h.length_data] at hlt
  have hcount : hashCount < 10 ^ 10 := by decide
  exact ⟨by omega, e.2.toNat, by omega, by omega⟩

theorem hashText_wellFormed (h : Printable p) : (hashText p).WellFormed := by
  refine ⟨show ∀ b ∈ secHash, IsPlain b by decide, show secHash ≠ [] by decide, ?_⟩
  intro t ht
  rw [hashText] at ht
  simp only [List.mem_cons, List.mem_map] at ht
  rcases ht with rfl | rfl | ⟨e, he, rfl⟩
  · exact spaced_wellFormed ⟨by decide, by decide⟩ isPlain_printD
  · exact spaced_wellFormed ⟨by decide, by decide⟩ isPlain_printD
  · obtain ⟨hlt, n, hn, -⟩ := h.bucketLine he
    rw [hn]
    exact spaced_wellFormed (isName_printD hlt) isPlain_printD

theorem serverText_wellFormed (h : Printable p) : (serverText p).WellFormed := by
  refine ⟨show ∀ b ∈ secServer, IsPlain b by decide, show secServer ≠ [] by decide, ?_⟩
  intro t ht
  rw [serverText] at ht
  simp only [List.mem_cons, List.mem_map] at ht
  rcases ht with rfl | rfl | ⟨e, he, rfl⟩
  · exact spaced_wellFormed ⟨by decide, by decide⟩ isPlain_printD
  · -- the name is followed by three blanks
    refine ⟨?_, show 61 ∉ copyKey by decide, show strTrim copyKey ≠ [] by decide,
      show ∀ b ∈ copyKey.head?, b ≠ 35 ∧ b ≠ 59 ∧ b ≠ 91 by decide⟩
    intro b hb
    rcases List.mem_append.mp hb with hb | hb
    · exact (show ∀ b ∈ copyKey, IsPlain b by decide) b hb
    · rcases List.mem_cons.mp hb with rfl | hb
      · decide
      · exact isPlain_printD b hb
  · obtain ⟨ids', hids, -⟩ := exists_natRow (h.inner e.1 (List.mem_of_getElem? (List.mem_zipIdx_iff_getElem?.mp he)))
    rw [hids]
    exact spaced_wellFormed (isName_serverKey e.2) isPlain_serverLine

end Printable

def savedIni (p : HashPlan) : Ini := [(hashText p).toSection, (serverText p).toSection]

variable {p : HashPlan}

theorem iniOpen2_saved (h : Printable p) : iniOpen2 ((saveLines p).flatMap fun line => line ++ [10])
      = if (starts (-1) 0 p.data).length + 2 ≤ itemCount ∧ p.serverToInnerFile.length + 2 ≤ itemCount then
          some (savedIni p)
        else none := by
  have hwf : ∀ s ∈ [hashText p, serverText p], s.WellFormed := by
    intro s hs
    simp only [List.mem_cons, List.not_mem_nil, or_false] at hs
    rcases hs with rfl | rfl
    · exact h.hashText_wellFormed
    · exact h.serverText_wellFormed
  have hcount : ([hashText p, serverText p].length ≤ sectionCount
        ∧ ∀ s ∈ [hashText p, serverText p], s.items.length ≤ itemCount)
      ↔ (starts (-1) 0 p.data).length + 2 ≤ itemCount ∧ p.serverToInnerFile.length + 2 ≤ itemCount := by
    simp only [hashText, serverText, sectionCount, List.length_cons, List.length_nil, List.length_map,
      List.length_zipIdx, List.forall_mem_cons, List.not_mem_nil, false_implies, implies_true, and_true]
    omega
  have hread := iniOpen2_render hwf
  rw [render, ← saveLines_eq] at hread
  rw [hread, if_congr hcount rfl rfl]
  rfl

/-! ### Looking up -/

theorem getString_secHash (p : HashPlan) (name : Bytes) :
    iniGetString (savedIni p) secHash name = iniFindInSection (hashText p).toSection name := by
  have hfind : (savedIni p).find? (fun s => sameName s.name secHash) = some (hashText p).toSection :=
    List.find?_cons_of_pos (show sameName secHash secHash by decide)
  rw [iniGetString, hfind]

theorem getString_secServer (p : HashPlan) (name : Bytes) :
    iniGetString (savedIni p) secServer name = iniFindInSection (serverText p).toSection name := by
  have hfind : (savedIni p).find? (fun s => sameName s.name secServer) = some (serverText p).toSection := by
    rw [savedIni, List.find?_cons, show sameName (hashText p).toSection.name secServer = false from
      show sameName secHash secServer = false by decide]
    exact List.find?_cons_of_pos (show sameName secServer secServer by decide)
  rw [iniGetString, hfind]

theorem item_spaced_number (hname : IsName name) (hn : n < 10 ^ 10) :
    (spaced name (printD n)).item = ⟨name, printD n⟩ := by
  rw [ItemText.item, spaced, strTrim_name hname, strTrim_number hn]

theorem item_spaced_copyCount (hn : n < 10 ^ 10) :
    (spaced (ascii "copy_count  ") (printD n)).item = ⟨ascii "copy_count", printD n⟩ := by
  rw [ItemText.item, spaced, strTrim_number hn]
  exact congrArg (Item.mk · (printD n)) (show strTrim copyKey = ascii "copy_count" by decide)

theorem toSection_hashText (h : Printable p) : (hashText p).toSection
      = ⟨secHash, ⟨ascii "data_file_count", printD p.dataFileCount⟩
          :: ⟨ascii "user_file_count", printD p.userFileCount⟩
          :: (starts (-1) 0 p.data).map fun e => ⟨printD e.1, printD e.2⟩⟩ := by
  have hd := h.dataFileCount
  have hu := h.userFileCount
  have hlines : (starts (-1) 0 p.data).map (fun e => (spaced (printD e.1) (printD e.2)).item)
      = (starts (-1) 0 p.data).map fun e => ⟨printD e.1, printD e.2⟩ := by
    apply List.map_congr_left
    intro e he
    obtain ⟨hlt, n, hn, hn'⟩ := h.bucketLine he
    rw [hn, item_spaced_number (isName_printD hlt) (by omega)]
  rw [SectionText.toSection, hashText, List.map_cons, List.map_cons, List.map_map,
    item_spaced_number ⟨by decide, by decide⟩ (by omega),
    item_spaced_number ⟨by decide, by decide⟩ (by omega)]
  exact congrArg (fun items => Section.mk secHash (_ :: _ :: items)) hlines

theorem toSection_serverText (h : Printable p) : (serverText p).toSection
      = ⟨secServer, ⟨ascii "server_count", printD p.serverToUserFile.length⟩
          :: ⟨ascii "copy_count", printD p.copyCount⟩
          :: p.serverToInnerFile.zipIdx.map fun e => ⟨serverKey e.2, strTrim (32 :: serverLine e.1)⟩⟩ := by
  have hs := h.servers
  have hc := h.copyCount
  have hlines : p.serverToInnerFile.zipIdx.map (fun e => (spaced (serverKey e.2) (serverLine e.1)).item)
      = p.serverToInnerFile.zipIdx.map fun e => ⟨serverKey e.2, strTrim (32 :: serverLine e.1)⟩ := by
    apply List.map_congr_left
    intro e he
    rw [ItemText.item, spaced, strTrim_name (isName_serverKey e.2)]
  rw [SectionText.toSection, serverText, List.map_cons, List.map_cons, List.map_map,
    item_spaced_number ⟨by decide, by decide⟩ (by omega), item_spaced_copyCount (by omega)]
  exact congrArg (fun items => Section.mk secServer (_ :: _ :: items)) hlines

section

variable {p : HashPlan}

theorem getInt_dataFileCount (h : Printable p) :
    iniGetInt (savedIni p) secHash (ascii "data_file_count") 0 = p.dataFileCount := by
  apply iniGetInt_of_printD h.dataFileCount
  rw [getString_secHash, toSection_hashText h, iniFindInSection_cons, if_pos (by decide)]

theorem getInt_userFileCount (h : Printable p) :
    iniGetInt (savedIni p) secHash (ascii "user_file_count") 0 = p.userFileCount := by
  apply iniGetInt_of_printD h.userFileCount
  rw [getString_secHash, toSection_hashText h, iniFindInSection_cons, if_neg (by decide),
    iniFindInSection_cons, if_pos (by decide)]

theorem getInt_serverCount (h : Printable p) :
    iniGetInt (savedIni p) secServer (ascii "server_count") 0 = p.serverToUserFile.length := by
  apply iniGetInt_of_printD h.servers
  rw [getString_secServer, toSection_serverText h, iniFindInSection_cons, if_pos (by decide)]

theorem getInt_copyCount (h : Printable p) :
    iniGetInt (savedIni p) secServer (ascii "copy_count") 0 = p.copyCount := by
  apply iniGetInt_of_printD h.copyCount
  rw [getString_secServer, toSection_serverText h, iniFindInSection_cons, if_neg (by decide),
    iniFindInSection_cons, if_pos (by decide)]

end

/-! ### The buckets -/

theorem findInSection_printD {l : List (Nat × Int)} (hl : ∀ e ∈ l, e.1 < 10 ^ 10) {k : Nat}
    (hk : k < 10 ^ 10) (sec : Bytes) :
    iniFindInSection ⟨sec, l.map fun e => ⟨printD e.1, printD e.2⟩⟩ (printD k)
      = (l.lookup k).map fun v => printD v := by
  induction l with
  | nil => rfl
  | cons e l ih =>
    obtain ⟨he, hl⟩ := List.forall_mem_cons.mp hl
    rw [List.map_cons, iniFindInSection_cons, sameName_printD he hk, ih hl, List.lookup_cons]
    by_cases hek : e.1 = k
    · simp [hek]
    · have hbeq : (k == e.1) = false := by
        rw [beq_eq_false_iff_ne]
        exact fun h => hek h.symm
      simp [hek, hbeq]

theorem bucket_savedIni (h : Printable p) {k : Nat} (hk : k < 10 ^ 10) :
    bucket (savedIni p) k = ((starts (-1) 0 p.data).lookup k).getD (-1) := by
  have hdata := sameName_printD_of_notDigit
    (show ∃ b ∈ ascii "data_file_count", ¬Decimal.isDigit (toLower b) from ⟨100, by decide, by decide⟩) k
  have huser := sameName_printD_of_notDigit
    (show ∃ b ∈ ascii "user_file_count", ¬Decimal.isDigit (toLower b) from ⟨117, by decide, by decide⟩) k
  have hget : iniGetString (savedIni p) secHash (printD k)
      = ((starts (-1) 0 p.data).lookup k).map fun v => printD v := by
    rw [getString_secHash, toSection_hashText h, iniFindInSection_cons, if_neg (by simp [hdata]),
      iniFindInSection_cons, if_neg (by simp [huser]),
      findInSection_printD (fun e he => (h.bucketLine he).1) hk]
  cases hlookup : (starts (-1) 0 p.data).lookup k with
  | none => simp [bucket, iniGetInt, hget, hlookup]
  | some v =>
    obtain ⟨l₁, l₂, hsplit, -⟩ := List.lookup_eq_some_iff.mp hlookup
    obtain ⟨-, n, hn, hn'⟩ := h.bucketLine (e := (k, v)) (by rw [hsplit]; simp)
    simp only at hn
    subst hn
    exact iniGetInt_of_printD hn' (by rw [hget, hlookup]; rfl) (-1)

variable {i : Nat}

theorem bucketLoop_starts {get : Nat → Int} {data : List Int} {last : Int} (hdata : ∀ v ∈ data, 0 ≤ v)
    (hget : ∀ k, i ≤ k → k < i + data.length → get k = ((starts last i data).lookup k).getD (-1)) :
    bucketLoop get (List.range' i data.length) last = some data := by
  induction data generalizing i last with
  | nil => rfl
  | cons v data ih =>
    obtain ⟨hv, hdata⟩ := List.forall_mem_cons.mp hdata
    rw [List.length_cons, List.range'_succ, bucketLoop_cons]
    have hfirst := hget i (Nat.le_refl i) (by simp)
    rw [starts] at hfirst
    refine ⟨v, data, rfl, hv, ?_, ?_⟩
    · by_cases hlast : v = last
      · rw [if_neg (by simpa using hlast), lookup_starts_of_lt data (Nat.lt_succ_self i)] at hfirst
        rw [hfirst, if_pos (by decide), hlast]
      · rw [if_pos hlast, List.lookup_cons_self, Option.getD_some] at hfirst
        rw [hfirst, if_neg (by omega)]
    · apply ih hdata
      intro k hik hk
      have hrest := hget k (by omega) (by rw [List.length_cons]; omega)
      rw [starts] at hrest
      by_cases hlast : v = last
      · subst hlast
        rwa [if_neg (by simp)] at hrest
      · have hbeq : (k == i) = false := by
          simp only [beq_eq_false_iff_ne, ne_eq]
          omega
        rw [if_pos hlast, List.lookup_cons, hbeq] at hrest
        exact hrest

theorem bucketLoop_savedIni (h : Printable p) :
    bucketLoop (bucket (savedIni p)) (List.range hashCount) (-1) = some p.data := by
  have hcount : hashCount < 10 ^ 10 := by decide
  rw [List.range_eq_range', ← h.length_data]
  apply bucketLoop_starts fun v hv => (h.data v hv).1
  intro k _ hk
  rw [h.length_data] at hk
  exact bucket_savedIni h (by omega)

/-! ### The servers -/

theorem sameName_serverKey {i k : Nat} (hi : i < 10 ^ 10) (hk : k < 10 ^ 10) :
    sameName (serverKey i) (serverKey k) = decide (i = k) := by
  rw [serverKey, serverKey, sameName_append_left, sameName_printD hi hk]

theorem sameName_serverCount (k : Nat) : sameName (ascii "server_count") (serverKey k) = false := by
  rw [show ascii "server_count" = ascii "server_" ++ ascii "count" by decide, serverKey,
    sameName_append_left]
  exact sameName_printD_of_notDigit ⟨99, by decide, by decide⟩ k

theorem sameName_copyCount (k : Nat) : sameName (ascii "copy_count") (serverKey k) = false := by
  rw [sameName, decide_eq_false_iff_not]
  intro h
  have hhead := congrArg List.head? h
  rw [serverKey, List.map_append, List.head?_append_of_ne_nil _ (by decide)] at hhead
  exact absurd hhead (by decide)

theorem findInSection_serverKey {rows : List (List Int)} {j k : Nat} (hj : j + rows.length ≤ 10 ^ 10)
    (hk : j + k < 10 ^ 10) (sec : Bytes) :
    iniFindInSection ⟨sec, (rows.zipIdx j).map fun e => ⟨serverKey e.2, strTrim (32 :: serverLine e.1)⟩⟩
        (serverKey (j + k))
      = rows[k]?.map fun ids => strTrim (32 :: serverLine ids) := by
  induction rows generalizing j k with
  | nil => rfl
  | cons row rows ih =>
    rw [List.length_cons] at hj
    rw [List.zipIdx_cons, List.map_cons, iniFindInSection_cons, sameName_serverKey (by omega) hk]
    cases k with
    | zero => simp
    | succ k =>
      have hnext := ih (show j + 1 + rows.length ≤ 10 ^ 10 by omega) (show j + 1 + k < 10 ^ 10 by omega)
      rw [if_neg (by simp), show j + (k + 1) = j + 1 + k by omega, hnext, List.getElem?_cons_succ]

theorem getString_serverKey (h : Printable p) {ids : List Int} (hi : p.serverToInnerFile[i]? = some ids) :
    iniGetString (savedIni p) secServer (serverKey i) = some (strTrim (32 :: serverLine ids)) := by
  have hlen : p.serverToInnerFile.length < 2 ^ 31 := by
    rw [h.length_inner]
    exact h.servers
  obtain ⟨hlt, -⟩ := List.getElem?_eq_some_iff.mp hi
  have hfind := @findInSection_serverKey p.serverToInnerFile 0 i (by omega) (by omega) secServer
  rw [Nat.zero_add, hi, Option.map_some] at hfind
  rw [getString_secServer, toSection_serverText h, iniFindInSection_cons,
    if_neg (by simp [sameName_serverCount]), iniFindInSection_cons, if_neg (by simp [sameName_copyCount]),
    hfind]

theorem serverFiles_savedIni (h : Printable p) {ids : List Int}
    (hi : p.serverToInnerFile[i]? = some ids) (hne : ids ≠ []) :
    serverFiles (savedIni p) i = some ids := by
  obtain ⟨ids', rfl, hlt⟩ := exists_natRow (h.inner ids (List.mem_of_getElem? hi))
  cases ids' with
  | nil => exact absurd rfl hne
  | cons n ids' =>
    have hwide : ∀ m ∈ n :: ids', m < 10 ^ 10 := fun m hm => by
      have := hlt m hm
      omega
    obtain ⟨hn, hids⟩ := List.forall_mem_cons.mp hwide
    have htext : strTrim (32 :: serverLine ((n :: ids').map fun n : Nat => (n : Int))) ≠ [] := by
      rw [strTrim_serverLine hn hids]
      exact (trimmed_line hn hids).ne_nil
    simp only [serverFiles, getString_serverKey h hi, htext, if_false]
    exact mapM_toVector_serverLine hlt

theorem serverFiles_savedIni_nil (h : Printable p)
    (hi : p.serverToInnerFile[i]? = some []) : serverFiles (savedIni p) i = none := by
  have htext : strTrim (32 :: serverLine []) = [] := by decide
  simp only [serverFiles, getString_serverKey h hi, htext, if_true]

end HustStore.KeyHash
