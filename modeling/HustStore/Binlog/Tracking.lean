import HustStore.Binlog.Entry

/-!
# How far a replica is behind

A replica that started with the records of the store lacks only what is noted in the binlog. The invariant is
kept by every update of the store that is recorded.
-/

namespace HustStore.Binlog

open Md5db Md5db.Db

variable {complete : Prop} {md5 : Bytes → InnerKey} {inetAddr : Bytes → Nat} {used : Set Address}
  {db : Db} {dir : Directory} {recs : RecMap} {a : Address} {text host : Bytes} {u : Update}
  {t : Task} {s : Site}

/-! ### Updates -/

theorem Update.call_rem (h : u.method.isRem = true) : u.call = .del u.query u.key u.ver u.isDup := if_pos h

theorem Update.call_put (h : u.method.isRem = false) :
    u.call = .put u.query u.key u.val u.ver u.isDup := if_neg (by simp [h])

theorem Update.run_rem (h : u.method.isRem = true) (db : Db) :
    u.run md5 db = db.del md5 u.query u.key u.ver u.isDup := if_pos h

theorem Update.run_put (h : u.method.isRem = false) (db : Db) :
    u.run md5 db = db.put md5 u.query u.key u.val u.ver u.isDup := if_neg (by simp [h])

theorem locate_run (h : db.VersionInv dir) (hsound : u.call.Sound md5 db) {k : InnerKey}
    (hk : k ≠ u.address.digest md5 ∨ (u.run md5 db).1.r ≠ .ok) :
    (u.run md5 db).2.locate k = db.locate k := by
  cases hrem : u.method.isRem with
  | true =>
    rw [Update.run_rem hrem] at hk ⊢
    rw [Update.call_rem hrem] at hsound
    exact h.locate_del hsound hk
  | false =>
    rw [Update.run_put hrem] at hk ⊢
    rw [Update.call_put hrem] at hsound
    exact h.locate_put hsound hk

theorem step_call (db : Db) : u.call.step md5 db = (u.run md5 db).2 := by
  cases hrem : u.method.isRem with
  | true => rw [Update.call_rem hrem, Update.run_rem hrem, Call.step]
  | false => rw [Update.call_put hrem, Update.run_put hrem, Call.step]

theorem fileCount_run (h : db.VersionInv dir) (hsound : u.call.Sound md5 db) :
    (u.run md5 db).2.data.fileCount = db.data.fileCount := by
  rw [← step_call]
  exact h.run.fileCount_step hsound.1

/-! ### The replica -/

def Takes (b old : Bytes × Nat) : Prop := Accepts b.2 true old.2

instance : DecidableRel Takes := fun b old => inferInstanceAs (Decidable (Accepts b.2 true old.2))

def replayTask (md5 : Bytes → InnerKey) (now : Nat) (replica : Db) (t : Task) : Db :=
  ((t.update now).run md5 replica).2

def Taken (md5 : Bytes → InnerKey) (now : Nat) (replica : Db) (t : Task) : Prop :=
  (t.update now).call.Sound md5 replica ∧ (t.method.isRem = false → ((t.update now).run md5 replica).1.r = .ok)

instance (now : Nat) (replica : Db) (t : Task) : Decidable (Taken md5 now replica t) :=
  inferInstanceAs (Decidable (_ ∧ _))

structure Task.Made (t : Task) (used : Set Address) : Prop where
  mem : t.address ∈ used
  rem : t.method.isRem = true → t.ver = 0 ∧ checkUserKey t.key

variable {version : Nat} {recs' : RecMap} {reply : Reply}

variable {q : Query}

theorem content_put {val : Bytes} (h : PutResult recs a q val version true reply recs') (hok : reply.r = .ok) :
    content recs' = Replay.apply Takes (content recs) (.set a (val, version)) := by
  have hcontent : content recs a = (recs a).map Rec.reading := rfl
  rw [Replay.apply, hcontent]
  cases h with
  | invalid _ => cases hok
  | failed _ _ => cases hok
  | @refused r _ hpresent hrefuse _ =>
    rw [if_neg]
    intro htakes
    exact hrefuse (htakes r.reading (by rw [hpresent]; rfl))
  | inserted habsent _ =>
    rw [if_pos (by simp [habsent]), content_update]
    rfl
  | updated hpresent haccept _ =>
    rw [if_pos, content_update]
    · rfl
    · intro old hold
      rw [hpresent] at hold
      cases hold
      exact haccept

theorem content_del (h : DelResult recs a version true reply recs') (hversion : version = 0)
    (huser : checkUserKey a.key) : content recs' = Function.update (content recs) a none := by
  subst hversion
  cases h with
  | invalid hinvalid => exact absurd ⟨huser, Nat.zero_le _⟩ hinvalid
  | absent habsent _ =>
    have hnone : content recs a = none := by simp [content, habsent]
    rw [← hnone, Function.update_eq_self]
  | refused _ hrefuse _ => exact absurd (.inl rfl) hrefuse
  | removed _ _ _ => rw [content_update, Option.map_none]

theorem replayTask_holds (h : db.Holds False md5 used dir recs)
    (hinj : Set.InjOn (Address.digest md5) used) (ht : t.Made used) {now : Nat}
    (htaken : Taken md5 now db t) :
    ∃ dir' recs', (replayTask md5 now db t).Holds False md5 used dir' recs' ∧
      content recs' = Replay.apply Takes (content recs) t.request := by
  obtain ⟨hsound, hok⟩ := htaken
  unfold replayTask
  cases hrem : t.method.isRem with
  | true =>
    obtain ⟨hver, huser⟩ := ht.rem hrem
    rw [Update.call_rem hrem] at hsound
    obtain ⟨dir', recs', h', hresult⟩ := h.del hinj ht.mem rfl hsound.1 False.elim
    rw [Update.run_rem hrem, Task.request, if_pos hrem, Replay.apply_clear]
    exact ⟨dir', recs', h', content_del hresult hver huser⟩
  | false =>
    rw [Update.call_put hrem] at hsound
    obtain ⟨dir', recs', h', hresult⟩ := h.put hinj ht.mem rfl hsound
    have hok' := hok hrem
    rw [Update.run_put hrem] at hok' ⊢
    rw [Task.request, if_neg (by simp [hrem])]
    exact ⟨dir', recs', h', content_put hresult hok'⟩

theorem replay_holds {tasks : List Task} (h : db.Holds False md5 used dir recs)
    (hinj : Set.InjOn (Address.digest md5) used) (hmade : ∀ t ∈ tasks, t.Made used) {now : Nat}
    (htaken : Run.Guarded (replayTask md5 now) (Taken md5 now) db tasks) :
    ∃ dir' recs', (Run.exec (replayTask md5 now) db tasks).Holds False md5 used dir' recs' ∧
      content recs' = Replay.replay Takes (content recs) (tasks.map Task.request) := by
  induction tasks generalizing db dir recs with
  | nil => exact ⟨dir, recs, h, rfl⟩
  | cons t rest ih =>
    obtain ⟨dir₁, recs₁, h₁, hcontent⟩ := replayTask_holds h hinj (hmade t (by simp)) htaken.1
    obtain ⟨dir', recs', h', hrest⟩ := ih h₁ (fun t' ht' => hmade t' (by simp [ht'])) htaken.2
    refine ⟨dir', recs', h', ?_⟩
    rw [hrest, hcontent]
    rfl

/-! ### What is noted -/

/-- An update of the store that is recorded: its table has a name, there is room for its call, it is
no replicated deletion that is refused, and the entry is written if it succeeds. -/
structure Update.Recorded (md5 : Bytes → InnerKey) (inetAddr : Bytes → Nat) (text : Bytes) (s : Site)
    (u : Update) : Prop where
  named : Named u.method u.table
  sound : u.call.Sound md5 s.db
  unrefused : u.call.Unrefused md5 s.db
  written : (u.run md5 s.db).1.r = .ok → (hustdbBinlog md5 inetAddr (u.run md5 s.db).2 s.binlog
    u.table u.key text u.method.code u.now).1 = .ok

instance (s : Site) (u : Update) : Decidable (u.Recorded md5 inetAddr text s) :=
  decidable_of_iff (Named u.method u.table ∧ u.call.Sound md5 s.db ∧ u.call.Unrefused md5 s.db ∧
      ((u.run md5 s.db).1.r = .ok → (hustdbBinlog md5 inetAddr (u.run md5 s.db).2 s.binlog u.table
        u.key text u.method.code u.now).1 = .ok))
    ⟨fun h => ⟨h.1, h.2.1, h.2.2.1, h.2.2.2⟩, fun h => ⟨h.named, h.sound, h.unrefused, h.written⟩⟩

def DelPending (md5 : Bytes → InnerKey) (host : Bytes) (s : Site) (a : Address) : Prop :=
  (s.binlog.get? (delKey host a.table (a.digest md5))).isSome

def PutPending (md5 : Bytes → InnerKey) (host : Bytes) (s : Site) (a : Address) (blockId : BlockId) :
    Prop :=
  ∃ m name timestamp, m.isRem = false ∧ Named m name ∧ m.table name = a.table ∧
    s.binlog.get? (putKey host a.table blockId) = some (stamp m timestamp ++ le32 (s.db.fileOf md5 a))

variable {file : SortedMap Bytes Bytes} {key val : Bytes}

theorem putFromBinlog_ok (h : (putFromBinlog file key val).1 = .ok) :
    (putFromBinlog file key val).2 = file.insert key val := by
  unfold putFromBinlog at h ⊢
  split_ifs at h ⊢
  rfl

theorem hustdbBinlog_rem (hhost : hostBytes inetAddr text = some host) (hrem : u.method.isRem = true)
    (hok : (hustdbBinlog md5 inetAddr db file u.table u.key text u.method.code u.now).1 = .ok) :
    checkUserKey u.key = true ∧
    (hustdbBinlog md5 inetAddr db file u.table u.key text u.method.code u.now).2 =
      file.insert (delKey host u.address.table (u.address.digest md5)) (stamp u.method u.now ++ u.key) := by
  unfold hustdbBinlog binlog at hok ⊢
  simp only [Method.ofCode_code, hhost, hrem, if_true] at hok ⊢
  split_ifs at hok ⊢ with hargs huser
  exact ⟨by simpa using huser, putFromBinlog_ok hok⟩

variable {blockId : BlockId}

theorem hustdbBinlog_put (hhost : hostBytes inetAddr text = some host) (hput : u.method.isRem = false)
    (hversion : version ≠ 0)
    (hlocate : db.locate (u.address.digest md5) = .ok (blockId, version))
    (hok : (hustdbBinlog md5 inetAddr db file u.table u.key text u.method.code u.now).1 = .ok) :
    (hustdbBinlog md5 inetAddr db file u.table u.key text u.method.code u.now).2 =
      file.insert (putKey host u.address.table blockId) (stamp u.method u.now ++ le32 (db.fileOf md5 u.address)) := by
  have hdigest : md5 (u.method.table u.table ++ u.key) = u.address.digest md5 := rfl
  unfold hustdbBinlog binlog at hok ⊢
  simp only [Method.ofCode_code, hhost, hput, Bool.false_eq_true, if_false, hdigest, hlocate,
    if_neg hversion] at hok ⊢
  split_ifs at hok ⊢
  exact putFromBinlog_ok hok

/-! ### The keys of the binlog -/

theorem innerKey_bytes_inj {k k' : InnerKey} (h : k.bytes = k'.bytes) : k = k' := by
  have hbyte (j : Nat) (hj : j < 16) : k.byte j = k'.byte j := by
    have hlt (k : InnerKey) : k.byte j < 2 ^ 8 := Nat.mod_lt _ (by decide)
    have hget := congrArg (fun l => l[j]?) h
    simp only [InnerKey.bytes, List.getElem?_map, List.getElem?_range hj, Option.map_some, Option.some.injEq] at hget
    have hnat := congrArg UInt8.toNat hget
    rwa [UInt8.toNat_ofNat', UInt8.toNat_ofNat', Nat.mod_eq_of_lt (hlt k), Nat.mod_eq_of_lt (hlt k')] at hnat
  have hmod (n : Nat) (hn : n ≤ 16) : k.toNat % 2 ^ (8 * n) = k'.toNat % 2 ^ (8 * n) := by
    induction n with
    | zero => simp [Nat.mod_one]
    | succ n ih =>
      have hn' := hbyte n hn
      simp only [InnerKey.byte] at hn'
      rw [Nat.mul_succ, Nat.pow_add, Nat.mod_mul, Nat.mod_mul, ih (by omega), hn']
  have h16 := hmod 16 le_rfl
  rw [Nat.mod_eq_of_lt k.isLt, Nat.mod_eq_of_lt k'.isLt] at h16
  exact BitVec.eq_of_toNat_eq h16

structure Distinct (md5 : Bytes → InnerKey) (used : Set Address) : Prop where
  digest : Set.InjOn (Address.digest md5) used
  keys : ∀ a ∈ used, ∀ b ∈ used, ∀ blockId : BlockId,
    a.table ++ (a.digest md5).bytes ≠ KvArray.listingKey b.table blockId

theorem Distinct.delKey_inj (h : Distinct md5 used) {b : Address} (ha : a ∈ used) (hb : b ∈ used)
    (heq : delKey host a.table (a.digest md5) = delKey host b.table (b.digest md5)) : a = b := by
  have hbytes := List.append_inj_right' (List.append_cancel_left heq)
    (by rw [length_bytes_innerKey, length_bytes_innerKey])
  exact h.digest ha hb (innerKey_bytes_inj hbytes)

theorem Distinct.delKey_ne (h : Distinct md5 used) {b : Address} (ha : a ∈ used) (hb : b ∈ used) (blockId : BlockId) :
    delKey host a.table (a.digest md5) ≠ putKey host b.table blockId := fun heq =>
  h.keys a ha b hb blockId (List.append_cancel_left heq)

theorem putKey_inj (h : db.Holds complete md5 used dir recs) (hdistinct : Distinct md5 used)
    {b : Address} (ha : a ∈ used) (hb : b ∈ used) {idA idB : BlockId} {va vb : Nat}
    (hlocateA : db.locate (a.digest md5) = .ok (idA, va))
    (hlocateB : db.locate (b.digest md5) = .ok (idB, vb))
    (heq : putKey host a.table idA = putKey host b.table idB) : a = b := by
  have hfound {c : Address} {id : BlockId} {v : Nat} (hlocate : db.locate (c.digest md5) = .ok (id, v)) :
      ∃ e, dir (c.digest md5) = some e ∧ id = (e.addr (c.digest md5)).blockId := by
    have hinv := h.versions.run.inv.locate (c.digest md5)
    cases hk : dir (c.digest md5) with
    | none =>
      rw [hk, hlocate] at hinv
      cases hinv
    | some e =>
      rw [hk, hlocate] at hinv
      exact ⟨e, rfl, (Prod.mk.inj (Except.ok.inj hinv)).1⟩
  obtain ⟨e, hk, rfl⟩ := hfound hlocateA
  obtain ⟨e', hk', rfl⟩ := hfound hlocateB
  obtain ⟨-, hblock⟩ := KvArray.listingKey_inj (h.dataId_lt hk) (h.dataId_lt hk') (List.append_cancel_left heq)
  refine hdistinct.digest ha hb (h.versions.run.inv.inj _ _ e e' hk hk' ?_)
  exact Prod.ext (congrArg BlockId.bucketId hblock) (congrArg BlockId.dataId hblock)

/-! ### How far the replica is behind -/

structure Tracks (md5 : Bytes → InnerKey) (used : Set Address) (host : Bytes) (s : Site)
    (recs : RecMap) (replica : Address → Option (Bytes × Nat)) : Prop where
  noted : ∀ key val, s.binlog.get? key = some val → Noted md5 used host key val
  put_noted : ∀ a ∈ used, ∀ blockId version, s.db.locate (a.digest md5) = .ok (blockId, version) →
    PutPending md5 host s a blockId ∨ (¬ DelPending md5 host s a ∧ replica a = content recs a)
  del_noted : ∀ a ∈ used, recs a = none → DelPending md5 host s a ∨ replica a = none
  older : ∀ a ∈ used, ¬ DelPending md5 host s a → ∀ r, recs a = some r → ∀ old ∈ replica a, old.2 ≤ r.version

variable {replica : Address → Option (Bytes × Nat)}

theorem tracks_empty (h : ∀ a ∈ used, replica a = content recs a) :
    Tracks md5 used host ⟨db, .empty⟩ recs replica where
  noted key val hget := by cases hget
  put_noted a ha _ _ _ := .inr ⟨by simp [DelPending], h a ha⟩
  del_noted a ha hnone := .inr (by simp [h a ha, content, hnone])
  older a ha _ r hr old hold := by
    rw [h a ha] at hold
    simp only [content, Function.comp_apply, hr, Option.map_some, Option.mem_def, Option.some.injEq] at hold
    rw [← hold]
    exact le_rfl

variable {db' : Db}

theorem Tracks.keep (h : Tracks md5 used host s recs replica) (hlocate : ∀ k, db'.locate k = s.db.locate k)
    (hcount : db'.data.fileCount = s.db.data.fileCount) :
    Tracks md5 used host ⟨db', s.binlog⟩ recs replica where
  noted := h.noted
  put_noted a ha blockId version hfound := by
    rw [hlocate] at hfound
    refine (h.put_noted a ha blockId version hfound).imp_left ?_
    rintro ⟨m, name, timestamp, hput, hname, htable, hget⟩
    refine ⟨m, name, timestamp, hput, hname, htable, ?_⟩
    rw [fileOf_congr hcount]
    exact hget
  del_noted := h.del_noted
  older := h.older

theorem hustHashKey_lt (data : Bytes) : hustHashKey data < 2 ^ 32 := by
  rcases List.eq_nil_or_concat data with rfl | ⟨init, b, rfl⟩
  · decide
  · rw [hustHashKey, List.concat_eq_append, List.foldl_append]
    exact Nat.mod_lt _ (by decide)

theorem fileOf_lt (db : Db) (md5 : Bytes → InnerKey) (a : Address) : db.fileOf md5 a < 2 ^ 32 :=
  (Nat.mod_le _ _).trans_lt (hustHashKey_lt _)

theorem delPending_insert (hne : delKey host a.table (a.digest md5) ≠ key) :
    DelPending md5 host ⟨db', s.binlog.insert key val⟩ a ↔ DelPending md5 host s a := by
  rw [DelPending, DelPending, SortedMap.get?_insert_of_ne _ _ hne]

theorem putPending_insert
    (hcount : db'.data.fileCount = s.db.data.fileCount) (hne : putKey host a.table blockId ≠ key)
    (h : PutPending md5 host s a blockId) :
    PutPending md5 host ⟨db', s.binlog.insert key val⟩ a blockId := by
  obtain ⟨m, name, timestamp, hput, hname, htable, hget⟩ := h
  refine ⟨m, name, timestamp, hput, hname, htable, ?_⟩
  rw [SortedMap.get?_insert_of_ne _ _ hne, fileOf_congr hcount]
  exact hget

structure Spares (md5 : Bytes → InnerKey) (used : Set Address) (a : Address) (db db' : Db)
    (recs recs' : RecMap) : Prop where
  locate : ∀ b ∈ used, b ≠ a → db'.locate (b.digest md5) = db.locate (b.digest md5)
  recs : ∀ b, b ≠ a → recs' b = recs b
  fileCount : db'.data.fileCount = db.data.fileCount

section

variable (h : Tracks md5 used host s recs replica) (hspares : Spares md5 used a s.db db' recs recs')
include h hspares

/-- A new entry for `a`, under a key that no other address has. -/
theorem Tracks.insert (hnoted : Noted md5 used host key val)
    (hdelKey : ∀ b ∈ used, b ≠ a → delKey host b.table (b.digest md5) ≠ key)
    (hputKey : ∀ b ∈ used, b ≠ a → ∀ id v, db'.locate (b.digest md5) = .ok (id, v) → putKey host b.table id ≠ key)
    (hput : ∀ id v, db'.locate (a.digest md5) = .ok (id, v) →
      PutPending md5 host ⟨db', s.binlog.insert key val⟩ a id)
    (hdel : recs' a = none → DelPending md5 host ⟨db', s.binlog.insert key val⟩ a)
    (holder : ¬ DelPending md5 host ⟨db', s.binlog.insert key val⟩ a → ∀ r, recs' a = some r →
      ∀ old ∈ replica a, old.2 ≤ r.version) :
    Tracks md5 used host ⟨db', s.binlog.insert key val⟩ recs' replica := by
  refine ⟨fun key' val' hget => ?_, fun b hb id v hlocate => ?_, fun b hb hnone => ?_, fun b hb hpending r hr => ?_⟩
  · rw [SortedMap.get?_insert] at hget
    split_ifs at hget with hkey
    · cases hget
      exact hkey ▸ hnoted
    · exact h.noted key' val' hget
  · by_cases hba : b = a
    · subst hba
      exact .inl (hput id v hlocate)
    · have hne := hputKey b hb hba id v hlocate
      simp only at hlocate
      rw [hspares.locate b hb hba] at hlocate
      rw [delPending_insert (hdelKey b hb hba), content, Function.comp_apply, hspares.recs b hba]
      exact (h.put_noted b hb id v hlocate).imp_left (putPending_insert hspares.fileCount hne)
  · by_cases hba : b = a
    · subst hba
      exact .inl (hdel hnone)
    · rw [hspares.recs b hba] at hnone
      rw [delPending_insert (hdelKey b hb hba)]
      exact h.del_noted b hb hnone
  · by_cases hba : b = a
    · subst hba
      exact holder hpending r hr
    · rw [delPending_insert (hdelKey b hb hba)] at hpending
      rw [hspares.recs b hba] at hr
      exact h.older b hb hpending r hr

variable (hdistinct : Distinct md5 used) (ha : a ∈ used) (hdb : db'.Holds True md5 used dir recs')
include hdistinct ha hdb

theorem Tracks.put {r : Rec} (hrec : recs' a = some r) (hle : ∀ old, recs a = some old → old.version ≤ r.version)
    (hfound : db'.locate (a.digest md5) = .ok (blockId, version)) (hid : blockId.dataId < 2 ^ 32)
    {m : Method} {name : Bytes} (hput : m.isRem = false) (hname : Named m name)
    (htable : m.table name = a.table) (timestamp : Nat) :
    Tracks md5 used host ⟨db', s.binlog.insert (putKey host a.table blockId)
      (stamp m timestamp ++ le32 (db'.fileOf md5 a))⟩ recs' replica := by
  have hnoted : Noted md5 used host (putKey host a.table blockId) (stamp m timestamp ++ le32 (db'.fileOf md5 a)) :=
    htable ▸ .put hput hname ⟨a, ha, htable.symm⟩ hid (fileOf_lt ..)
  refine h.insert hspares hnoted (fun b hb _ => hdistinct.delKey_ne hb ha blockId)
    (fun b hb hba id v hlocate heq => hba (putKey_inj hdb hdistinct hb ha hlocate hfound heq))
    (fun id v hlocate => ?_) (fun hnone => ?_) fun hpending r' hr' old hold => ?_
  · obtain ⟨rfl, -⟩ := Prod.mk.inj (Except.ok.inj (hlocate.symm.trans hfound))
    exact ⟨m, name, timestamp, hput, hname, htable, SortedMap.get?_insert_self ..⟩
  · rw [hrec] at hnone
    cases hnone
  · rw [delPending_insert (hdistinct.delKey_ne ha ha blockId)] at hpending
    obtain rfl := Option.some.inj (hr'.symm.trans hrec)
    cases hold' : recs a with
    | none =>
      -- The replica lacks what the store lacked.
      have hnone := (h.del_noted a ha hold').resolve_left hpending
      rw [hnone] at hold
      cases hold
    | some r₀ => exact (h.older a ha hpending r₀ hold' old hold).trans (hle r₀ hold')

theorem Tracks.del (hrec : recs' a = none) {m : Method}
    {name : Bytes} (hrem : m.isRem = true) (hname : Named m name) (htable : m.table name = a.table)
    (huser : checkUserKey a.key = true) (timestamp : Nat) :
    Tracks md5 used host ⟨db', s.binlog.insert (delKey host a.table (a.digest md5))
      (stamp m timestamp ++ a.key)⟩ recs' replica := by
  have hself : DelPending md5 host ⟨db', s.binlog.insert (delKey host a.table (a.digest md5))
      (stamp m timestamp ++ a.key)⟩ a := by
    rw [DelPending, SortedMap.get?_insert_self]
    rfl
  have haddress : (⟨m.table name, a.key⟩ : Address) = a := by rw [htable]
  have hnoted : Noted md5 used host (delKey host (m.table name) (md5 (m.table name ++ a.key)))
      (stamp m timestamp ++ a.key) := .rem hrem hname (haddress.symm ▸ ha) huser
  rw [htable] at hnoted
  refine h.insert hspares hnoted (fun b hb hba heq => hba (hdistinct.delKey_inj hb ha heq))
    (fun b hb _ id _ _ => (hdistinct.delKey_ne ha hb id).symm) (fun id v hlocate => ?_) (fun _ => hself)
    fun hpending => absurd hself hpending
  rw [hdb.locate_none ha hrec] at hlocate
  cases hlocate

end

variable {isDup : Bool}

theorem putArgs_of_ok (hok : (db.put md5 q key val version isDup).1.r = .ok) : PutArgs key val version isDup := by
  by_contra hinvalid
  rw [put_of_invalid md5 db q hinvalid] at hok
  cases hok

theorem le_nextVersion {version current : Nat} (hrep : Representable current)
    (hdup : isDup → version ≠ 0) (haccept : Accepts version isDup current) :
    current ≤ nextVersion version isDup current := by
  have hlt := hrep.1
  have hmax : bucketDataMaxVersion = 4194303 := rfl
  cases isDup with
  | false =>
    simp only [nextVersion, Bool.false_eq_true, if_false, addVersion]
    rw [if_pos (by omega)]
    omega
  | true =>
    have hvalid := haccept.resolve_left (hdup rfl)
    simp only [if_true, binlogVersionValid] at hvalid
    simp only [nextVersion, if_true]
    split_ifs at hvalid with hle
    · exact hle
    · simp only [Bool.and_eq_true, decide_eq_true_eq] at hvalid
      omega

theorem putResult_ok {val : Bytes} (h : PutResult recs a q val version isDup reply recs') (hok : reply.r = .ok)
    (hle : ∀ old, recs a = some old → Accepts version isDup old.version →
      old.version ≤ nextVersion version isDup old.version) :
    (∀ b, b ≠ a → recs' b = recs b) ∧
    ∃ r, recs' a = some r ∧ ∀ old, recs a = some old → old.version ≤ r.version := by
  cases h with
  | invalid _ => cases hok
  | failed _ _ => cases hok
  | @refused r _ hpresent _ _ =>
    refine ⟨fun _ _ => rfl, r, hpresent, fun old hold => ?_⟩
    rw [Option.some.inj (hold.symm.trans hpresent)]
  | inserted habsent _ =>
    refine ⟨fun b hb => Function.update_of_ne hb _ _, _, Function.update_self .., fun old hold => ?_⟩
    rw [habsent] at hold
    cases hold
  | @updated r _ hpresent haccept _ =>
    refine ⟨fun b hb => Function.update_of_ne hb _ _, _, Function.update_self .., fun old hold => ?_⟩
    cases hold.symm.trans hpresent
    exact hle r hpresent haccept

theorem putResult_err {val : Bytes} (h : PutResult recs a q val version isDup reply recs') (hok : reply.r ≠ .ok) :
    recs' = recs := by
  cases h with
  | invalid _ => rfl
  | failed _ _ => rfl
  | refused _ _ _ => rfl
  | inserted _ _ => exact absurd rfl hok
  | updated _ _ _ => exact absurd rfl hok

theorem delResult_ok (h : DelResult recs a version isDup reply recs') (hok : reply.r = .ok)
    (hspared : Spared recs a version isDup) : recs' = Function.update recs a none := by
  cases h with
  | invalid _ => cases hok
  | absent _ _ => cases hok
  | @refused r _ hpresent hrefuse _ =>
    cases isDup with
    | true => exact absurd (hspared rfl r hpresent) hrefuse
    | false => cases hok
  | removed _ _ _ => rfl

theorem delResult_err (h : DelResult recs a version isDup reply recs') (hok : reply.r ≠ .ok) : recs' = recs := by
  cases h with
  | invalid _ => rfl
  | absent _ _ => rfl
  | refused _ _ _ => rfl
  | removed _ _ _ => exact absurd rfl hok

section

variable (hdb : db.Holds True md5 used dir recs) (hinj : Set.InjOn (Address.digest md5) used) (hu : u.address ∈ used)
include hdb hinj hu

theorem run_rem_holds (hrem : u.method.isRem = true) (hsound : u.call.Sound md5 db)
    (hunrefused : u.call.Unrefused md5 db) :
    ∃ dir' recs', (u.run md5 db).2.Holds True md5 used dir' recs' ∧
      ((u.run md5 db).1.r = .ok → recs' = Function.update recs u.address none) ∧
      ((u.run md5 db).1.r ≠ .ok → recs' = recs) := by
  rw [Update.run_rem hrem]
  rw [Update.call_rem hrem] at hsound hunrefused
  have hspared : Spared recs u.address u.ver u.isDup := hdb.spared hu rfl hunrefused
  obtain ⟨dir', recs', hdb', hresult⟩ := hdb.del hinj hu rfl hsound.1 fun _ => hspared
  exact ⟨dir', recs', hdb', fun hok => delResult_ok hresult hok hspared, delResult_err hresult⟩

theorem run_put_holds (hput : u.method.isRem = false) (hsound : u.call.Sound md5 db) :
    ∃ dir' recs', (u.run md5 db).2.Holds True md5 used dir' recs' ∧
      ((u.run md5 db).1.r = .ok → (∀ b, b ≠ u.address → recs' b = recs b) ∧ ∃ r, recs' u.address = some r ∧
          ∀ old, recs u.address = some old → old.version ≤ r.version) ∧
      ((u.run md5 db).1.r ≠ .ok → recs' = recs) := by
  rw [Update.run_put hput]
  rw [Update.call_put hput] at hsound
  obtain ⟨dir', recs', hdb', hresult⟩ := hdb.put hinj hu rfl hsound
  refine ⟨dir', recs', hdb', fun hok => ?_, putResult_err hresult⟩
  have hargs := putArgs_of_ok hok
  refine putResult_ok hresult hok fun old hold haccept => ?_
  obtain ⟨id, hk⟩ := hdb.dir_some hu hold
  exact le_nextVersion (hdb.versions.exact _ _ hk) hargs.binlog haccept

end

theorem Tracks.update (h : Tracks md5 used host s recs replica)
    (hdb : s.db.Holds True md5 used dir recs) (hdistinct : Distinct md5 used)
    (hhost : hostBytes inetAddr text = some host) (hu : u.address ∈ used)
    (hrecorded : u.Recorded md5 inetAddr text s) :
    ∃ dir' recs', (s.update md5 inetAddr text u).db.Holds True md5 used dir' recs' ∧
      Tracks md5 used host (s.update md5 inetAddr text u) recs' replica := by
  obtain ⟨hnamed, hsound, hunrefused, hwritten⟩ := hrecorded
  have hcount := fileCount_run hdb.versions hsound
  have hother (b) (hb : b ∈ used) (hba : b ≠ u.address) :
      (u.run md5 s.db).2.locate (b.digest md5) = s.db.locate (b.digest md5) :=
    locate_run hdb.versions hsound (.inl fun heq => hba (hdistinct.digest hb hu heq))
  have hfailed (hok : (u.run md5 s.db).1.r ≠ .ok) (k : InnerKey) :
      (u.run md5 s.db).2.locate k = s.db.locate k := locate_run hdb.versions hsound (.inr hok)
  unfold Site.update
  simp only
  cases hrem : u.method.isRem with
  | true =>
    obtain ⟨dir', recs', hdb', hdone, hkept⟩ :=
      run_rem_holds hdb hdistinct.digest hu hrem hsound hunrefused
    refine ⟨dir', recs', ?_⟩
    split_ifs with hok
    · obtain ⟨huser, hfile⟩ := hustdbBinlog_rem hhost hrem (hwritten hok)
      obtain rfl := hdone hok
      rw [hfile]
      exact ⟨hdb', h.del ⟨hother, fun b hb => Function.update_of_ne hb _ _, hcount⟩ hdistinct hu hdb'
        (Function.update_self ..) hrem hnamed rfl huser u.now⟩
    · obtain rfl := hkept hok
      exact ⟨hdb', h.keep (hfailed hok) hcount⟩
  | false =>
    obtain ⟨dir', recs', hdb', hdone, hkept⟩ := run_put_holds hdb hdistinct.digest hu hrem hsound
    refine ⟨dir', recs', ?_⟩
    split_ifs with hok
    · obtain ⟨hrecs, r, hr, hle⟩ := hdone hok
      obtain ⟨e, hk, hfound⟩ := hdb'.locate_some hu hr
      rw [hustdbBinlog_put hhost hrem (hdb'.fits _ hu r hr).version_pos hfound (hwritten hok)]
      exact ⟨hdb', h.put ⟨hother, hrecs, hcount⟩ hdistinct hu hdb' hr hle hfound
        (hdb'.dataId_lt hk) hrem hnamed rfl u.now⟩
    · obtain rfl := hkept hok
      exact ⟨hdb', h.keep (hfailed hok) hcount⟩

end HustStore.Binlog
