import HustStore.Binlog.Tracking

/-!
# Convergence of a replica

The scan makes of the entries exactly the requests that bring a tracked replica up to date, but it replays them
in the order of their keys.
-/

namespace HustStore.Binlog

open Md5db Md5db.Db

variable {md5 : Bytes → InnerKey} {inetAddr : Bytes → Nat} {used : Set Address} {db : Db}
  {dir : Directory} {recs : RecMap} {a : Address} {text host key val : Bytes} {t : Task} {s : Site}
  {scan : Scan} {replica : Address → Option (Bytes × Nat)}

/-! ### The tasks of a scan -/

theorem Noted.not_stale (h : Noted md5 used host key val) (hhost : host.length = hostLen)
    (hfresh : timedOut scan val = false) : stale scan key val = false ∧ key.take hostLen = host := by
  have hlen : hostLen < key.length ∧ stampLen < val.length ∧ key.take hostLen = host := by
    cases h with
    | @rem m name key timestamp _ _ _ huser =>
      have hpos : 0 < key.length := by
        simp only [checkUserKey, Bool.and_eq_true, decide_eq_true_eq] at huser
        exact huser.1
      refine ⟨?_, ?_, List.take_left' hhost⟩
      · rw [delKey, List.length_append, List.length_append, hhost, length_bytes_innerKey]
        omega
      · rw [List.length_append, show (stamp m timestamp).length = stampLen from rfl]
        omega
    | @put m name blockId timestamp fileId _ _ _ _ _ =>
      refine ⟨?_, ?_, List.take_left' hhost⟩
      · rw [putKey, List.length_append, hhost, KvArray.listingKey, List.length_append, BlockId.length_bytes]
        omega
      · rw [List.length_append, show (stamp m timestamp).length = stampLen from rfl, length_le32]
        omega
  refine ⟨?_, hlen.2.2⟩
  simp only [stale, hfresh, Bool.or_false, Bool.or_eq_false_iff, decide_eq_false_iff_not]
  omega

theorem scanLoop_tasks {entries : List (Bytes × Bytes)}
    (hentries : ∀ e ∈ entries, stale scan e.1 e.2 = false ∧ e.1.take hostLen = host)
    (halive : scan.alive host = true) (hqueued : ∀ key, scan.queued key = true)
    {cursor : Option (Bytes × Bool)} (hcursor : cursor = none ∨ cursor = some (host, true)) :
    (scanLoop md5 db scan [] cursor entries).tasks = entries.filterMap fun e => taskOf md5 db e.1 e.2 := by
  induction entries generalizing cursor with
  | nil => rfl
  | cons e rest ih =>
    obtain ⟨key, val⟩ := e
    obtain ⟨hstale, htake⟩ := hentries (key, val) (by simp)
    have hrest := ih (fun e he => hentries e (by simp [he])) (.inr rfl)
    have hhost : (if cursor.any fun c => c.1 = host then cursor.any Prod.snd
        else scan.alive host) = true := by
      rcases hcursor with rfl | rfl
      · simpa using halive
      · simp
    rw [scanLoop, if_neg (List.not_lt_nil key)]
    simp only at hstale htake
    simp only [hstale, Bool.false_eq_true, if_false, htake, hhost, Bool.not_true, hqueued, if_true]
    cases htask : taskOf md5 db key val with
    | none => simp only [htask, hrest, List.filterMap_cons]
    | some t => simp only [htask, hrest, List.filterMap_cons]

def requests (md5 : Bytes → InnerKey) (db : Db) (file : SortedMap Bytes Bytes) :
    List (Bytes × Replay.Request Address (Bytes × Nat)) :=
  file.entries.filterMap fun e => (taskOf md5 db e.1 e.2).map fun t => (e.1, t.request)

theorem requests_sorted (file : SortedMap Bytes Bytes) : (requests md5 db file).Pairwise fun x y => x.1 < y.1 := by
  refine file.sorted.filterMap _ fun e e' hlt x hx y hy => ?_
  obtain ⟨t, -, rfl⟩ := Option.map_eq_some_iff.mp hx
  obtain ⟨t', -, rfl⟩ := Option.map_eq_some_iff.mp hy
  exact hlt

theorem mem_requests {file : SortedMap Bytes Bytes} {x : Bytes × Replay.Request Address (Bytes × Nat)} :
    x ∈ requests md5 db file ↔
      ∃ val t, file.get? x.1 = some val ∧ taskOf md5 db x.1 val = some t ∧ t.request = x.2 := by
  obtain ⟨key, r⟩ := x
  simp only [requests, List.mem_filterMap, Option.map_eq_some_iff, Prod.exists, Prod.mk.injEq, SortedMap.mem_entries]
  constructor
  · rintro ⟨key', val, hget, t, ht, rfl, rfl⟩
    exact ⟨val, t, hget, ht, rfl⟩
  · rintro ⟨val, t, hget, ht, rfl⟩
    exact ⟨key, val, hget, t, ht, rfl, rfl⟩

/-! ### The requests of a tracked replica -/

section Requests

variable (h : Tracks md5 used host s recs replica) (hdb : s.db.Holds True md5 used dir recs)
  (hdistinct : Distinct md5 used) (hhost : host.length = hostLen)

include h hdb hhost

theorem Tracks.task (hget : s.binlog.get? key = some val) (ht : taskOf md5 s.db key val = some t) : t.Made used ∧
    ((t.method.isRem = true ∧ key = delKey host t.address.table (t.address.digest md5)) ∨
      (t.method.isRem = false ∧ ∃ blockId, content recs t.address = some (t.value, t.ver) ∧
        s.db.locate (t.address.digest md5) = .ok (blockId, t.ver) ∧
        key = putKey host t.address.table blockId)) := by
  cases h.noted key val hget with
  | @rem m name key timestamp hrem hname hmem huser =>
    obtain ⟨t', ht', hrem', hver, haddress⟩ := taskOf_rem md5 hhost hrem hname s.db
      (md5 (m.table name ++ key)) timestamp key
    obtain rfl := Option.some.inj (ht'.symm.trans ht)
    have hkey : t'.key = key := congrArg Address.key haddress
    rw [haddress]
    exact ⟨⟨haddress ▸ hmem, fun _ => ⟨hver, hkey ▸ huser⟩⟩, .inl ⟨hrem', rfl⟩⟩
  | @put m name blockId timestamp fileId hput hname hmem hid hfile =>
    obtain ⟨hput', hmem', r, e, hr, hval, hver, hk, htable, hblock⟩ :=
      taskOf_put_spec hdb hhost hput hname hid ht
    obtain ⟨e', hk', hlocate⟩ := hdb.locate_some hmem' hr
    obtain rfl := Option.some.inj (hk'.symm.trans hk)
    refine ⟨⟨hmem', fun hrem => ?_⟩, .inr ⟨hput', blockId, ?_, ?_, ?_⟩⟩
    · rw [hput'] at hrem
      cases hrem
    · rw [content, Function.comp_apply, hr, hval, hver]
      rfl
    · rw [hlocate, hver, hblock]
    · rw [htable]

theorem Tracks.set_request {b : Bytes × Nat} (hmem : (key, .set a b) ∈ requests md5 s.db s.binlog) :
    a ∈ used ∧ content recs a = some b ∧ ∃ blockId, s.db.locate (a.digest md5) = .ok (blockId, b.2) ∧
        key = putKey host a.table blockId := by
  obtain ⟨val, t, hget, ht, hrequest⟩ := mem_requests.mp hmem
  obtain ⟨hmade, ⟨hrem, -⟩ | ⟨hput, blockId, hcontent, hlocate, hkey⟩⟩ := h.task hdb hhost hget ht
  · rw [Task.request, if_pos hrem] at hrequest
    cases hrequest
  · rw [Task.request, if_neg (by simp [hput])] at hrequest
    cases hrequest
    exact ⟨hmade.mem, hcontent, blockId, hlocate, hkey⟩

theorem Tracks.clear_request (hmem : (key, .clear a) ∈ requests md5 s.db s.binlog) :
    key = delKey host a.table (a.digest md5) ∧ DelPending md5 host s a := by
  obtain ⟨val, t, hget, ht, hrequest⟩ := mem_requests.mp hmem
  obtain ⟨-, ⟨hrem, rfl⟩ | ⟨hput, -⟩⟩ := h.task hdb hhost hget ht
  · rw [Task.request, if_pos hrem] at hrequest
    cases hrequest
    exact ⟨rfl, Option.isSome_iff_exists.mpr ⟨val, hget⟩⟩
  · rw [Task.request, if_neg (by simp [hput])] at hrequest
    cases hrequest

include hdistinct

omit hdb in
theorem Tracks.clear_mem (ha : a ∈ used) (hpending : DelPending md5 host s a) :
    (delKey host a.table (a.digest md5), .clear a) ∈ requests md5 s.db s.binlog := by
  obtain ⟨val, hget⟩ := Option.isSome_iff_exists.mp hpending
  generalize hkey : delKey host a.table (a.digest md5) = key at hget
  have hnoted := h.noted key val hget
  rw [mem_requests]
  cases hnoted with
  | @rem m name key timestamp hrem hname hmem huser =>
    obtain ⟨t, ht, hrem', -, haddress⟩ := taskOf_rem md5 hhost hrem hname s.db
      (md5 (m.table name ++ key)) timestamp key
    have heq : a = ⟨m.table name, key⟩ := hdistinct.delKey_inj ha hmem hkey
    refine ⟨_, t, hget, ht, ?_⟩
    rw [Task.request, if_pos hrem', haddress, heq]
  | put _ _ hmem _ _ =>
    obtain ⟨b, hb, htable⟩ := hmem
    rw [← htable] at hkey
    exact absurd hkey (hdistinct.delKey_ne ha hb _)

theorem Tracks.set_mem (ha : a ∈ used) {blockId : BlockId} {version : Nat}
    (hlocate : s.db.locate (a.digest md5) = .ok (blockId, version))
    (hpending : PutPending md5 host s a blockId) :
    ∃ b, (putKey host a.table blockId, .set a b) ∈ requests md5 s.db s.binlog := by
  obtain ⟨m, name, timestamp, hput, hname, htable, hget⟩ := hpending
  have hfiles := hdb.versions.run.files_pos
  have hlisted : (s.db.data.files (s.db.fileOf md5 a)).get?
      (KvArray.listingKey (m.table name) blockId) = some [] := by
    have hinv := hdb.versions.run.inv.locate (a.digest md5)
    cases hk : dir (a.digest md5) with
    | none =>
      rw [hk, hlocate] at hinv
      cases hinv
    | some e =>
      rw [hk, hlocate] at hinv
      rw [htable, (Prod.mk.inj (Except.ok.inj hinv)).1]
      exact hdb.listed_all trivial a ha e hk
  obtain ⟨t, ht⟩ := taskOf_put_isSome md5 hhost hput hname timestamp (fileOf_lt s.db md5 a)
    (Nat.mod_lt _ hfiles) hlisted
  rw [htable] at ht
  obtain ⟨hmade, ⟨-, hkey⟩ | ⟨hput', blockId', -, hlocate', hkey⟩⟩ := h.task hdb hhost hget ht
  · exact absurd hkey.symm (hdistinct.delKey_ne hmade.mem ha blockId)
  · obtain rfl := putKey_inj hdb hdistinct ha hmade.mem hlocate hlocate' hkey
    refine ⟨(t.value, t.ver), mem_requests.mpr ⟨_, t, hget, ht, ?_⟩⟩
    rw [Task.request, if_neg (by simp [hput'])]

theorem Tracks.covers : Replay.Covers Takes used replica (content recs)
    ((requests md5 s.db s.binlog).map Prod.snd) := by
  have hmem {r : Replay.Request Address (Bytes × Nat)} (hr : r ∈ (requests md5 s.db s.binlog).map Prod.snd) :
      ∃ key, (key, r) ∈ requests md5 s.db s.binlog := by
    obtain ⟨⟨key, r'⟩, hx, rfl⟩ := List.mem_map.mp hr
    exact ⟨key, hx⟩
  -- A record without a request to set it is not noted, so the replica has it.
  have hpresent {a : Address} (ha : a ∈ used) {r : Rec} (hr : recs a = some r)
      (hset : ∀ b, .set a b ∉ (requests md5 s.db s.binlog).map Prod.snd) :
      ¬ DelPending md5 host s a ∧ replica a = content recs a := by
    obtain ⟨e, -, hlocate⟩ := hdb.locate_some ha hr
    refine (h.put_noted a ha _ _ hlocate).resolve_left fun hpending => ?_
    obtain ⟨b, hb⟩ := h.set_mem hdb hdistinct hhost ha hlocate hpending
    exact hset b (List.mem_map_of_mem hb)
  refine ⟨fun a b hset => ?_, fun a b hset => ?_, fun a ha hset hclear => ?_, fun a ha hset hclear => ?_⟩
  · obtain ⟨key, hkey⟩ := hmem hset
    exact (h.set_request hdb hhost hkey).2.1
  · obtain ⟨key, hkey⟩ := hmem hset
    obtain ⟨ha, hcontent, -⟩ := h.set_request hdb hhost hkey
    by_cases hpending : DelPending md5 host s a
    · exact .inl (List.mem_map_of_mem (h.clear_mem hdistinct hhost ha hpending))
    · refine .inr fun old hold => .inl (.inr ?_)
      obtain ⟨r, hr, rfl⟩ := Option.map_eq_some_iff.mp hcontent
      have hle : old.2 ≤ r.reading.2 := h.older a ha hpending r hr old hold
      simp [binlogVersionValid, hle]
  · obtain ⟨key, hkey⟩ := hmem hclear
    cases hr : recs a with
    | none => simp [content, hr]
    | some r =>
      exact absurd (h.clear_request hdb hhost hkey).2 (hpresent ha hr hset).1
  · cases hr : recs a with
    | some r => exact (hpresent ha hr hset).2
    | none =>
      rcases h.del_noted a ha hr with hpending | hnone
      · exact absurd (List.mem_map_of_mem (h.clear_mem hdistinct hhost ha hpending)) hclear
      · simp [content, hr, hnone]

def setKey (md5 : Bytes → InnerKey) (host : Bytes) (db : Db) (a : Address) : Bytes :=
  match db.locate (a.digest md5) with
  | .ok (blockId, _) => putKey host a.table blockId
  | .error _ => []

theorem Tracks.replay_iff :
    Set.EqOn (Replay.replay Takes replica ((requests md5 s.db s.binlog).map Prod.snd)) (content recs) used ↔
      ∀ a ∈ used, ∀ blockId version, s.db.locate (a.digest md5) = .ok (blockId, version) → DelPending md5 host s a →
        delKey host a.table (a.digest md5) < putKey host a.table blockId := by
  have hset (key a b) (hmem : (key, .set a b) ∈ requests md5 s.db s.binlog) :
      a ∈ used ∧ key = setKey md5 host s.db a := by
    obtain ⟨ha, -, blockId, hlocate, rfl⟩ := h.set_request hdb hhost hmem
    rw [setKey, hlocate]
    exact ⟨ha, rfl⟩
  have hclear (key : Bytes) (a : Address) (hmem : (key, .clear a) ∈ requests md5 s.db s.binlog) :
      key = delKey host a.table (a.digest md5) := (h.clear_request hdb hhost hmem).1
  rw [Replay.replay_eqOn_iff (h.covers hdb hdistinct hhost) (requests_sorted s.binlog) hset hclear]
  constructor
  · intro hkeys a ha blockId version hlocate hpending
    -- A deletion is pending, so the present record is noted as well.
    have hput := (h.put_noted a ha blockId version hlocate).resolve_right fun hnot =>
      hnot.1 hpending
    obtain ⟨b, hb⟩ := h.set_mem hdb hdistinct hhost ha hlocate hput
    have hsetKey : setKey md5 host s.db a = putKey host a.table blockId := by rw [setKey, hlocate]
    have hlt := hkeys a b (hsetKey.symm ▸ hb) (h.clear_mem hdistinct hhost ha hpending)
    rwa [hsetKey] at hlt
  · intro hkeys a b hmem hmem'
    obtain ⟨ha, -, blockId, hlocate, hkey⟩ := h.set_request hdb hhost hmem
    rw [hkey]
    exact hkeys a ha blockId b.2 hlocate (h.clear_request hdb hhost hmem').2

end Requests

/-! ### Convergence -/

theorem tasks_map_request (file : SortedMap Bytes Bytes) :
    (file.entries.filterMap fun e => taskOf md5 db e.1 e.2).map Task.request =
      (requests md5 db file).map Prod.snd := by
  rw [requests, List.map_filterMap, List.map_filterMap]
  congr 1
  funext e
  cases taskOf md5 db e.1 e.2 <;> rfl

theorem tracks_run {updates : List Update} (hdistinct : Distinct md5 used)
    (hhost : hostBytes inetAddr text = some host) (hdb : s.db.Holds True md5 used dir recs)
    (htracks : Tracks md5 used host s recs replica) (hused : ∀ u ∈ updates, u.address ∈ used)
    (hrecorded : Run.Guarded (Site.update md5 inetAddr text) (fun s u => u.Recorded md5 inetAddr text s) s updates) :
    ∃ dir' recs', (Run.exec (Site.update md5 inetAddr text) s updates).db.Holds True md5 used dir' recs' ∧
      Tracks md5 used host (Run.exec (Site.update md5 inetAddr text) s updates) recs' replica := by
  refine (hrecorded.and_forall hused).invariant (P := fun s => ∃ dir recs,
    s.db.Holds True md5 used dir recs ∧ Tracks md5 used host s recs replica)
    (fun s u hs hu => ?_) ⟨dir, recs, hdb, htracks⟩
  obtain ⟨dir, recs, hdb, htracks⟩ := hs
  exact htracks.update hdb hdistinct hhost hu.1 hu.2

def loopback (_ : Bytes) : Nat := 0x0100007f

def peer : Bytes := ascii "127.0.0.1:8085"

def putAgain (key : Bytes) : List Update :=
  [⟨.put, [], key, [1], 0, false, 0, 0, 100⟩, ⟨.del, [], key, [], 0, false, 0, 0, 100⟩,
    ⟨.put, [], key, [2], 0, false, 0, 0, 100⟩]

def sitePutAgain (key : Bytes) : Site :=
  Run.exec (Site.update Md5.md5 loopback peer) ⟨Db.create ⟨4, 2, 1, 1⟩, .empty⟩ (putAgain key)

def scanAlive : Scan := ⟨200, 1000, fun _ => true, fun _ => true⟩

@[irreducible] def tasksPutAgain (key : Bytes) : List Task :=
  (binlogScan Md5.md5 (sitePutAgain key).db (sitePutAgain key).binlog scanAlive).1

def replicaPutAgain (key : Bytes) : Db :=
  Run.exec (replayTask Md5.md5 200) (Db.create ⟨4, 2, 1, 1⟩) (tasksPutAgain key)

/-- Two puts of a key, of which the second stores the version 64. -/
def mangledPut : List Update :=
  [⟨.put, [], ascii "k", [1], 63, true, 0, 0, 100⟩, ⟨.put, [], ascii "k", [2], 0, false, 0, 0, 100⟩]

end HustStore.Binlog
