import HustStore.Binlog.Delivery

/-!
# The rounds of a scan

A scan opens an iterator and goes through the entries. Where a host turns out to be not alive, it drops the
iterator and opens another one behind the last entry of the host.
-/

namespace HustStore.Binlog

open Md5db

/-- What an iterator leads to: the calls of the task callback, the entries that are removed, the last
host with its state, and the entry at which a host is given up. -/
structure Round where
  calls : List Task
  removed : List Bytes
  cursor : Option (Bytes × Bool)
  stop : Option Bytes

structure ScanTrace where
  calls : List Task
  removed : List Bytes
  skips : List Bytes
  file : SortedMap Bytes Bytes

section

variable (md5 : Bytes → InnerKey)

def roundLoop (db : Db) (scan : Scan) (cursor : Option (Bytes × Bool)) : List (Bytes × Bytes) → Round
  | [] => ⟨[], [], cursor, none⟩
  | (key, val) :: rest =>
    if stale scan key val then
      let next := roundLoop db scan cursor rest
      { next with removed := key :: next.removed }
    else
      let host := key.take hostLen
      let alive := if cursor.any fun c => c.1 = host then cursor.any Prod.snd else scan.alive host
      if !alive then ⟨[], [], some (host, false), some key⟩
      else
        match taskOf md5 db key val with
        | none =>
          let next := roundLoop db scan (some (host, true)) rest
          { next with removed := key :: next.removed }
        | some task =>
          let next := roundLoop db scan (some (host, scan.queued key)) rest
          { next with calls := task :: next.calls }

def scanRounds (db : Db) (scan : Scan) :
    Nat → SortedMap Bytes Bytes → Bytes → Option (Bytes × Bool) → Option ScanTrace
  | 0, _, _, _ => none
  | fuel + 1, file, seek, cursor =>
    let round := roundLoop md5 db scan cursor (file.entries.dropWhile (·.1 < seek))
    let file := round.removed.foldl SortedMap.erase file
    match round.stop with
    | none => some ⟨round.calls, round.removed, [], file⟩
    | some key =>
      (scanRounds db scan fuel file (nextHost (key.take hostLen)) round.cursor).map fun next =>
        ⟨round.calls ++ next.calls, round.removed ++ next.removed, key :: next.skips, next.file⟩

end

/-! ### The keys of the entries -/

def hostKey (ip port : Nat) : Bytes := le32 ip ++ Decimal.pad 5 port

/-- The keys that are written for hosts with a port from 1 to 65534: for a put of a record with a data
id, or for a deletion, unless that is of a key without a table whose digest is all zeros. -/
inductive EntryKey : Bytes → Prop
  | put (ip port : Nat) (m : Method) (name : Bytes) (blockId : BlockId) (hport : 1 ≤ port ∧ port ≤ 65534)
    (hdata : 1 ≤ blockId.dataId ∧ blockId.dataId < 2 ^ 32) :
    EntryKey (putKey (hostKey ip port) (m.table name) blockId)
  | del (ip port : Nat) (m : Method) (name : Bytes) (innerKey : InnerKey) (hport : 1 ≤ port ∧ port ≤ 65534)
    (hdigest : m.table name ≠ [] ∨ innerKey.bytes ≠ List.replicate 16 0) :
    EntryKey (delKey (hostKey ip port) (m.table name) innerKey)

def Marked (key : Bytes) : Prop :=
  ∃ ip port rest, 1 ≤ port ∧ port ≤ 65534 ∧ key = hostKey ip port ++ rest ∧ ∃ b ∈ rest, b ≠ 0

theorem Method.type_code_ne_zero (m : Method) : m.type.code ≠ 0 := by cases m <;> decide

theorem exists_ne_zero_table {m : Method} {name : Bytes} (h : m.table name ≠ []) : ∃ b ∈ m.table name, b ≠ 0 := by
  unfold Method.table at h ⊢
  split_ifs at h ⊢ with hplain
  · exact absurd rfl h
  · unfold innerTable at h ⊢
    split_ifs at h ⊢ with hname
    · exact absurd rfl h
    · exact ⟨m.type.code, by simp, m.type_code_ne_zero⟩

theorem exists_ne_zero_blockId {blockId : BlockId} (h : 1 ≤ blockId.dataId ∧ blockId.dataId < 2 ^ 32) :
    ∃ b ∈ blockId.bytes, b ≠ 0 := by
  by_contra hnone
  have hall : ∀ b ∈ le32 blockId.dataId, b = 0 := fun b hb =>
    by_contra fun hne => hnone ⟨b, List.mem_cons_of_mem _ hb, hne⟩
  have hzero : le32 blockId.dataId = le32 0 := List.eq_replicate_iff.mpr ⟨rfl, hall⟩
  have := le32_inj h.2 (by decide) hzero
  omega

variable {key : Bytes}

theorem EntryKey.marked (h : EntryKey key) : Marked key := by
  cases h with
  | put ip port m name blockId hport hdata =>
    obtain ⟨b, hb, hne⟩ := exists_ne_zero_blockId hdata
    exact ⟨ip, port, _, hport.1, hport.2, rfl, b, List.mem_append_right _ hb, hne⟩
  | del ip port m name innerKey hport hdigest =>
    refine ⟨ip, port, _, hport.1, hport.2, rfl, ?_⟩
    by_cases htable : m.table name = []
    · by_contra hnone
      refine hdigest.resolve_left (fun h => h htable) (List.eq_replicate_iff.mpr ?_)
      refine ⟨length_bytes_innerKey innerKey, fun b hb => by_contra fun hne => hnone ⟨b, ?_, hne⟩⟩
      exact List.mem_append_right _ hb
    · obtain ⟨b, hb, hne⟩ := exists_ne_zero_table htable
      exact ⟨b, List.mem_append_left _ hb, hne⟩

theorem length_hostKey (ip port : Nat) : (hostKey ip port).length = hostLen := by
  simp [hostKey, hostLen]

theorem take_hostKey (ip port : Nat) (rest : Bytes) : (hostKey ip port ++ rest).take hostLen = hostKey ip port := by
  rw [← length_hostKey ip port, List.take_left]

theorem atoi_pad {port : Nat} (h : port < 10 ^ 5) : atoi (Decimal.pad 5 port) = port := by
  have hvalue : Decimal.ofDigits (Decimal.pad 5 port) = port := by
    rw [Decimal.ofDigits_pad, Nat.mod_eq_of_lt h]
  have hread : Decimal.strtoll (Decimal.pad 5 port) = some ((port : Int), []) := by
    rw [Decimal.strtoll_of_isDigit (by simp [Decimal.pad]) (fun _ => Decimal.isDigit_of_mem_pad) (by omega), hvalue]
  rw [atoi, hread]
  simp only
  omega

theorem nextHost_hostKey {ip port : Nat} (h : port ≤ 65534) :
    nextHost (hostKey ip port) = hostKey ip (port + 1) ++ List.replicate 23 0 := by
  have hip : (hostKey ip port).take 4 = le32 ip := rfl
  have hport : (hostKey ip port).drop 4 = Decimal.pad 5 port := rfl
  rw [nextHost, hip, hport, atoi_pad (by omega)]
  rfl

/-! ### The order of the keys -/

theorem hostKey_lt_hostKey_iff {ip ip' port port' : Nat} : hostKey ip port < hostKey ip' port' ↔
      le32 ip < le32 ip' ∨ le32 ip = le32 ip' ∧ Decimal.pad 5 port < Decimal.pad 5 port' :=
  Walk.append_lt_append_iff rfl

theorem Marked.lt_nextHost (h : Marked key) : key < nextHost (key.take hostLen) := by
  obtain ⟨ip, port, rest, _, hport, rfl, _⟩ := h
  have hlt : Decimal.pad 5 port < Decimal.pad 5 (port + 1) :=
    Decimal.pad_lt_pad (Nat.lt_succ_self port) (by omega)
  rw [take_hostKey, nextHost_hostKey hport, Walk.append_lt_append_iff (by simp [hostKey])]
  exact .inl (hostKey_lt_hostKey_iff.mpr (.inr ⟨rfl, hlt⟩))

theorem Marked.take_eq_of_between {key other : Bytes} (h : Marked key) (hother : Marked other)
    (hle : key ≤ other) (hlt : other < nextHost (key.take hostLen)) :
    other.take hostLen = key.take hostLen := by
  obtain ⟨ip, port, rest, _, hport, rfl, _⟩ := h
  obtain ⟨ip', port', rest', _, hport', rfl, b, hb, hne⟩ := hother
  rw [take_hostKey, nextHost_hostKey hport, Walk.append_lt_append_iff (by simp [hostKey])] at hlt
  rw [take_hostKey, take_hostKey]
  have hhost : hostKey ip' port' < hostKey ip (port + 1) := by
    refine hlt.resolve_right fun hzeros => hne ?_
    refine Walk.eq_replicate_of_lt (fun d hd => ?_) hzeros.2 b hb
    exact absurd hd (by rw [UInt8.lt_iff_toNat_lt]; exact Nat.not_lt_zero _)
  have hback : ¬ hostKey ip' port' < hostKey ip port := by
    intro hback
    refine absurd ?_ (not_lt.mpr hle)
    exact (Walk.append_lt_append_iff (by simp [hostKey])).mpr (.inl hback)
  rw [hostKey_lt_hostKey_iff] at hhost hback
  obtain hip | ⟨hip, hpad⟩ := hhost
  · exact absurd (.inl hip) hback
  · rw [Decimal.pad_lt_pad_iff (by omega) (by omega)] at hpad
    have hpad' : ¬ Decimal.pad 5 port' < Decimal.pad 5 port := fun hlt => hback (.inr ⟨hip, hlt⟩)
    rw [Decimal.pad_lt_pad_iff (by omega) (by omega)] at hpad'
    obtain rfl : port' = port := by omega
    rw [hostKey, hostKey, hip]

/-! ### One round -/

variable {md5 : Bytes → InnerKey} {db : Db} {scan : Scan}

structure Round.Covers (r : Round) (seen rest : List (Bytes × Bytes)) : Prop where
  calls : (r.calls.map Task.entry).Sublist (seen.map Prod.fst)
  removed : r.removed.Sublist (seen.map Prod.fst)
  all : ∀ e ∈ seen, e.1 ∈ r.removed ∨ e.1 ∈ r.calls.map Task.entry
  stop : r.stop = rest.head?.map Prod.fst

namespace Round.Covers

variable {r : Round} {seen rest : List (Bytes × Bytes)}

theorem remove (h : r.Covers seen rest) (key val : Bytes) :
    Round.Covers { r with removed := key :: r.removed } ((key, val) :: seen) rest where
  calls := h.calls.cons key
  removed := h.removed.cons_cons key
  all e he := by
    obtain rfl | he := List.mem_cons.mp he
    · exact .inl List.mem_cons_self
    · exact (h.all e he).imp_left (List.mem_cons_of_mem key)
  stop := h.stop

theorem call (h : r.Covers seen rest) {key val : Bytes} {t : Task} (ht : t.entry = key) :
    Round.Covers { r with calls := t :: r.calls } ((key, val) :: seen) rest where
  calls := by
    subst ht
    exact h.calls.cons_cons _
  removed := h.removed.cons key
  all e he := by
    obtain rfl | he := List.mem_cons.mp he
    · exact .inr (by simp [ht])
    · exact (h.all e he).imp_right (List.mem_cons_of_mem _)
  stop := h.stop

end Round.Covers

theorem roundLoop_covers (md5 : Bytes → InnerKey) (db : Db) (scan : Scan)
    (cursor : Option (Bytes × Bool)) (l : List (Bytes × Bytes)) :
    ∃ seen rest, l = seen ++ rest ∧ (roundLoop md5 db scan cursor l).Covers seen rest := by
  induction l generalizing cursor with
  | nil => exact ⟨[], [], rfl, .slnil, .slnil, by simp, rfl⟩
  | cons e l ih =>
    obtain ⟨key, val⟩ := e
    rw [roundLoop]
    split_ifs with hstale
    · obtain ⟨seen, rest, rfl, hcovers⟩ := ih cursor
      exact ⟨(key, val) :: seen, rest, rfl, hcovers.remove key val⟩
    simp only
    generalize (if cursor.any fun c => c.1 = key.take hostLen then cursor.any Prod.snd
      else scan.alive (key.take hostLen)) = alive
    cases alive with
    | false => exact ⟨[], (key, val) :: l, rfl, .slnil, .slnil, by simp, rfl⟩
    | true =>
      cases htask : taskOf md5 db key val with
      | none =>
        obtain ⟨seen, rest, rfl, hcovers⟩ := ih (some (key.take hostLen, true))
        exact ⟨(key, val) :: seen, rest, rfl, hcovers.remove key val⟩
      | some t =>
        obtain ⟨seen, rest, rfl, hcovers⟩ := ih (some (key.take hostLen, scan.queued key))
        exact ⟨(key, val) :: seen, rest, rfl, hcovers.call (taskOf_entry htask)⟩

/-! ### The rounds -/

variable {file : SortedMap Bytes Bytes}

theorem dropWhile_behind (removed : List Bytes)
    {before rest : List (Bytes × Bytes)} {key val seek : Bytes} (hentries : file.entries = before ++ (key, val) :: rest)
    (hremoved : ∀ k ∈ removed, k ∈ before.map Prod.fst) (hseek : key < seek) :
    (removed.foldl SortedMap.erase file).entries.dropWhile (·.1 < seek) =
      rest.filter fun e => !decide (e.1 < seek) := by
  have hsorted := file.sorted
  rw [hentries, List.pairwise_append] at hsorted
  obtain ⟨-, hrest, hbefore⟩ := hsorted
  have hrest := (List.pairwise_cons.mp hrest).1
  have hlow : ∀ e ∈ before, e.1 < key := fun e he => hbefore e he _ List.mem_cons_self
  rw [SortedMap.dropWhile_lt _ seek (fun e => decide_eq_true_iff),
    SortedMap.entries_foldl_erase file (p := fun e => decide (e.1 ∉ removed)) (fun e => decide_eq_true_iff),
    hentries, List.filter_filter, List.filter_append, List.filter_cons_of_neg (by simp [hseek])]
  have hnone : before.filter (fun e => !decide (e.1 < seek) && decide (e.1 ∉ removed)) = [] := by
    rw [List.filter_eq_nil_iff]
    intro e he
    simp [(hlow e he).trans hseek]
  rw [hnone, List.nil_append]
  refine List.filter_congr fun e he => ?_
  have hout : e.1 ∉ removed := by
    intro hmem
    obtain ⟨d, hd, heq⟩ := List.mem_map.mp (hremoved _ hmem)
    exact lt_asymm (hlow d hd) (heq ▸ hrest e he)
  simp [hout]

structure ScanTrace.Covers (t : ScanTrace) (l : List (Bytes × Bytes)) : Prop where
  calls : (t.calls.map Task.entry).Sublist (l.map Prod.fst)
  skips : ∀ k ∈ t.skips, k ∈ l.map Prod.fst
  all : ∀ e ∈ l, e.1 ∈ t.removed ∨ e.1 ∈ t.calls.map Task.entry ∨ ∃ k ∈ t.skips, e.1.take hostLen = k.take hostLen

variable {t : ScanTrace}

theorem Round.Covers.skip {r : Round} {seen rest : List (Bytes × Bytes)} {key val : Bytes}
    (h : r.Covers seen ((key, val) :: rest)) (hmarked : ∀ e ∈ seen ++ (key, val) :: rest, Marked e.1)
    (hsorted : ((key, val) :: rest).Pairwise fun a b => a.1 < b.1)
    (hnext : t.Covers (rest.filter fun e => !decide (e.1 < nextHost (key.take hostLen)))) :
    ScanTrace.Covers ⟨r.calls ++ t.calls, r.removed ++ t.removed, key :: t.skips, t.file⟩
      (seen ++ (key, val) :: rest) where
  calls := by
    rw [List.map_append, List.map_append]
    refine h.calls.append (.cons _ (hnext.calls.trans ?_))
    exact (List.filter_sublist).map _
  skips k hk := by
    obtain rfl | hk := List.mem_cons.mp hk
    · simp
    · have hmem := ((List.filter_sublist).map _).subset (hnext.skips k hk)
      simp only [List.map_append, List.map_cons, List.mem_append, List.mem_cons]
      exact .inr (.inr hmem)
  all e he := by
    simp only [List.mem_append, List.map_append]
    obtain he | he := List.mem_append.mp he
    · exact (h.all e he).imp .inl fun hcall => .inl (.inl hcall)
    · by_cases hlt : e.1 < nextHost (key.take hostLen)
      · -- The entry is passed by, so that it belongs to the host.
        refine .inr (.inr ⟨key, List.mem_cons_self, ?_⟩)
        refine (hmarked (key, val) (by simp)).take_eq_of_between (hmarked e (List.mem_append_right _ he)) ?_ hlt
        obtain rfl | he := List.mem_cons.mp he
        · exact le_rfl
        · exact le_of_lt ((List.pairwise_cons.mp hsorted).1 e he)
      · have hmem : e ∈ rest := by
          refine (List.mem_cons.mp he).resolve_left fun heq => hlt ?_
          rw [heq]
          exact (hmarked (key, val) (by simp)).lt_nextHost
        obtain hr | hc | ⟨k, hk, hhost⟩ := hnext.all e (List.mem_filter.mpr ⟨hmem, by simpa using hlt⟩)
        · exact .inl (.inr hr)
        · exact .inr (.inl (.inr hc))
        · exact .inr (.inr ⟨k, List.mem_cons_of_mem _ hk, hhost⟩)

theorem scanRounds_covers (md5 : Bytes → InnerKey) (db : Db) (scan : Scan) {fuel : Nat}
    (seek : Bytes) (cursor : Option (Bytes × Bool)) (hmarked : ∀ e ∈ file.entries, Marked e.1)
    (hfuel : (file.entries.dropWhile (·.1 < seek)).length < fuel) :
    ∃ t, scanRounds md5 db scan fuel file seek cursor = some t ∧
      t.Covers (file.entries.dropWhile (·.1 < seek)) := by
  induction fuel generalizing file seek cursor with
  | zero => exact absurd hfuel (Nat.not_lt_zero _)
  | succ fuel ih =>
    obtain ⟨seen, rest, hpage, hcovers⟩ :=
      roundLoop_covers md5 db scan cursor (file.entries.dropWhile (·.1 < seek))
    have hentries : file.entries = file.entries.takeWhile (·.1 < seek) ++ (seen ++ rest) := by
      rw [← hpage, List.takeWhile_append_dropWhile]
    have hmarkedPage : ∀ e ∈ seen ++ rest, Marked e.1 := fun e he =>
      hmarked e (by rw [hentries]; exact List.mem_append_right _ he)
    rw [scanRounds]
    rw [hpage] at hfuel hcovers ⊢
    generalize roundLoop md5 db scan cursor (seen ++ rest) = r at hcovers ⊢
    cases rest with
    | nil =>
      have hstop : r.stop = none := hcovers.stop
      refine ⟨⟨r.calls, r.removed, [], _⟩, by rw [hstop], ?_, by simp, fun e he => ?_⟩
      · simpa using hcovers.calls
      · exact (hcovers.all e (by simpa using he)).imp_right .inl
    | cons e rest =>
      obtain ⟨key, val⟩ := e
      have hstop : r.stop = some key := hcovers.stop
      have hkey : key < nextHost (key.take hostLen) := (hmarkedPage (key, val) (by simp)).lt_nextHost
      have hsorted : ((key, val) :: rest).Pairwise fun a b => a.1 < b.1 := by
        refine file.sorted.sublist ?_
        rw [hentries]
        exact (List.sublist_append_right _ _).trans (List.sublist_append_right _ _)
      have hremoved : ∀ k ∈ r.removed, k ∈ (file.entries.takeWhile (·.1 < seek) ++ seen).map Prod.fst := by
        intro k hk
        rw [List.map_append]
        exact List.mem_append_right _ (hcovers.removed.subset hk)
      have hbehind := dropWhile_behind r.removed (hentries.trans (List.append_assoc _ _ _).symm) hremoved hkey
      have hlen : (rest.filter fun e => !decide (e.1 < nextHost (key.take hostLen))).length < fuel := by
        have hle := List.length_filter_le (fun e => !decide (e.1 < nextHost (key.take hostLen))) rest
        rw [List.length_append, List.length_cons] at hfuel
        omega
      have hmarkedNext : ∀ e ∈ (r.removed.foldl SortedMap.erase file).entries, Marked e.1 :=
        fun e he => hmarked e (SortedMap.mem_of_mem_foldl_erase he)
      obtain ⟨t, ht, hnext⟩ := ih _ r.cursor hmarkedNext (by rwa [hbehind])
      rw [hbehind] at hnext
      refine ⟨_, ?_, hcovers.skip hmarkedPage hsorted hnext⟩
      simp only [hstop, ht, Option.map_some]

/-! ### The scan as one loop -/

def Round.before (scan : Scan) (r : Round) (next : ScanResult) : ScanResult :=
  ⟨r.calls.filter (fun t => scan.queued t.entry) ++ next.tasks, r.removed ++ next.removed⟩

theorem Round.before_call (scan : Scan) (r : Round) {t : Task} (ht : t.entry = key) (next : ScanResult) :
    Round.before scan { r with calls := t :: r.calls } next =
      if scan.queued key then { r.before scan next with tasks := t :: (r.before scan next).tasks }
      else r.before scan next := by
  subst ht
  simp only [Round.before, List.filter_cons]
  split_ifs <;> rfl

variable {cursor : Option (Bytes × Bool)} {l : List (Bytes × Bytes)}

theorem stop_mem (h : (roundLoop md5 db scan cursor l).stop = some key) : key ∈ l.map Prod.fst := by
  obtain ⟨seen, rest, hl, hcovers⟩ := roundLoop_covers md5 db scan cursor l
  rw [hcovers.stop] at h
  obtain ⟨e, he, rfl⟩ := Option.map_eq_some_iff.mp h
  rw [hl]
  exact List.mem_map_of_mem (List.mem_append_right _ (List.mem_of_head? he))

theorem scanLoop_filter (hmarked : ∀ e ∈ l, Marked e.1) {seek place : Bytes}
    (hplace : place ≤ seek) (cursor : Option (Bytes × Bool)) :
    scanLoop md5 db scan seek cursor (l.filter fun e => !decide (e.1 < place)) =
      scanLoop md5 db scan seek cursor l := by
  induction l generalizing seek cursor with
  | nil => rfl
  | cons e l ih =>
    obtain ⟨key, val⟩ := e
    have hnext : ∀ {seek : Bytes}, place ≤ seek → ∀ cursor,
        scanLoop md5 db scan seek cursor (l.filter fun e => !decide (e.1 < place)) =
          scanLoop md5 db scan seek cursor l :=
      ih fun e he => hmarked e (List.mem_cons_of_mem _ he)
    by_cases hpast : key < place
    · rw [List.filter_cons_of_neg (by simp [hpast]), hnext hplace, scanLoop,
        if_pos (hpast.trans_le hplace)]
    · have hkey : key < nextHost (key.take hostLen) := (hmarked (key, val) List.mem_cons_self).lt_nextHost
      have hskip : place ≤ nextHost (key.take hostLen) := (not_lt.mp hpast).trans hkey.le
      rw [List.filter_cons_of_pos (by simp [hpast]), scanLoop, scanLoop]
      simp only [hnext hplace, hnext hskip]

variable {seek : Bytes}

theorem scanLoop_eq_round (md5 : Bytes → InnerKey) (db : Db) (scan : Scan) (hmarked : ∀ e ∈ l, Marked e.1)
    (hsorted : l.Pairwise fun a b => a.1 < b.1) (hseek : ∀ e ∈ l, ¬e.1 < seek)
    (cursor : Option (Bytes × Bool)) :
    ((roundLoop md5 db scan cursor l).stop = none →
      scanLoop md5 db scan seek cursor l = (roundLoop md5 db scan cursor l).before scan ⟨[], []⟩) ∧
    ∀ key, (roundLoop md5 db scan cursor l).stop = some key →
      scanLoop md5 db scan seek cursor l = (roundLoop md5 db scan cursor l).before scan
        (scanLoop md5 db scan (nextHost (key.take hostLen)) (roundLoop md5 db scan cursor l).cursor l) := by
  induction l generalizing cursor with
  | nil => simp [roundLoop, scanLoop, Round.before]
  | cons e l ih =>
    obtain ⟨key, val⟩ := e
    obtain ⟨hhead, htail⟩ := List.pairwise_cons.mp hsorted
    have hkey : key < nextHost (key.take hostLen) := (hmarked (key, val) List.mem_cons_self).lt_nextHost
    have hnext := ih (fun e he => hmarked e (List.mem_cons_of_mem _ he)) htail
      fun e he => hseek e (List.mem_cons_of_mem _ he)
    -- The entry is on this side of the place behind any host that is given up later.
    have hpast : ∀ {cursor k}, (roundLoop md5 db scan cursor l).stop = some k →
        ∀ c, scanLoop md5 db scan (nextHost (k.take hostLen)) c ((key, val) :: l) =
          scanLoop md5 db scan (nextHost (k.take hostLen)) c l := by
      intro cursor k hk c
      obtain ⟨d, hd, rfl⟩ := List.mem_map.mp (stop_mem hk)
      have hlt := (hhead d hd).trans (hmarked d (List.mem_cons_of_mem _ hd)).lt_nextHost
      rw [scanLoop, if_pos hlt]
    rw [roundLoop, scanLoop, if_neg (hseek (key, val) List.mem_cons_self)]
    by_cases hstale : stale scan key val = true
    · rw [if_pos hstale, if_pos hstale]
      refine ⟨fun hstop => ?_, fun k hk => ?_⟩
      · simp only [(hnext cursor).1 hstop]
        rfl
      · simp only [(hnext cursor).2 k hk, hpast hk]
        rfl
    rw [if_neg hstale, if_neg hstale]
    simp only
    generalize (if cursor.any fun c => c.1 = key.take hostLen then cursor.any Prod.snd
      else scan.alive (key.take hostLen)) = alive
    cases alive with
    | false =>
      refine ⟨fun hstop => absurd hstop (Option.some_ne_none _), fun k hk => ?_⟩
      obtain rfl : key = k := Option.some.inj hk
      simp only [Bool.not_false, if_true, Round.before, List.filter_nil, List.nil_append]
      rw [scanLoop, if_pos hkey]
    | true =>
      cases htask : taskOf md5 db key val with
      | none =>
        refine ⟨fun hstop => ?_, fun k hk => ?_⟩
        · simp only [Bool.not_true, Bool.false_eq_true, if_false, (hnext _).1 hstop]
          rfl
        · simp only [Bool.not_true, Bool.false_eq_true, if_false, (hnext _).2 k hk, hpast hk]
          rfl
      | some t =>
        refine ⟨fun hstop => ?_, fun k hk => ?_⟩
        · simp only [Bool.not_true, Bool.false_eq_true, if_false, (hnext _).1 hstop,
            Round.before_call scan _ (taskOf_entry htask)]
        · simp only [Bool.not_true, Bool.false_eq_true, if_false, (hnext _).2 k hk, hpast hk,
            Round.before_call scan _ (taskOf_entry htask)]

theorem page_behind (hmarked : ∀ e ∈ file.entries, Marked e.1) {r : Round}
    (hr : roundLoop md5 db scan cursor (file.entries.dropWhile (·.1 < seek)) = r)
    (hstop : r.stop = some key) :
    (r.removed.foldl SortedMap.erase file).entries.dropWhile (·.1 < nextHost (key.take hostLen)) =
      (file.entries.dropWhile (·.1 < seek)).filter fun e => !decide (e.1 < nextHost (key.take hostLen)) := by
  obtain ⟨seen, rest, hpage, hcovers⟩ :=
    roundLoop_covers md5 db scan cursor (file.entries.dropWhile (·.1 < seek))
  rw [hr] at hcovers
  obtain ⟨⟨_, val⟩, hhead, rfl⟩ := Option.map_eq_some_iff.mp (hcovers.stop.symm.trans hstop)
  obtain ⟨rest, rfl⟩ := List.head?_eq_some_iff.mp hhead
  rename_i key
  have hentries : file.entries = (file.entries.takeWhile (·.1 < seek) ++ seen) ++ (key, val) :: rest := by
    rw [List.append_assoc, ← hpage, List.takeWhile_append_dropWhile]
  have hkey : key < nextHost (key.take hostLen) :=
    (hmarked (key, val) (by rw [hentries]; simp)).lt_nextHost
  have hremoved : ∀ k ∈ r.removed, k ∈ (file.entries.takeWhile (·.1 < seek) ++ seen).map Prod.fst := by
    intro k hk
    rw [List.map_append]
    exact List.mem_append_right _ (hcovers.removed.subset hk)
  have hsorted := file.sorted
  rw [hentries, List.pairwise_append] at hsorted
  have hseen : seen.filter (fun e => !decide (e.1 < nextHost (key.take hostLen))) = [] := by
    rw [List.filter_eq_nil_iff]
    intro e he
    have hlt := hsorted.2.2 e (List.mem_append_right _ he) (key, val) List.mem_cons_self
    simpa using hlt.trans hkey
  rw [dropWhile_behind r.removed hentries hremoved hkey, hpage, List.filter_append, hseen,
    List.filter_cons_of_neg (by simpa using hkey), List.nil_append]

theorem scanRounds_eq_scanLoop {fuel : Nat} (hmarked : ∀ e ∈ file.entries, Marked e.1)
    (ht : scanRounds md5 db scan fuel file seek cursor = some t) :
    scanLoop md5 db scan seek cursor (file.entries.dropWhile (·.1 < seek)) =
      ⟨t.calls.filter fun task => scan.queued task.entry, t.removed⟩ ∧
    t.file = t.removed.foldl SortedMap.erase file := by
  induction fuel generalizing file seek cursor t with
  | zero => cases ht
  | succ fuel ih =>
    have hsub : (file.entries.dropWhile (·.1 < seek)).Sublist file.entries := List.dropWhile_sublist _
    have hmarkedPage : ∀ e ∈ file.entries.dropWhile (·.1 < seek), Marked e.1 :=
      fun e he => hmarked e (hsub.subset he)
    have hfrom : ∀ e ∈ file.entries.dropWhile (·.1 < seek), ¬e.1 < seek := by
      rw [SortedMap.dropWhile_lt _ seek fun e => decide_eq_true_iff]
      intro e he
      simpa using (List.mem_filter.mp he).2
    obtain ⟨hlast, hskip⟩ :=
      scanLoop_eq_round md5 db scan hmarkedPage (file.sorted.sublist hsub) hfrom cursor
    rw [scanRounds] at ht
    generalize hr : roundLoop md5 db scan cursor (file.entries.dropWhile (·.1 < seek)) = r at hlast hskip ht
    cases hstop : r.stop with
    | none =>
      simp only [hstop, Option.some.injEq] at ht
      subst ht
      refine ⟨?_, rfl⟩
      rw [hlast hstop, Round.before, List.append_nil, List.append_nil]
    | some key =>
      simp only [hstop, Option.map_eq_some_iff] at ht
      obtain ⟨next, hnext, rfl⟩ := ht
      have hmarkedNext : ∀ e ∈ (r.removed.foldl SortedMap.erase file).entries, Marked e.1 :=
        fun e he => hmarked e (SortedMap.mem_of_mem_foldl_erase he)
      obtain ⟨hloop, hfile⟩ := ih hmarkedNext hnext
      rw [page_behind hmarked hr hstop, scanLoop_filter hmarkedPage le_rfl] at hloop
      refine ⟨?_, by rw [hfile, List.foldl_append]⟩
      rw [hskip key hstop, hloop, Round.before, List.filter_append]

theorem scanRounds_eq_binlogScan (h : ∀ e ∈ file.entries, EntryKey e.1)
    {fuel : Nat} (ht : scanRounds md5 db scan fuel file [] none = some t) :
    (t.calls.filter fun task => scan.queued task.entry) = (binlogScan md5 db file scan).1 ∧
      t.file = (binlogScan md5 db file scan).2 := by
  have hpage : file.entries.dropWhile (·.1 < ([] : Bytes)) = file.entries :=
    List.dropWhile_eq_self_iff.mpr fun _ => by simp
  obtain ⟨hloop, hfile⟩ := scanRounds_eq_scanLoop (fun e he => (h e he).marked) ht
  rw [hpage] at hloop
  rw [binlogScan, hloop]
  exact ⟨rfl, hfile⟩

/-- A scan ends, calls the task callback at most once for an entry, and passes by only the entries of
a host that it gives up. All other entries are handed out or removed. -/
theorem scan_ends_and_covers (md5 : Bytes → InnerKey) (db : Db) (scan : Scan)
    {file : SortedMap Bytes Bytes} (h : ∀ e ∈ file.entries, EntryKey e.1) {fuel : Nat}
    (hfuel : file.entries.length < fuel) :
    ∃ t, scanRounds md5 db scan fuel file [] none = some t ∧ (t.calls.map Task.entry).Nodup ∧
      (∀ k ∈ t.skips, ∀ e ∈ file.entries, k ≤ e.1 → e.1 < nextHost (k.take hostLen) →
        e.1.take hostLen = k.take hostLen) ∧
      ∀ e ∈ file.entries, e.1 ∈ t.removed ∨ e.1 ∈ t.calls.map Task.entry ∨
        ∃ k ∈ t.skips, e.1.take hostLen = k.take hostLen := by
  have hmarked : ∀ e ∈ file.entries, Marked e.1 := fun e he => (h e he).marked
  have hpage : file.entries.dropWhile (·.1 < ([] : Bytes)) = file.entries :=
    List.dropWhile_eq_self_iff.mpr fun _ => by simp
  obtain ⟨t, ht, hcovers⟩ := scanRounds_covers md5 db scan [] none hmarked (by rwa [hpage])
  rw [hpage] at hcovers
  refine ⟨t, ht, ?_, fun k hk e he hle hlt => ?_, hcovers.all⟩
  · have hsorted : (file.entries.map Prod.fst).Pairwise (· < ·) := List.pairwise_map.mpr file.sorted
    exact (hsorted.sublist hcovers.calls).imp ne_of_lt
  · obtain ⟨d, hd, rfl⟩ := List.mem_map.mp (hcovers.skips k hk)
    exact (hmarked d hd).take_eq_of_between (hmarked e he) hle hlt

def secondAlive : Scan := ⟨100, 10, fun host => host = hostKey 1 8081, fun _ => true⟩

def twoPorts (innerKey : InnerKey) : SortedMap Bytes Bytes :=
  (SortedMap.empty.insert (delKey (hostKey 1 8080) [] 1) (stamp .del 100 ++ ascii "k")).insert
    (delKey (hostKey 1 8081) [] innerKey) (stamp .del 100 ++ ascii "k")

theorem entryKey_twoPorts : ∀ e ∈ (twoPorts 1).entries, EntryKey e.1 := by
  have hentries : (twoPorts 1).entries.map Prod.fst =
      [delKey (hostKey 1 8080) [] 1, delKey (hostKey 1 8081) [] 1] := by decide
  intro e he
  have hmem := List.mem_map_of_mem (f := Prod.fst) he
  rw [hentries, List.mem_cons, List.mem_singleton] at hmem
  obtain hkey | hkey := hmem
  · rw [hkey]
    exact .del 1 8080 .del [] 1 (by decide) (.inr (by decide))
  · rw [hkey]
    exact .del 1 8081 .del [] 1 (by decide) (.inr (by decide))

theorem scan_ends_and_covers_small :
    ∃ t, scanRounds Md5.md5 (Db.create ⟨4, 2, 1, 1⟩) secondAlive 3 (twoPorts 1) [] none = some t ∧
      (t.calls.map Task.entry).Nodup ∧
      (∀ k ∈ t.skips, ∀ e ∈ (twoPorts 1).entries, k ≤ e.1 → e.1 < nextHost (k.take hostLen) →
        e.1.take hostLen = k.take hostLen) ∧
      ∀ e ∈ (twoPorts 1).entries, e.1 ∈ t.removed ∨ e.1 ∈ t.calls.map Task.entry ∨
        ∃ k ∈ t.skips, e.1.take hostLen = k.take hostLen :=
  scan_ends_and_covers _ _ _ entryKey_twoPorts (by decide)

/-- The deletion for the second port is passed by on the way from the first one when its digest is all
zeros, though that host is alive. -/
theorem scan_passes_by_zero_digest :
    ∃ t, scanRounds Md5.md5 (Db.create ⟨4, 2, 1, 1⟩) secondAlive 3 (twoPorts 0) [] none = some t ∧
      t.skips = [delKey (hostKey 1 8080) [] 1] ∧ t.calls.map Task.entry = [] ∧ t.removed = [] ∧
      delKey (hostKey 1 8080) [] 1 < delKey (hostKey 1 8081) [] 0 ∧
      delKey (hostKey 1 8081) [] 0 < nextHost (hostKey 1 8080) := by
  refine ⟨_, rfl, ?_⟩
  decide

/-- The rounds of a scan, which begins again behind each host that it gives up, hand out and remove what one pass over
the whole file does. -/
theorem rounds_refine_binlogScan (md5 : Bytes → InnerKey) (db : Db) (scan : Scan) {file : SortedMap Bytes Bytes}
    (h : ∀ e ∈ file.entries, EntryKey e.1) {fuel : Nat} (hfuel : file.entries.length < fuel) :
    ∃ t, scanRounds md5 db scan fuel file [] none = some t ∧
      (t.calls.filter fun task => scan.queued task.entry) = (binlogScan md5 db file scan).1 ∧
      t.file = (binlogScan md5 db file scan).2 := by
  have hpage : file.entries.dropWhile (·.1 < ([] : Bytes)) = file.entries :=
    List.dropWhile_eq_self_iff.mpr fun _ => by simp
  obtain ⟨t, ht, -⟩ := scanRounds_covers md5 db scan [] none (fun e he => (h e he).marked) (by rwa [hpage])
  exact ⟨t, ht, scanRounds_eq_binlogScan h ht⟩

theorem rounds_refine_binlogScan_small :
    ∃ t, scanRounds Md5.md5 (Db.create ⟨4, 2, 1, 1⟩) secondAlive 3 (twoPorts 1) [] none = some t ∧
      t.skips = [delKey (hostKey 1 8080) [] 1] ∧
      (t.calls.filter fun task => secondAlive.queued task.entry).map Task.entry = [delKey (hostKey 1 8081) [] 1] := by
  obtain ⟨t, ht, hcalls, -⟩ := rounds_refine_binlogScan Md5.md5 (Db.create ⟨4, 2, 1, 1⟩) secondAlive
    entryKey_twoPorts (by decide : (twoPorts 1).entries.length < 3)
  have hskips : (scanRounds Md5.md5 (Db.create ⟨4, 2, 1, 1⟩) secondAlive 3 (twoPorts 1) [] none).map (·.skips) =
      some [delKey (hostKey 1 8080) [] 1] := by decide
  rw [ht] at hskips
  refine ⟨t, ht, Option.some.inj hskips, ?_⟩
  rw [hcalls]
  decide

end HustStore.Binlog
