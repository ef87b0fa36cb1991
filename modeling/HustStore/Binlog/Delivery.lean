import HustStore.Binlog.Convergence

/-!
# Delivery of the binlog

The writers of the store, the scan and the threads that carry the tasks to the replicas take turns.
-/

namespace HustStore.Binlog

open Md5db

def isSuccess (httpCode : Nat) : Bool :=
  httpCode = 200 || httpCode = 400 || httpCode = 401 || httpCode = 404 || httpCode = 412

/-- What is recorded beside a run: the entries that were written, the tasks with the values of their
entries, and the answers to the tasks. -/
inductive Note
  | wrote (key val : Bytes)
  | made (t : Task) (val : Bytes)
  | replied (t : Task) (httpCode : Nat)
  deriving DecidableEq

structure Delivery where
  site : Site
  inFlight : List Task
  answered : List Task
  log : List Note

inductive Event
  | write (u : Update)
  | record (table key host : Bytes) (cmdType : UInt8) (now : Nat)
  | scan (scan : Scan)
  | answer (i : Nat) (httpCode : Option Nat) (giveUp : Bool)
  | done (i : Nat)

def newEntries (old new : SortedMap Bytes Bytes) : List (Bytes × Bytes) :=
  new.entries.filter fun e => old.get? e.1 ≠ some e.2

namespace Delivery

variable (md5 : Bytes → InnerKey) (inetAddr : Bytes → Nat)

def answer (s : Delivery) (i : Nat) (httpCode : Option Nat) (giveUp : Bool) : Delivery :=
  match s.inFlight[i]? with
  | none => s
  | some t =>
    let log := s.log ++ (httpCode.map (.replied t)).toList
    if httpCode.any isSuccess then
      ⟨s.site, s.inFlight.eraseIdx i, s.answered ++ [t], log⟩
    else if giveUp then ⟨s.site, s.inFlight.eraseIdx i, s.answered, log⟩
    else ⟨s.site, s.inFlight, s.answered, log⟩

def done (s : Delivery) (i : Nat) : Delivery :=
  match s.answered[i]? with
  | none => s
  | some t =>
    ⟨⟨s.site.db, s.site.binlog.erase t.entry⟩, s.inFlight, s.answered.eraseIdx i, s.log⟩

def step (s : Delivery) : Event → Delivery
  | .write u => { s with site := ⟨(u.run md5 s.site.db).2, s.site.binlog⟩ }
  | .record table key host cmdType now =>
    let file :=
      (hustdbBinlog md5 inetAddr s.site.db s.site.binlog table key host cmdType now).2
    { s with
      site := ⟨s.site.db, file⟩
      log := s.log ++ (newEntries s.site.binlog file).map fun e => .wrote e.1 e.2 }
  | .scan scan =>
    let out := binlogScan md5 s.site.db s.site.binlog scan
    { s with
      site := ⟨s.site.db, out.2⟩
      inFlight := s.inFlight ++ out.1
      log := s.log ++ out.1.map fun t => .made t ((s.site.binlog.get? t.entry).getD []) }
  | .answer i httpCode giveUp => s.answer i httpCode giveUp
  | .done i => s.done i

end Delivery

variable {md5 : Bytes → InnerKey} {inetAddr : Bytes → Nat} {db : Db} {scan : Scan}
  {file : SortedMap Bytes Bytes} {key val : Bytes} {t : Task} {s : Delivery}

/-! ### The scan -/

theorem taskOf_entry (h : taskOf md5 db key val = some t) : t.entry = key := by
  unfold taskOf putTask at h
  simp only at h
  split at h
  · cases h
  · split at h
    · cases h
    · split_ifs at h
      · cases h
        rfl
      · split at h
        · cases h
        · split at h <;> cases h <;> rfl

theorem scanLoop_spec {entries : List (Bytes × Bytes)} (seek : Bytes) (cursor : Option (Bytes × Bool)) :
    (∀ t ∈ (scanLoop md5 db scan seek cursor entries).tasks, ∃ e ∈ entries, taskOf md5 db e.1 e.2 = some t) ∧
    ∀ key ∈ (scanLoop md5 db scan seek cursor entries).removed, ∃ val, (key, val) ∈ entries ∧
      (stale scan key val = true ∨ taskOf md5 db key val = none) := by
  induction entries generalizing seek cursor with
  | nil => simp [scanLoop]
  | cons e rest ih =>
    obtain ⟨key, val⟩ := e
    have hrest (seek : Bytes) (cursor : Option (Bytes × Bool)) :
        (∀ t ∈ (scanLoop md5 db scan seek cursor rest).tasks, ∃ e ∈ (key, val) :: rest,
          taskOf md5 db e.1 e.2 = some t) ∧
        ∀ key' ∈ (scanLoop md5 db scan seek cursor rest).removed, ∃ val', (key', val') ∈ (key, val) :: rest ∧
            (stale scan key' val' = true ∨ taskOf md5 db key' val' = none) := by
      refine ⟨fun t ht => ?_, fun key' hkey => ?_⟩
      · obtain ⟨e, he, heq⟩ := (ih seek cursor).1 t ht
        exact ⟨e, List.mem_cons_of_mem _ he, heq⟩
      · obtain ⟨val', he, heq⟩ := (ih seek cursor).2 key' hkey
        exact ⟨val', List.mem_cons_of_mem _ he, heq⟩
    rw [scanLoop]
    simp only
    split
    · exact hrest seek cursor
    split
    · rename_i hstale
      refine ⟨(hrest seek cursor).1, fun key' hkey => ?_⟩
      rcases List.mem_cons.mp hkey with rfl | hkey
      · exact ⟨val, by simp, .inl hstale⟩
      · exact (hrest seek cursor).2 key' hkey
    generalize (if cursor.any fun c => c.1 = key.take hostLen then cursor.any Prod.snd
      else scan.alive (key.take hostLen)) = alive
    cases alive with
    | false => exact hrest _ _
    | true =>
      cases htask : taskOf md5 db key val with
      | none =>
        refine ⟨(hrest seek _).1, fun key' hkey => ?_⟩
        rcases List.mem_cons.mp hkey with rfl | hkey
        · exact ⟨val, by simp, .inr htask⟩
        · exact (hrest seek _).2 key' hkey
      | some t =>
        cases scan.queued key with
        | false => exact hrest seek _
        | true =>
          refine ⟨fun t' ht' => ?_, (hrest seek _).2⟩
          rcases List.mem_cons.mp ht' with rfl | ht'
          · exact ⟨(key, val), by simp, htask⟩
          · exact (hrest seek _).1 t' ht'

theorem binlogScan_task (ht : t ∈ (binlogScan md5 db file scan).1) :
    ∃ val, file.get? t.entry = some val ∧ taskOf md5 db t.entry val = some t := by
  obtain ⟨⟨key, val⟩, he, htask⟩ := (scanLoop_spec [] none).1 t ht
  obtain rfl := taskOf_entry htask
  exact ⟨val, SortedMap.mem_entries.mp he, htask⟩

theorem get?_foldl_erase (keys : List Bytes) (key : Bytes) :
    (keys.foldl SortedMap.erase file).get? key = if key ∈ keys then none else file.get? key := by
  induction keys generalizing file with
  | nil => simp
  | cons k rest ih =>
    rw [List.foldl_cons, ih, SortedMap.get?_erase]
    by_cases hk : key = k <;> simp [hk]

theorem binlogScan_get? (hget : (binlogScan md5 db file scan).2.get? key = some val) : file.get? key = some val := by
  rw [binlogScan, get?_foldl_erase] at hget
  split_ifs at hget
  exact hget

theorem binlogScan_removes (hget : file.get? key = some val)
    (hgone : (binlogScan md5 db file scan).2.get? key = none) :
    stale scan key val = true ∨ taskOf md5 db key val = none := by
  rw [binlogScan, get?_foldl_erase] at hgone
  split_ifs at hgone with hmem
  · obtain ⟨val', he, huse⟩ := (scanLoop_spec [] none).2 key hmem
    obtain rfl := Option.some.inj ((SortedMap.mem_entries.mp he).symm.trans hget)
    exact huse
  · rw [hget] at hgone
    cases hgone

/-! ### Where a task comes from -/

def Traced (log : List Note) (file : SortedMap Bytes Bytes) (t : Task) (p : List Note → Prop) : Prop :=
  ∃ before val after, log = before ++ .made t val :: after ∧ p after ∧
    ∀ val', file.get? t.entry = some val' → val' = val ∨ .wrote t.entry val' ∈ after

theorem Traced.mono {log more : List Note} {file file' : SortedMap Bytes Bytes}
    {p q : List Note → Prop} (h : Traced log file t p)
    (hfile : ∀ val, file'.get? t.entry = some val → file.get? t.entry = some val ∨ .wrote t.entry val ∈ more)
    (hpq : ∀ after, p after → q (after ++ more)) : Traced (log ++ more) file' t q := by
  obtain ⟨before, val, after, rfl, hp, hval⟩ := h
  refine ⟨before, val, after ++ more, by simp, hpq after hp, fun val' hget => ?_⟩
  rcases hfile val' hget with hold | hnew
  · exact (hval val' hold).imp_right (List.mem_append_left _)
  · exact .inr (List.mem_append_right _ hnew)

structure Delivery.Sound (s : Delivery) : Prop where
  inFlight : ∀ t ∈ s.inFlight, Traced s.log s.site.binlog t fun _ => True
  answered : ∀ t ∈ s.answered, Traced s.log s.site.binlog t fun after =>
    ∃ httpCode, isSuccess httpCode = true ∧ .replied t httpCode ∈ after

theorem get?_newEntries {old new : SortedMap Bytes Bytes} (hget : new.get? key = some val) : old.get? key = some val ∨
      .wrote key val ∈ (newEntries old new).map fun e => Note.wrote e.1 e.2 := by
  by_cases hold : old.get? key = some val
  · exact .inl hold
  · refine .inr (List.mem_map.mpr ⟨(key, val), ?_, rfl⟩)
    exact List.mem_filter.mpr ⟨SortedMap.mem_entries.mpr hget, by simpa using hold⟩

theorem binlogScan_traced (log : List Note) (ht : t ∈ (binlogScan md5 db file scan).1) :
    Traced (log ++ (binlogScan md5 db file scan).1.map fun t =>
        .made t ((file.get? t.entry).getD []))
      (binlogScan md5 db file scan).2 t fun _ => True := by
  obtain ⟨val, hget, -⟩ := binlogScan_task ht
  obtain ⟨tasks, tasks', hsplit⟩ := List.append_of_mem ht
  refine ⟨log ++ tasks.map fun t => .made t ((file.get? t.entry).getD []), val,
    tasks'.map fun t => .made t ((file.get? t.entry).getD []), ?_, trivial, fun val' hget' => ?_⟩
  · rw [hsplit, List.map_append, List.map_cons, hget, Option.getD_some, List.append_assoc]
  · exact .inl (Option.some.inj ((binlogScan_get? hget').symm.trans hget))

theorem Delivery.Sound.answer (h : s.Sound) (i : Nat) (httpCode : Option Nat) (giveUp : Bool) :
    (s.answer i httpCode giveUp).Sound := by
  unfold Delivery.answer
  cases hi : s.inFlight[i]? with
  | none => exact h
  | some t =>
    have hmem : t ∈ s.inFlight := List.mem_of_getElem? hi
    have hkept {p : List Note → Prop} {t' : Task} (ht' : Traced s.log s.site.binlog t' p)
        (hp : ∀ after more, p after → p (after ++ more)) :
        Traced (s.log ++ (httpCode.map (Note.replied t)).toList) s.site.binlog t' p :=
      ht'.mono (fun _ hget => .inl hget) fun after hafter => hp after _ hafter
    have hflight (t' : Task) (ht' : t' ∈ s.inFlight) :=
      hkept (h.inFlight t' ht') fun _ _ _ => trivial
    have hanswered (t' : Task) (ht' : t' ∈ s.answered) := hkept (h.answered t' ht')
      fun after more ⟨code, hcode, hreplied⟩ => ⟨code, hcode, List.mem_append_left _ hreplied⟩
    have herase (t' : Task) (ht' : t' ∈ s.inFlight.eraseIdx i) :=
      hflight t' (List.mem_of_mem_eraseIdx ht')
    simp only
    split_ifs with hsuccess hgive
    · refine ⟨herase, fun t' ht' => ?_⟩
      rcases List.mem_append.mp ht' with ht' | ht'
      · exact hanswered t' ht'
      · obtain rfl := List.mem_singleton.mp ht'
        cases httpCode with
        | none => cases hsuccess
        | some code =>
          refine (h.inFlight t' hmem).mono (fun _ hget => .inl hget) fun after _ => ?_
          exact ⟨code, hsuccess, List.mem_append_right _ (List.mem_singleton_self _)⟩
    · exact ⟨herase, hanswered⟩
    · exact ⟨hflight, hanswered⟩

theorem Delivery.Sound.done (h : s.Sound) (i : Nat) : (s.done i).Sound := by
  unfold Delivery.done
  cases hi : s.answered[i]? with
  | none => exact h
  | some t =>
    have hkept {p : List Note → Prop} {t' : Task} (ht' : Traced s.log s.site.binlog t' p) :
        Traced s.log (s.site.binlog.erase t.entry) t' p := by
      obtain ⟨before, val, after, hlog, hp, hval⟩ := ht'
      refine ⟨before, val, after, hlog, hp, fun val' hget => hval val' ?_⟩
      rw [SortedMap.get?_erase] at hget
      split_ifs at hget
      exact hget
    exact ⟨fun t' ht' => hkept (h.inFlight t' ht'),
      fun t' ht' => hkept (h.answered t' (List.mem_of_mem_eraseIdx ht'))⟩

theorem Delivery.Sound.step (h : s.Sound) (e : Event) : (s.step md5 inetAddr e).Sound := by
  have hmore {more : List Note} {file : SortedMap Bytes Bytes} (hfile : ∀ key val, file.get? key = some val →
        s.site.binlog.get? key = some val ∨ .wrote key val ∈ more) :
      (∀ t ∈ s.inFlight, Traced (s.log ++ more) file t fun _ => True) ∧
        ∀ t ∈ s.answered, Traced (s.log ++ more) file t fun after =>
          ∃ httpCode, isSuccess httpCode = true ∧ .replied t httpCode ∈ after := by
    refine ⟨fun t ht => (h.inFlight t ht).mono (hfile t.entry) fun _ _ => trivial,
      fun t ht => (h.answered t ht).mono (hfile t.entry) ?_⟩
    rintro after ⟨code, hcode, hreplied⟩
    exact ⟨code, hcode, List.mem_append_left _ hreplied⟩
  cases e with
  | write u => exact ⟨h.inFlight, h.answered⟩
  | record table key host cmdType now =>
    obtain ⟨hflight, hanswered⟩ := hmore fun key val hget => get?_newEntries hget
    exact ⟨hflight, hanswered⟩
  | scan scan =>
    obtain ⟨hflight, hanswered⟩ := hmore fun key val hget => .inl (binlogScan_get? hget)
    refine ⟨fun t ht => ?_, hanswered⟩
    rcases List.mem_append.mp ht with ht | ht
    · exact hflight t ht
    · exact binlogScan_traced s.log ht
  | answer i httpCode giveUp => exact h.answer i httpCode giveUp
  | done i => exact h.done i

def Delivery.start (site : Site) : Delivery := ⟨site, [], [], []⟩

theorem sound_run (site : Site) (events : List Event) :
    (Run.exec (Delivery.step md5 inetAddr) (.start site) events).Sound := by
  have hguard : Run.Guarded (Delivery.step md5 inetAddr) (fun _ _ => True) (.start site) events :=
    Run.guarded_of_forall fun _ _ => trivial
  refine hguard.invariant (fun s e hs _ => hs.step e) ⟨?_, ?_⟩
  · intro t ht
    cases ht
  · intro t ht
    cases ht

/-! ### What removes an entry -/

theorem binlog_keeps (db : Db) (table userKey host : Bytes) (now : Nat) (m : Method) (hget : (file.get? key).isSome) :
    ((binlog md5 inetAddr db file table userKey host now m).2.get? key).isSome := by
  have hput (k v : Bytes) : ((putFromBinlog file k v).2.get? key).isSome := by
    unfold putFromBinlog
    split_ifs
    · exact hget
    · rw [SortedMap.get?_insert]
      split_ifs
      · rfl
      · exact hget
  unfold binlog
  simp only
  split
  · exact hget
  split
  · exact hget
  split
  · exact hput ..
  split
  · exact hget
  split
  · exact hget
  · exact hput ..

theorem hustdbBinlog_keeps (db : Db) (table userKey host : Bytes) (cmdType : UInt8) (now : Nat)
    (hget : (file.get? key).isSome) :
    ((hustdbBinlog md5 inetAddr db file table userKey host cmdType now).2.get? key).isSome := by
  unfold hustdbBinlog
  split
  · exact hget
  split
  · exact hget
  · exact binlog_keeps db _ userKey host now _ hget

def putNoted (val : UInt8) (now : Nat) : List Event :=
  [.write ⟨.put, [], ascii "k", [val], 0, false, 0, 0, now⟩, .record [] (ascii "k") peer Method.put.code now]

@[irreducible] def delivered (events : List Event) : Delivery :=
  Run.exec (Delivery.step Md5.md5 loopback) (.start ⟨Db.create ⟨4, 2, 1, 1⟩, .empty⟩) events

def notedKey : Bytes := putKey (le32 0x0100007f ++ ascii "08085") [] ⟨140, 1⟩

def notedVal (now : Nat) : Bytes := stamp .put now ++ le32 0

end HustStore.Binlog
