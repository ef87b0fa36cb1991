import HustStore.Hustdb.Action

/-!
# Writes that are refused for their version

A put or a deletion carries a version, and the store refuses one that does not fit the version of the record: a
client gets `EINVAL`, a replicated write gets success and a version error. Such a write should leave no trace.
-/

namespace HustStore

open Md5db

namespace Md5db

namespace Db

def PutRefused (db : Db) (k : InnerKey) (version : Nat) (isDup : Bool) : Prop :=
  match db.locate k with
  | .ok (_, current) => ¬ Accepts version isDup current
  | .error .ENOENT => isDup = false ∧ version ≠ 0
  | .error _ => False

def DelRefused (db : Db) (k : InnerKey) (version : Nat) (isDup : Bool) : Prop :=
  match db.locate k with
  | .ok (_, current) => ¬ Accepts version isDup current
  | .error _ => False

instance (db : Db) (k : InnerKey) (version : Nat) (isDup : Bool) :
    Decidable (db.PutRefused k version isDup) := by
  unfold PutRefused
  split <;> infer_instance

instance (db : Db) (k : InnerKey) (version : Nat) (isDup : Bool) :
    Decidable (db.DelRefused k version isDup) := by
  unfold DelRefused
  split <;> infer_instance

variable {db : Db} {q : Query} {k : InnerKey} {userKey val : Bytes} {version current : Nat}
  {isDup : Bool} {ctxt : ItemCtxt}

def refusal (isDup : Bool) : Rc := if isDup then .ok else .err .EINVAL

theorem updateDirectData_refused (h : ¬ Accepts version isDup (db.buckets (slotOf k)).version) :
    db.updateDirectData q k userKey val version isDup ctxt =
      (refusal isDup, (db.buckets (slotOf k)).version, { ctxt with isVersionError := true }, db) := by
  simp only [updateDirectData, if_accepts, if_neg h]
  cases isDup <;> rfl

theorem updateConflictData_refused {blockId : BlockId} {inRow : Bool} (h : ¬ Accepts version isDup current) :
    db.updateConflictData q k userKey val version isDup blockId current inRow ctxt =
      (refusal isDup, current, { ctxt with isVersionError := true }, db) := by
  simp only [updateConflictData, if_accepts, if_neg h]
  cases isDup <;> rfl

theorem putSlot_refused (h : db.PutRefused k version isDup) :
    ∃ r current ctxt', db.putSlot q k userKey val version isDup ctxt = (r, current, ctxt', db) ∧
      (isDup = false → r = .err .EINVAL) ∧ (isDup = true → ctxt'.isVersionError = true) := by
  unfold PutRefused locate at h
  unfold putSlot
  cases htype : (db.buckets (slotOf k)).type with
  | directData =>
    simp only [htype] at h ⊢
    split_ifs at h ⊢ with hcompare
    · rw [updateDirectData_refused h]
      exact ⟨_, _, _, rfl, fun hdup => by rw [hdup]; rfl, fun _ => rfl⟩
    · obtain ⟨rfl, hne⟩ := h
      rw [addConflictData, if_pos ⟨rfl, hne⟩]
      exact ⟨_, _, _, rfl, fun _ => rfl, fun hdup => by cases hdup⟩
  | conflictData =>
    simp only [htype] at h ⊢
    unfold setConflictData
    rcases hfind : db.findConflict k (db.buckets (slotOf k)) with e | ⟨blockId, current, inRow⟩
    · rw [hfind] at h
      cases e with
      | ENOENT =>
        obtain ⟨rfl, hne⟩ := h
        simp only
        rw [newConflictData, if_pos ⟨rfl, hne⟩]
        exact ⟨_, _, _, rfl, fun _ => by simp, fun hdup => by cases hdup⟩
      | _ => cases h
    · rw [hfind] at h
      simp only
      rw [updateConflictData_refused h]
      cases isDup with
      | false => exact ⟨_, _, _, rfl, fun _ => by simp, fun hdup => by cases hdup⟩
      | true => exact ⟨_, _, _, rfl, (fun hdup => by cases hdup), fun _ => rfl⟩
  | noData =>
    simp only [htype] at h ⊢
    obtain ⟨rfl, hne⟩ := h
    rw [newData, if_pos ⟨rfl, hne⟩]
    exact ⟨_, _, _, rfl, fun _ => by simp, fun hdup => by cases hdup⟩

theorem delSlot_refused (h : db.DelRefused k version isDup)
    (hslot : isDup = true → (db.buckets (slotOf k)).type ≠ .conflictData) :
    ∃ current, db.delSlot q k version isDup ctxt =
      (refusal isDup, current, { ctxt with isVersionError := true }, db) := by
  unfold DelRefused locate at h
  unfold delSlot
  cases htype : (db.buckets (slotOf k)).type with
  | directData =>
    simp only [htype] at h ⊢
    by_cases hcompare : (db.fullkeys k.bucket).compare (db.buckets (slotOf k)).blockId k = true
    · rw [if_pos hcompare] at h
      simp only [hcompare, Bool.not_true, Bool.false_eq_true, if_false, if_accepts, if_neg h]
      cases isDup <;> exact ⟨_, rfl⟩
    · rw [if_neg hcompare] at h
      cases h
  | conflictData =>
    simp only [htype] at h ⊢
    obtain rfl : isDup = false := by
      by_contra hdup
      exact hslot (by simpa using hdup) htype
    unfold deleteConflictData delConflictBlockId
    rcases hfind : db.findConflict k (db.buckets (slotOf k)) with e | ⟨blockId, current, inRow⟩
    · rw [hfind] at h
      cases e <;> cases h
    · rw [hfind] at h
      simp only [hfind, if_accepts, if_neg h]
      exact ⟨_, rfl⟩
  | noData =>
    simp only [htype] at h

theorem put_refused (md5 : Bytes → InnerKey) (hargs : PutArgs userKey val version isDup)
    (h : db.PutRefused (innerKeyOf md5 q userKey) version isDup) :
    ∃ current ctxt', db.put md5 q userKey val version isDup = (⟨refusal isDup, current, some ctxt'⟩, db) ∧
      (isDup = true → ctxt'.isVersionError = true) := by
  obtain ⟨r, current, ctxt', hslot, hclient, hdup⟩ := putSlot_refused h
  refine ⟨current, ctxt', ?_, hdup⟩
  rw [put_of_args md5 db q hargs hslot]
  cases isDup with
  | false => simp [refusal, hclient rfl]
  | true => simp [refusal, hdup rfl]

theorem del_refused (md5 : Bytes → InnerKey) (huser : checkUserKey userKey) (hver : version ≤ bucketDataMaxVersion)
    (h : db.DelRefused (innerKeyOf md5 q userKey) version isDup)
    (hslot : isDup = true → (db.buckets (slotOf (innerKeyOf md5 q userKey))).type ≠ .conflictData) :
    ∃ current ctxt', db.del md5 q userKey version isDup =
        (⟨refusal isDup, current, some ctxt'⟩, db) ∧ ctxt'.isVersionError = true := by
  obtain ⟨current, hdel⟩ := delSlot_refused (q := q) h hslot
  exact ⟨current, _, del_of_args md5 db q huser hver hdel, rfl⟩

end Db

def Call.Refused (md5 : Bytes → InnerKey) (db : Db) : Call → Prop
  | .put q userKey val version isDup =>
    Db.PutArgs userKey val version isDup ∧ db.PutRefused (Db.innerKeyOf md5 q userKey) version isDup
  | .del q userKey version isDup =>
    Db.checkUserKey userKey ∧ version ≤ bucketDataMaxVersion ∧
      db.DelRefused (Db.innerKeyOf md5 q userKey) version isDup
  | .get _ _ => False
  | .exists_ _ _ => False

instance (userKey val : Bytes) (version : Nat) (isDup : Bool) :
    Decidable (Db.PutArgs userKey val version isDup) :=
  decidable_of_iff (Db.checkUserKey userKey = true ∧ userKey.length + val.length ≤ maxValLen ∧
      version ≤ bucketDataMaxVersion ∧ (isDup = true → version ≠ 0))
    ⟨fun h => ⟨h.1, h.2.1, h.2.2.1, h.2.2.2⟩, fun h => ⟨h.user, h.length_le, h.version_le, h.binlog⟩⟩

instance (md5 : Bytes → InnerKey) (db : Db) : (c : Call) → Decidable (c.Refused md5 db)
  | .put _ _ _ _ _ => inferInstanceAs (Decidable (_ ∧ _))
  | .del _ _ _ _ => inferInstanceAs (Decidable (_ ∧ _ ∧ _))
  | .get _ _ => .isFalse id
  | .exists_ _ _ => .isFalse id

end Md5db

section Refused

variable (md5 : Bytes → InnerKey) (cfg : Settings) (s : Hustdb)

def Action.Refused : Action → Prop
  | .put t _ w => (s.putCall cfg t w).Refused md5 s.storage
  | .del t _ ver isDup _ => (s.delCall t ver isDup).Refused md5 s.storage
  | _ => False

instance : (a : Action) → Decidable (a.Refused md5 cfg s)
  | .put t _ w => inferInstanceAs (Decidable ((s.putCall cfg t w).Refused md5 s.storage))
  | .del t _ ver isDup _ => inferInstanceAs (Decidable ((s.delCall t ver isDup).Refused md5 s.storage))
  | .openTable _ _ | .fetch _ _ | .peek _ | .store _ | .eraseTtl _ | .seek _ | .tick _ | .evict _
  | .binlog _ => .isFalse id

def Op.Refused (op : Op) : Prop :=
  ∃ a ∈ op.actions md5 cfg s, a.Refused md5 cfg s

instance (op : Op) :
    Decidable (op.Refused md5 cfg s) := inferInstanceAs (Decidable (∃ a ∈ _, _))

end Refused

variable {md5 : Bytes → InnerKey} {cfg : Settings} {s : Hustdb}

namespace Hustdb

variable {t : Target} {offset ver : Nat} {isDup : Bool} {w : Write} {table key : Bytes} {type : TableType}

def InConflict (md5 : Bytes → InnerKey) (s : Hustdb) (t : Target) : Prop :=
  (s.storage.buckets (slotOf (md5 (t.table ++ t.key)))).type = .conflictData

instance (t : Target) : Decidable (s.InConflict md5 t) := inferInstanceAs (Decidable (_ = _))

theorem putWrite_refused (offset : Nat) (h : (s.putCall cfg t w).Refused md5 s.storage) :
    (s.putWrite md5 cfg t offset w).1.r = Db.refusal w.isDup ∧ (s.putWrite md5 cfg t offset w).2 = s := by
  obtain ⟨hargs, hrefused⟩ := h
  obtain ⟨current, ctxt, hput, hflag⟩ := Db.put_refused md5 hargs hrefused
  unfold putWrite putTarget
  rw [hput]
  cases hdup : w.isDup with
  | false => exact ⟨rfl, rfl⟩
  | true =>
    rw [hdup] at hflag
    simp [Db.refusal, hflag rfl]

theorem delTarget_refused (offset : Nat) (sized : Bool) (h : (s.delCall t ver isDup).Refused md5 s.storage)
    (hslot : isDup = true → ¬ s.InConflict md5 t) :
    (s.delTarget md5 cfg t offset ver isDup sized).1.r = Db.refusal isDup ∧
      (s.delTarget md5 cfg t offset ver isDup sized).2 = s := by
  obtain ⟨huser, hver, hrefused⟩ := h
  obtain ⟨current, ctxt, hdel, hflag⟩ := Db.del_refused md5 huser hver hrefused hslot
  unfold delTarget
  rw [hdel]
  cases isDup with
  | false => exact ⟨rfl, rfl⟩
  | true => simp [Db.refusal, hflag]

theorem openTable_of_isSome (h : (s.tables.find table).isSome) :
    Action.run md5 cfg s (.openTable table type) = s := by
  obtain ⟨offset, hfind⟩ := Option.isSome_iff_exists.mp h
  simp [Action.run, Tables.findTableOffset, hfind]

end Hustdb

/-- The refused operation does not get past the version test: its table is there, a replicated
deletion does not meet a conflict slot, and the score index is not touched. -/
def Op.Contained (md5 : Bytes → InnerKey) (s : Hustdb) : Op → Prop
  | .del key _ isDup => isDup = true → ¬ s.InConflict md5 (Hustdb.plainTarget key)
  | .hdel table key _ isDup =>
    isDup = true → ¬ s.InConflict md5 (Hustdb.tableTarget table .hashTb key)
  | .srem table key _ isDup => isDup = true → ¬ s.InConflict md5 (Hustdb.setTarget table key)
  | .hset table _ _ _ _ _ _ => (s.tables.find table).isSome
  | .hincrby table _ _ _ _ _ _ => (s.tables.find table).isSome
  | .sadd table _ _ _ _ _ => (s.tables.find table).isSome
  | .zadd table _ _ _ _ _ isDup _ => isDup = false ∧ (s.tables.find table).isSome
  | .zrem _ _ _ isDup => isDup = false
  | _ => True

instance (md5 : Bytes → InnerKey) (s : Hustdb) : (op : Op) → Decidable (op.Contained md5 s)
  | .del _ _ _ | .hdel _ _ _ _ | .srem _ _ _ _ => inferInstanceAs (Decidable (_ → ¬ _))
  | .hset _ _ _ _ _ _ _ | .hincrby _ _ _ _ _ _ _ | .sadd _ _ _ _ _ _ =>
    inferInstanceAs (Decidable (_ = true))
  | .zadd _ _ _ _ _ _ _ _ => inferInstanceAs (Decidable (_ ∧ _))
  | .zrem _ _ _ _ => inferInstanceAs (Decidable (_ = false))
  | .exist _ | .get _ | .put _ _ _ _ _ _ | .hget _ _ | .zscore _ _ | .messagePut _ _ _ _
  | .messageAck _ _ _ | .tick _ | .evict _ | .ttlScan _ | .binlogPut _ _ | .binlogDel _ =>
    .isTrue trivial

namespace Hustdb

variable {t : Target} {ver : Nat} {isDup : Bool} {w : Write} {table key : Bytes} {type : TableType} {a : Action}

theorem delCall_zero_not_refused : ¬ (s.delCall t 0 isDup).Refused md5 s.storage := by
  intro h
  have hrefused := h.2.2
  unfold Db.DelRefused at hrefused
  split at hrefused
  · exact hrefused (.inl rfl)
  · exact hrefused

def Idle (md5 : Bytes → InnerKey) (cfg : Settings) (s : Hustdb) (actions : List Action) : Prop :=
  (∃ a ∈ actions, a.Refused md5 cfg s) → Run.exec (Action.run md5 cfg) s actions = s

theorem idle_of_not_refused {actions : List Action} (h : ∀ a ∈ actions, ¬ a.Refused md5 cfg s) :
    s.Idle md5 cfg actions := fun ⟨a, ha, hrefused⟩ => absurd hrefused (h a ha)

theorem idle_nil : s.Idle md5 cfg [] := idle_of_not_refused (by simp)

theorem idle_ite {p : Prop} [Decidable p] {actions : List Action} (h : s.Idle md5 cfg actions) :
    s.Idle md5 cfg (if p then [] else actions) := by
  split
  · exact idle_nil
  · exact h

theorem idle_put (offset : Nat) : s.Idle md5 cfg [.put t offset w] := by
  intro ⟨a, ha, hrefused⟩
  obtain rfl := List.mem_singleton.mp ha
  exact (putWrite_refused offset hrefused).2

theorem idle_del (offset : Nat) (sized : Bool) (h : isDup = true → ¬ s.InConflict md5 t) :
    s.Idle md5 cfg [.del t offset ver isDup sized] := by
  intro ⟨a, ha, hrefused⟩
  obtain rfl := List.mem_singleton.mp ha
  exact (delTarget_refused offset sized hrefused h).2

theorem refused_head {a : Action} {p : Prop} [Decidable p] {calls : List Call}
    (h : ∃ b ∈ a :: (if p then calls.map .store else []), Action.Refused md5 cfg s b) :
    a.Refused md5 cfg s := by
  obtain ⟨b, hb, hrefused⟩ := h
  rcases List.mem_cons.mp hb with rfl | hb
  · exact hrefused
  · split_ifs at hb
    · obtain ⟨c, -, rfl⟩ := List.mem_map.mp hb
      cases hrefused
    · cases hb

theorem idle_put_index (t : Target) (offset : Nat) (w : Write) (hdup : w.isDup = false) (calls : List Call) :
    s.Idle md5 cfg (.put t offset w ::
      if (s.putWrite md5 cfg t offset w).1.r = .ok then calls.map .store else []) := by
  intro hrefused
  obtain ⟨hr, hs⟩ := putWrite_refused offset (refused_head hrefused)
  rw [hr, hdup, if_neg (by simp [Db.refusal])]
  exact hs

theorem idle_del_index (offset : Nat) (calls : List Call) : s.Idle md5 cfg (.del t offset ver false false ::
      if (s.delTarget md5 cfg t offset ver false false).1.r = .ok then calls.map .store else []) := by
  intro hrefused
  have hclient : false = true → ¬ s.InConflict md5 t := fun h => by cases h
  obtain ⟨hr, hs⟩ := delTarget_refused offset false (refused_head hrefused) hclient
  rw [hr, if_neg (by simp [Db.refusal])]
  exact hs

variable {actions : Nat → List Action}

theorem idle_inTable (h : ∀ offset, s.Idle md5 cfg (actions offset)) :
    s.Idle md5 cfg (s.inTable table type actions) := by
  unfold inTable
  split
  · exact idle_nil
  · exact h _

theorem idle_writeTable (htable : (s.tables.find table).isSome) (h : ∀ offset, s.Idle md5 cfg (actions offset)) :
    s.Idle md5 cfg (s.writeTable table type actions) := by
  unfold writeTable
  split
  · exact idle_nil
  · intro ⟨a, ha, hrefused⟩
    rw [Run.exec_cons, openTable_of_isSome htable]
    rcases List.mem_cons.mp ha with rfl | ha
    · cases hrefused
    · exact h _ ⟨a, ha, hrefused⟩

theorem idle_zaddActions (htable : (s.tables.find table).isSome) (score opt : Int) (ttl : Nat) (compressType : Nat) :
    s.Idle md5 cfg (s.zaddActions md5 cfg table key score opt ver ttl false compressType) := by
  refine idle_ite (idle_ite (idle_writeTable htable fun offset => ?_))
  dsimp only
  rw [openTable_of_isSome htable]
  split
  · exact idle_nil
  · next old _ =>
    split
    · exact idle_nil
    · let w := memberWrite (newScore old score opt) ver ttl false compressType
      let reply := (s.putWrite md5 cfg (tableTarget table .zsetIn key) offset w).1
      have hcalls : s.Idle md5 cfg _ := idle_put_index (tableTarget table .zsetIn key) offset w rfl
        ((old.map fun score => s.unindex table key score).toList ++
          [s.index table key (newScore old score opt) reply.version compressType])
      cases old <;> exact hcalls

theorem not_refused_of_deletes (h : a.Deletes) : ¬ a.Refused md5 cfg s := by
  cases a with
  | put t offset w => exact h.elim
  | del t offset ver isDup sized =>
    obtain ⟨rfl, rfl⟩ := h
    exact delCall_zero_not_refused
  | _ => exact id

theorem idle_single (h : ¬ a.Refused md5 cfg s) : s.Idle md5 cfg [a] :=
  idle_of_not_refused fun _ hb => List.mem_singleton.mp hb ▸ h

end Hustdb

open Hustdb in
theorem Op.step_of_refused {op : Op} (hrefused : op.Refused md5 cfg s) (hcontained : op.Contained md5 s) :
    op.step md5 cfg s = s := by
  rw [Op.step_eq]
  revert hrefused
  show s.Idle md5 cfg (op.actions md5 cfg s)
  cases op with
  | put key val ver ttl isDup compressType => exact idle_ite (idle_ite (idle_put 0))
  | del key ver isDup => exact idle_ite (idle_del 0 true hcontained)
  | hset table key val ver ttl isDup compressType =>
    refine idle_ite (idle_ite ?_)
    exact idle_writeTable hcontained fun offset => idle_put offset
  | hincrby table key score ver ttl isDup compressType =>
    refine idle_ite (idle_ite (idle_writeTable hcontained fun offset => ?_))
    cases s.hincrbyWrite md5 cfg table key score ver ttl isDup compressType with
    | none => exact idle_nil
    | some w => exact idle_put offset
  | hdel table key ver isDup =>
    refine idle_ite ?_
    exact idle_inTable fun offset => idle_del offset true hcontained
  | sadd table key ver ttl isDup compressType =>
    refine idle_ite (idle_ite ?_)
    exact idle_writeTable hcontained fun offset => idle_put offset
  | srem table key ver isDup =>
    refine idle_ite ?_
    exact idle_inTable fun offset => idle_del offset false hcontained
  | zadd table key score opt ver ttl isDup compressType =>
    obtain ⟨rfl, htable⟩ := hcontained
    exact idle_zaddActions htable score opt ttl compressType
  | zrem table key ver isDup =>
    obtain rfl : isDup = false := hcontained
    refine idle_ite (idle_inTable fun offset => ?_)
    dsimp only
    split
    · exact idle_nil
    · next score _ => exact idle_del_index offset [s.unindex table key score]
  | ttlScan size =>
    apply idle_of_not_refused
    intro a ha
    rcases List.mem_append.mp ha with ha | ha
    · exact not_refused_of_deletes (deletes_scanActions _ a ha)
    · obtain rfl := List.mem_singleton.mp ha
      exact id
  | exist key => exact idle_nil
  | get key => exact idle_ite (idle_single id)
  | hget table key => exact idle_ite (idle_inTable fun offset => idle_single id)
  | zscore table key => exact idle_ite (idle_inTable fun offset => idle_single id)
  | messagePut queue priori tag item => exact idle_ite (idle_ite (idle_single id))
  | messageAck queue priori tag => exact idle_ite (idle_single id)
  | tick now => exact idle_single id
  | evict key => exact idle_single id
  | binlogPut key val => exact idle_single id
  | binlogDel key => exact idle_single id

/-- A write that is refused for its version is a no-op. In every run whose refused operations are
all contained, each of them can be left out: the run then ends in the same state, whatever comes
after it. -/
theorem refused_write_leaves_no_trace {s : Hustdb} {before after : List Op} {op : Op}
    (hguard : Run.Guarded (Op.step md5 cfg) (fun s op => op.Refused md5 cfg s → op.Contained md5 s) s
      (before ++ op :: after))
    (hrefused : op.Refused md5 cfg (Run.exec (Op.step md5 cfg) s before)) :
    Run.exec (Op.step md5 cfg) s (before ++ op :: after) =
      Run.exec (Op.step md5 cfg) s (before ++ after) := by
  obtain ⟨-, hcontained, -⟩ := (Run.guarded_append _).mp hguard
  have hstep := Op.step_of_refused hrefused (hcontained hrefused)
  rw [Run.exec_append, Run.exec_append, Run.exec_cons, hstep]

def fieldAndMember : List Op :=
  [.hset (ascii "h") (ascii "k") [1] 0 0 false 0, .hset (ascii "h") (ascii "k") [2] 0 0 false 0,
    .zadd (ascii "z") (ascii "m") 5 0 0 0 false 0, .zadd (ascii "z") (ascii "m") 6 0 0 0 false 0]

theorem refused_write_leaves_no_trace_hdel : (Op.hdel (ascii "h") (ascii "k") 1 true).Refused Md5.md5 ⟨true, 1000⟩
        (smallServer fieldAndMember) ∧
      smallServer (fieldAndMember ++ [.hdel (ascii "h") (ascii "k") 1 true,
          .zadd (ascii "z") (ascii "m") 7 0 1 0 false 0]) =
        smallServer (fieldAndMember ++ [.zadd (ascii "z") (ascii "m") 7 0 1 0 false 0]) := by
  have hrefused : (Op.hdel (ascii "h") (ascii "k") 1 true).Refused Md5.md5 ⟨true, 1000⟩
      (smallServer fieldAndMember) := by decide +kernel
  refine ⟨hrefused, refused_write_leaves_no_trace ?_ hrefused⟩
  decide +kernel

/-- What refused writes leave behind. A replicated deletion with an old version takes a key of a
conflict slot off the listing; a replicated `zadd` moves the entry of its member in the score index,
and a replicated `zrem` removes it, while the member keeps its score; an `hset` with a version
creates its table. -/
theorem refused_writes_leave_traces :
    let k₁ := ascii "00000000"
    let k₂ := ascii "00cbpng1"
    let z := ascii "z"
    let m := ascii "m"
    let slot : List Op :=
      [.put k₁ [1] 0 0 false 0, .put k₁ [2] 0 0 false 0, .put k₂ [3] 0 0 false 0]
    let keys (s : Hustdb) := (s.hustdbKeys Md5.md5 0 10 0 0 1024 true).2.map Exported.key
    let range (s : Hustdb) := (s.hustdbZrange Md5.md5 z 0 9 0 10 0 1024 false true).2.map Exported.val
    let score (s : Hustdb) := (s.hustdbZscore Md5.md5 ⟨true, 1000⟩ z m).1.rsp
    let refused (ops : List Op) (op : Op) := op.Refused Md5.md5 ⟨true, 1000⟩ (smallServer ops)
    (refused slot (.del k₁ 1 true) ∧ keys (smallServer slot) = [k₁, k₂] ∧
      keys (smallServer (slot ++ [.del k₁ 1 true])) = [k₂]) ∧
    (refused fieldAndMember (.zadd z m 7 0 1 0 true 0) ∧ range (smallServer fieldAndMember) = [ascii "6"] ∧
      range (smallServer (fieldAndMember ++ [.zadd z m 7 0 1 0 true 0])) = [ascii "7"] ∧
      score (smallServer (fieldAndMember ++ [.zadd z m 7 0 1 0 true 0])) = ascii "6") ∧
    (refused fieldAndMember (.zrem z m 1 true) ∧ range (smallServer (fieldAndMember ++ [.zrem z m 1 true])) = [] ∧
      score (smallServer (fieldAndMember ++ [.zrem z m 1 true])) = ascii "6") ∧
    (refused [] (.hset (ascii "h") m [1] 5 0 false 0) ∧ (smallServer []).tables.find (ascii "h") = none ∧
      (smallServer [.hset (ascii "h") m [1] 5 0 false 0]).tables.find (ascii "h") = some 2) := by
  decide +kernel

end HustStore
