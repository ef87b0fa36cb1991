import HustStore.Md5
import HustStore.Md5db.Run

/-!
# The version law

A put reports the version that it stores, and a later read is expected to report the same one.
-/

namespace HustStore.Md5db

/-- The version that a put stores survives the packed field: 1 for the first put of a client, the
successor of the version found for a later one, and the version of a replicated put. -/
def Survives (version : Nat) (isDup : Bool) : Except Errno (BlockId × Nat) → Prop
  | .error _ => Representable (Db.newVersion version isDup)
  | .ok (_, current) =>
    Db.Accepts version isDup current → Representable (Db.nextVersion version isDup current)

instance (version : Nat) (isDup : Bool) :
    (found : Except Errno (BlockId × Nat)) → Decidable (Survives version isDup found)
  | .error _ => inferInstanceAs (Decidable (Representable _))
  | .ok (_, current) => inferInstanceAs (Decidable (Db.Accepts version isDup current → _))

namespace Call

variable (md5 : Bytes → InnerKey)

def Exact (db : Db) : Call → Prop
  | .put q userKey _ version isDup =>
    Survives version isDup (db.locate (Db.innerKeyOf md5 q userKey))
  | .del _ _ _ _ => True
  | .get _ _ => True
  | .exists_ _ _ => True

def Spares (k : InnerKey) : Call → Prop
  | .put q userKey _ _ _ => Db.innerKeyOf md5 q userKey ≠ k
  | .del q userKey _ _ => Db.innerKeyOf md5 q userKey ≠ k
  | .get _ _ => True
  | .exists_ _ _ => True

instance (db : Db) : (c : Call) → Decidable (c.Exact md5 db)
  | .put _ _ _ version isDup => inferInstanceAs (Decidable (Survives version isDup _))
  | .del _ _ _ _ | .get _ _ | .exists_ _ _ => .isTrue trivial

end Call

namespace Db

variable {db db' : Db} {dir dir' : Directory} {md5 : Bytes → InnerKey} {q : Query}
  {userKey val : Bytes} {version : Nat} {isDup : Bool} {k : InnerKey}

structure VersionInv (db : Db) (dir : Directory) : Prop where
  run : db.RunInv dir
  exact : ∀ k e, dir k = some e → Representable e.version

theorem VersionInv.repack (h : db.VersionInv dir) (k : InnerKey) : (dir k).map Entry.repack = dir k := by
  cases hk : dir k with
  | none => rfl
  | some e => simp only [Option.map_some, Entry.repack, (h.exact k e hk).packVersion]

theorem VersionInv.update (h : db.VersionInv dir) {o : Option Entry}
    (hrun : db'.RunInv (Function.update dir k o)) (ho : ∀ e ∈ o, Representable e.version) :
    db'.VersionInv (Function.update dir k o) := by
  refine ⟨hrun, fun k' e he => ?_⟩
  by_cases heq : k' = k
  · subst heq
    rw [Function.update_self] at he
    exact ho e he
  · rw [Function.update_of_ne heq] at he
    exact h.exact k' e he

theorem view_update {o : Option Entry} {cell : Option (Bytes × Nat)}
    (hself : db'.view (Function.update dir k o) k = cell)
    (hother : ∀ k', k' ≠ k → db'.view (Function.update dir k o) k' = db.view dir k') :
    db'.view (Function.update dir k o) = Function.update (db.view dir) k cell := by
  funext k'
  by_cases heq : k' = k
  · subst heq
    rw [hself, Function.update_self]
  · rw [hother k' heq, Function.update_of_ne heq]

/-- What a put that was carried out says: it was not refused, and whether its key is new. -/
structure Reported (kind : KvType) (ctxt : ItemCtxt) : Prop where
  flag : ctxt.isVersionError = false
  kind_eq : ctxt.kvType = kind

inductive PutStep (db : Db) (dir : Directory) (q : Query) (k : InnerKey) (bytes : Bytes)
    (version : Nat) (isDup : Bool) : Reply → Db → Directory → Prop
  | failed {e : Errno} {ctxt : ItemCtxt} {db' : Db} (absent : dir k = none)
      (flag : ctxt.isVersionError = false) (view : db'.view dir = db.view dir)
      (data : db'.data = db.data) :
      PutStep db dir q k bytes version isDup ⟨.err e, 0, some ctxt⟩ db' dir
  | refused {e : Entry} {ctxt : ItemCtxt} (present : dir k = some e)
      (refuse : ¬ Accepts version isDup e.version) (flag : ctxt.isVersionError = true) :
      PutStep db dir q k bytes version isDup ⟨if isDup then .ok else .err .EINVAL, e.version, some ctxt⟩ db dir
  | inserted {id : Nat} {ctxt : ItemCtxt} {db' : Db} (absent : dir k = none)
      (fresh : (k.bucket, id) ∉ dir.live) (report : Reported .newKv ctxt)
      (view : db'.view (Function.update dir k (some ⟨id, newVersion version isDup⟩)) =
        Function.update (db.view dir) k (some (bytes, newVersion version isDup)))
      (listed : (db.listed q k id (db.hashCtxt q k)).1 = .ok)
      (data : db'.data = (db.listed q k id (db.hashCtxt q k)).2) :
      PutStep db dir q k bytes version isDup ⟨.ok, newVersion version isDup, some ctxt⟩ db'
        (Function.update dir k (some ⟨id, newVersion version isDup⟩))
  | updated {e : Entry} {ctxt : ItemCtxt} {db' : Db} (present : dir k = some e)
      (accept : Accepts version isDup e.version) (report : Reported .errorKv ctxt)
      (view : db'.view (Function.update dir k (some ⟨e.dataId, nextVersion version isDup e.version⟩)) =
        Function.update (db.view dir) k (some (bytes, nextVersion version isDup e.version)))
      (data : db'.data = db.data) :
      PutStep db dir q k bytes version isDup ⟨.ok, nextVersion version isDup e.version, some ctxt⟩ db'
        (Function.update dir k (some ⟨e.dataId, nextVersion version isDup e.version⟩))

theorem VersionInv.inserted_dir (h : db.VersionInv dir) {id : Nat} {bytes : Bytes}
    (hrep : Representable version) (hins : Inserted db dir k id bytes version db' dir') :
    dir' = Function.update dir k (some ⟨id, version⟩) := by
  funext k'
  by_cases heq : k' = k
  · subst heq
    rw [hins.entry, hrep.packVersion, Function.update_self]
  · rw [Function.update_of_ne heq]
    exact (hins.others k' heq).elim (fun hsame => hsame) fun hsame => hsame.trans (h.repack k')

theorem VersionInv.inserted_view (h : db.VersionInv dir) {id : Nat} {bytes : Bytes}
    (hins : Inserted db dir k id bytes version db' (Function.update dir k (some ⟨id, version⟩)))
    (hrep : Representable version) :
    db'.view (Function.update dir k (some ⟨id, version⟩)) =
      Function.update (db.view dir) k (some (bytes, version)) := by
  apply view_update
  · rw [hins.view_self, hrep.packVersion]
  · intro k' hne
    rcases hins.view_other hne with heq | heq
    · exact heq
    · rw [heq]
      cases hk : dir k' with
      | none => rw [view_none hk, Option.map_none]
      | some e =>
        obtain ⟨bytes', -, -, hview⟩ := h.run.inv.view_isSome hk
        rw [hview, Option.map_some, (h.exact k' e hk).packVersion]

theorem VersionInv.putStep (h : db.VersionInv dir) (hargs : PutArgs userKey val version isDup)
    (hplace : db.HasPlace (innerKeyOf md5 q userKey))
    (hexact : Survives version isDup (db.locate (innerKeyOf md5 q userKey))) :
    ∃ dir', (db.put md5 q userKey val version isDup).2.VersionInv dir' ∧
      db.PutStep dir q (innerKeyOf md5 q userKey) (recordBytes val userKey (kvDataOf q userKey))
        version isDup (db.put md5 q userKey val version isDup).1
        (db.put md5 q userKey val version isDup).2 dir' := by
  obtain ⟨r, version', ctxt, db', dir', houtcome, hput⟩ := h.run.inv.put md5 hargs hplace
  have hrun := h.run.congr (houtcome.inv h.run.inv) houtcome.fileCount
  have hlocate := h.run.inv.locate (innerKeyOf md5 q userKey)
  rw [hput]
  cases houtcome with
  | failed habsent hflag hkept hdata =>
    have hfalse : ctxt.isVersionError = false := hflag
    refine ⟨dir, ⟨hrun, h.exact⟩, ?_⟩
    simp only [hfalse, Bool.false_eq_true, false_and, if_false]
    exact .failed habsent hfalse hkept.view_eq hdata
  | refused hpresent hrefuse hresult hflag =>
    refine ⟨dir, ⟨hrun, h.exact⟩, ?_⟩
    have hr : (if ctxt.isVersionError = true ∧ isDup = true then Rc.ok else r) =
        if isDup then .ok else .err .EINVAL := by
      cases isDup with
      | true => simp [hflag]
      | false => simp [hresult rfl]
    rw [hr]
    exact .refused hpresent hrefuse hflag
  | inserted hins hreported hreport hlisted hdata =>
    rw [hins.absent] at hlocate
    simp only at hlocate
    rw [hlocate] at hexact
    have hrep : Representable (newVersion version isDup) := hexact
    rw [hrep.packVersion, or_self] at hreported
    obtain rfl := h.inserted_dir hrep hins
    refine ⟨_, h.update hrun fun e he => by cases he; exact hrep, ?_⟩
    have hfalse : ctxt.isVersionError = false := hreport.1
    have hpos : newVersion version isDup ≠ 0 := newVersion_pos hargs.binlog
    simp only [hreported, hpos, hfalse, Bool.false_eq_true, false_and, if_false]
    exact .inserted hins.absent hins.fresh ⟨hfalse, hreport.2 (hreported ▸ hpos)⟩
      (h.inserted_view hins hrep) hlisted hdata
  | @updated e stored _ _ haccept hupdated hstored hreport hdata =>
    rw [hupdated.present] at hlocate
    simp only at hlocate
    rw [hlocate] at hexact
    have hrep : Representable (nextVersion version isDup e.version) := hexact haccept
    obtain rfl : stored = nextVersion version isDup e.version := by
      rcases hstored with heq | ⟨heq, -⟩
      · rw [heq, hrep.packVersion]
      · exact heq
    refine ⟨_, h.update hrun fun e' he' => by cases he'; exact hrep, ?_⟩
    have hfalse : ctxt.isVersionError = false := hreport.1
    simp only [hfalse, Bool.false_eq_true, false_and, if_false]
    exact .updated hupdated.present haccept ⟨hfalse, hreport.2⟩
      (view_update hupdated.view_self fun k' hne => hupdated.view_other h.run.inv hne) hdata

theorem VersionInv.put (h : db.VersionInv dir) (val : Bytes) (hplace : db.HasPlace (innerKeyOf md5 q userKey))
    (hexact : Survives version isDup (db.locate (innerKeyOf md5 q userKey))) :
    ∃ dir', (db.put md5 q userKey val version isDup).2.VersionInv dir' ∧
      (∀ k, k ≠ innerKeyOf md5 q userKey ∨ (db.put md5 q userKey val version isDup).1.r ≠ .ok → dir' k = dir k) ∧
      ((db.put md5 q userKey val version isDup).1.r = .ok →
        checkUserKey userKey ∧ ∃ id, dir' (innerKeyOf md5 q userKey) =
          some ⟨id, (db.put md5 q userKey val version isDup).1.version⟩) := by
  by_cases hargs : PutArgs userKey val version isDup
  swap
  · rw [put_of_invalid md5 db q hargs]
    exact ⟨dir, h, fun _ _ => rfl, fun hok => by cases hok⟩
  obtain ⟨dir', hinv, hstep⟩ := h.putStep hargs hplace hexact
  refine ⟨dir', hinv, ?_⟩
  generalize db.put md5 q userKey val version isDup = out at hstep
  obtain ⟨reply, db'⟩ := out
  cases hstep with
  | failed _ _ _ _ => exact ⟨fun _ _ => rfl, fun hok => by cases hok⟩
  | @refused e _ hpresent _ _ => exact ⟨fun _ _ => rfl, fun _ => ⟨hargs.user, e.dataId, hpresent⟩⟩
  | inserted _ _ _ _ _ _ =>
    exact ⟨fun k hk => Function.update_of_ne (hk.resolve_right (by simp)) _ _,
      fun _ => ⟨hargs.user, _, Function.update_self ..⟩⟩
  | updated _ _ _ _ _ =>
    exact ⟨fun k hk => Function.update_of_ne (hk.resolve_right (by simp)) _ _,
      fun _ => ⟨hargs.user, _, Function.update_self ..⟩⟩

inductive DelStep (db : Db) (dir : Directory) (q : Query) (k : InnerKey) (version : Nat)
    (isDup : Bool) : Reply → Db → Directory → Prop
  | absent (absent : dir k = none) : DelStep db dir q k version isDup ⟨.err .ENOENT, 0, some (db.hashCtxt q k)⟩ db dir
  | refused {e : Entry} {ctxt : ItemCtxt} {db' : Db} (present : dir k = some e)
      (refuse : ¬ Accepts version isDup e.version) (flag : ctxt.isVersionError = true)
      (view : db'.view dir = db.view dir) (unchanged : isDup = false → db' = db)
      (data : db'.data = db.data ∨ db'.data = (db.unlisted q k e (db.hashCtxt q k)).2) :
      DelStep db dir q k version isDup ⟨if isDup then .ok else .err .EINVAL, e.version, some ctxt⟩ db' dir
  | removed {e : Entry} {ctxt : ItemCtxt} {db' : Db} (present : dir k = some e)
      (accept : Accepts version isDup e.version) (flag : ctxt.isVersionError = false)
      (length : ∃ bytes, db.view dir k = some (bytes, e.version) ∧ ctxt.kvData.ttl = bytes.length)
      (view : db'.view (Function.update dir k none) = Function.update (db.view dir) k none)
      (data : db'.data = (db.unlisted q k e (db.hashCtxt q k)).2) :
      DelStep db dir q k version isDup ⟨.ok, e.version, some ctxt⟩ db' (Function.update dir k none)

section

variable (h : db.VersionInv dir)
include h

theorem VersionInv.delStep (huser : checkUserKey userKey)
    (hver : version ≤ bucketDataMaxVersion) (isDup : Bool) (hroom : db.contents.Room)
    (htable : q.table.length + 5 ≤ leveldbKeyMax) :
    ∃ dir', (db.del md5 q userKey version isDup).2.VersionInv dir' ∧
      db.DelStep dir q (innerKeyOf md5 q userKey) version isDup
        (db.del md5 q userKey version isDup).1 (db.del md5 q userKey version isDup).2 dir' := by
  obtain ⟨r, version', ctxt, db', dir', houtcome, hdel⟩ :=
    h.run.inv.del md5 huser hver isDup hroom (h.run.listable htable _)
  have hrun := h.run.congr (houtcome.inv h.run.inv) houtcome.fileCount
  rw [hdel]
  cases houtcome with
  | absent habsent => exact ⟨dir, h, .absent habsent⟩
  | refused hpresent hrefuse hflag hkept hunchanged hdata =>
    exact ⟨dir, ⟨hrun, h.exact⟩, .refused hpresent hrefuse hflag hkept.view_eq hunchanged hdata⟩
  | removed haccept hremoved hreport hdata =>
    obtain ⟨bytes, hraw, hlength⟩ := h.run.inv.records.raw_isSome (mem_live hremoved.present)
    refine ⟨_, h.update hrun fun e he => (by cases he), ?_⟩
    exact .removed hremoved.present haccept hreport.1
      ⟨bytes, view_some hremoved.present hraw, hreport.2.trans hlength.symm⟩
      (view_update (Removed.view_self _) fun k' hne => hremoved.view_other h.run.inv hne) hdata

theorem VersionInv.del (hroom : db.contents.Room) (htable : q.table.length + 5 ≤ leveldbKeyMax) :
    ∃ dir', (db.del md5 q userKey version isDup).2.VersionInv dir' ∧
      ∀ k, k ≠ innerKeyOf md5 q userKey ∨ (db.del md5 q userKey version isDup).1.r ≠ .ok → dir' k = dir k := by
  by_cases hargs : checkUserKey userKey = true ∧ version ≤ bucketDataMaxVersion
  swap
  · rw [del_of_invalid md5 db q hargs]
    exact ⟨dir, h, fun _ _ => rfl⟩
  obtain ⟨dir', hinv, hstep⟩ := h.delStep (q := q) hargs.1 hargs.2 isDup hroom htable
  refine ⟨dir', hinv, ?_⟩
  generalize db.del md5 q userKey version isDup = out at hstep
  obtain ⟨reply, db'⟩ := out
  simp only at hstep
  cases hstep with
  | absent _ => exact fun _ _ => rfl
  | refused _ _ _ _ _ _ => exact fun _ _ => rfl
  | removed _ _ _ _ _ _ => exact fun k hk => Function.update_of_ne (hk.resolve_right (by simp)) _ _

theorem VersionInv.step {c : Call} (hplaced : c.Placed md5 db) (hexact : c.Exact md5 db) :
    ∃ dir', (c.step md5 db).VersionInv dir' ∧ ∀ k, c.Spares md5 k → dir' k = dir k := by
  cases c with
  | put q userKey val version isDup =>
    obtain ⟨dir', hinv, hother, -⟩ := h.put val hplaced hexact
    exact ⟨dir', hinv, fun k hne => hother k (.inl hne.symm)⟩
  | del q userKey version isDup =>
    obtain ⟨dir', hinv, hother⟩ := h.del hplaced.1 hplaced.2
    exact ⟨dir', hinv, fun k hne => hother k (.inl hne.symm)⟩
  | get q userKey => exact ⟨dir, h, fun _ _ => rfl⟩
  | exists_ q userKey => exact ⟨dir, h, fun _ _ => rfl⟩

theorem VersionInv.reads (huser : checkUserKey userKey) {id : Nat}
    (hk : dir (innerKeyOf md5 q userKey) = some ⟨id, version⟩) :
    db.exists_ md5 q userKey = (.ok, version) ∧ (db.get md5 q userKey).version = version := by
  obtain ⟨bytes, -, -, hview⟩ := h.run.inv.view_isSome hk
  rw [h.run.inv.exists_eq md5 q huser, h.run.inv.get_eq md5 q huser, hview]
  refine ⟨rfl, ?_⟩
  simp only [getOf]
  cases parseRecord userKey bytes <;> rfl

theorem VersionInv.entry_of_exists (huser : checkUserKey userKey) (hexists : (db.exists_ md5 q userKey).1 = .ok) :
    ∃ e, dir (innerKeyOf md5 q userKey) = some e := by
  rw [h.run.inv.exists_eq md5 q huser] at hexists
  cases hk : dir (innerKeyOf md5 q userKey) with
  | none =>
    rw [view_none hk] at hexists
    cases hexists
  | some e => exact ⟨e, rfl⟩

theorem VersionInv.put_client (hargs : PutArgs userKey val version false)
    (hplace : db.HasPlace (innerKeyOf md5 q userKey)) {id current : Nat}
    (hk : dir (innerKeyOf md5 q userKey) = some ⟨id, current⟩) :
    if Accepts version false current then
      (db.put md5 q userKey val version false).1.r = .ok ∧
        (db.put md5 q userKey val version false).1.version = addVersion current
    else (db.put md5 q userKey val version false).1.r = .err .EINVAL := by
  obtain ⟨r, version', ctxt, db', dir', houtcome, hput⟩ := h.run.inv.put md5 hargs hplace
  rw [hput]
  cases houtcome with
  | failed habsent _ _ _ => exact absurd (hk.symm.trans habsent) (by simp)
  | refused hpresent hrefuse hresult _ =>
    cases hk.symm.trans hpresent
    rw [if_neg hrefuse, hresult rfl]
    simp
  | inserted hins _ _ _ _ => exact absurd (hk.symm.trans hins.absent) (by simp)
  | updated haccept hupdated _ _ _ =>
    cases hk.symm.trans hupdated.present
    rw [if_pos haccept]
    simp

end

end Db

/-! ### Runs -/

section Runs

variable {md5 : Bytes → InnerKey} {cfg : Config} {calls : List Call}

def Call.Sound (md5 : Bytes → InnerKey) (db : Db) (c : Call) : Prop :=
  c.Placed md5 db ∧ c.Exact md5 db

instance (db : Db) (c : Call) : Decidable (c.Sound md5 db) :=
  inferInstanceAs (Decidable (c.Placed md5 db ∧ c.Exact md5 db))

theorem versionInv_run (hcfg : cfg.Valid)
    (hguard : Run.Guarded (Call.step md5) (Call.Sound md5) (Db.create cfg) calls) :
    ∃ dir, (Run.exec (Call.step md5) (Db.create cfg) calls).VersionInv dir := by
  refine hguard.invariant (P := fun db => ∃ dir, db.VersionInv dir) ?_
    ⟨_, Db.runInv_create hcfg, fun _ _ h => by cases h⟩
  rintro s c ⟨dir, h⟩ ⟨hplaced, hexact⟩
  obtain ⟨dir', h', -⟩ := h.step hplaced hexact
  exact ⟨dir', h'⟩

theorem Db.VersionInv.run_spares {db : Db} {dir : Directory} (h : db.VersionInv dir) {k : InnerKey}
    (hguard : Run.Guarded (Call.step md5) (Call.Sound md5) db calls)
    (hspares : ∀ c ∈ calls, c.Spares md5 k) :
    ∃ dir', (Run.exec (Call.step md5) db calls).VersionInv dir' ∧ dir' k = dir k := by
  refine (hguard.and_forall hspares).invariant
    (P := fun db' => ∃ dir', db'.VersionInv dir' ∧ dir' k = dir k) ?_ ⟨dir, h, rfl⟩
  rintro s c ⟨dir', h', hk⟩ ⟨hc, hsound⟩
  obtain ⟨dir'', h'', hother⟩ := h'.step hsound.1 hsound.2
  exact ⟨dir'', h'', (hother k hc).trans hk⟩

/-- The version law. After a sound run, a sound put that succeeds reports the version that both
reads report, until the record is written again. A put of a client on an existing key reports the
successor of the version read before it, and a put with the version just reported succeeds. -/
theorem put_version_law (hcfg : cfg.Valid)
    (hguard : Run.Guarded (Call.step md5) (Call.Sound md5) (Db.create cfg) calls)
    {q : Query} {userKey val : Bytes} {version : Nat} {isDup : Bool}
    (hsound : (Call.put q userKey val version isDup).Sound md5 (Run.exec (Call.step md5) (Db.create cfg) calls)) :
    let db := Run.exec (Call.step md5) (Db.create cfg) calls
    let out := db.put md5 q userKey val version isDup
    out.1.r = .ok → (isDup = false → (db.exists_ md5 q userKey).1 = .ok →
        out.1.version = addVersion (db.exists_ md5 q userKey).2) ∧
      ∀ later, Run.Guarded (Call.step md5) (Call.Sound md5) out.2 later →
        (∀ c ∈ later, c.Spares md5 (Db.innerKeyOf md5 q userKey)) →
        let db' := Run.exec (Call.step md5) out.2 later
        db'.exists_ md5 q userKey = (.ok, out.1.version) ∧
        (db'.get md5 q userKey).version = out.1.version ∧
        ∀ val', userKey.length + val'.length ≤ Md5db.maxValLen → db'.HasPlace (Db.innerKeyOf md5 q userKey) →
          (db'.put md5 q userKey val' out.1.version false).1.r = .ok := by
  intro db out hok
  obtain ⟨dir, h⟩ := versionInv_run hcfg hguard
  obtain ⟨dir', h', -, hreport⟩ := h.put val hsound.1 hsound.2
  obtain ⟨huser, id, hk⟩ := hreport hok
  refine ⟨fun hclient hexists => ?_, fun later hlater hspares => ?_⟩
  · subst hclient
    have hargs : Db.PutArgs userKey val version false := by
      by_contra hinvalid
      have hput := Db.put_of_invalid md5 db q hinvalid
      simp [out, hput] at hok
    obtain ⟨current, hcurrent⟩ := h.entry_of_exists huser hexists
    have hput := h.put_client hargs hsound.1 hcurrent
    rw [(h.reads huser hcurrent).1]
    split_ifs at hput
    · exact hput.2
    · exact absurd (hok.symm.trans hput) (by simp)
  · obtain ⟨dir'', h'', hkept⟩ := h'.run_spares hlater hspares
    obtain ⟨hexists, hget⟩ := h''.reads (q := q) huser (hkept.trans hk)
    refine ⟨hexists, hget, fun val' hlen hplace => ?_⟩
    have hle : out.1.version ≤ bucketDataMaxVersion :=
      (h'.exact _ _ hk).1.le.trans (by decide)
    have hargs : Db.PutArgs userKey val' out.1.version false :=
      ⟨huser, hlen, hle, fun h => by cases h⟩
    have hput := h''.put_client hargs hplace (hkept.trans hk)
    rw [if_pos (.inr rfl)] at hput
    exact hput.1

def slotWrites : List Call :=
  [.put (.plain 0) (ascii "00000000") [1] 0 false, .put (.plain 0) (ascii "00000000") [2] 9 true,
    .put (.plain 0) (ascii "00cbpng1") [3] 0 false]

theorem put_version_law_slotWrites :
    let db := Run.exec (Call.step Md5.md5) (Db.create ⟨4, 2, 1, 1⟩) slotWrites
    let out := db.put Md5.md5 (.plain 0) (ascii "00000000") [4] 9 false
    Run.Guarded (Call.step Md5.md5) (Call.Sound Md5.md5) (Db.create ⟨4, 2, 1, 1⟩) slotWrites ∧
    (Call.put (.plain 0) (ascii "00000000") [4] 9 false).Sound Md5.md5 db ∧
    out.1.r = .ok ∧ out.1.version = 10 ∧
    out.2.exists_ Md5.md5 (.plain 0) (ascii "00000000") = (.ok, out.1.version) := by
  have hguard : Run.Guarded (Call.step Md5.md5) (Call.Sound Md5.md5) (Db.create ⟨4, 2, 1, 1⟩)
      slotWrites := by decide +kernel
  have hsound : (Call.put (.plain 0) (ascii "00000000") [4] 9 false).Sound Md5.md5
      (Run.exec (Call.step Md5.md5) (Db.create ⟨4, 2, 1, 1⟩) slotWrites) := by decide +kernel
  have hreply : ((Run.exec (Call.step Md5.md5) (Db.create ⟨4, 2, 1, 1⟩) slotWrites).put Md5.md5
        (.plain 0) (ascii "00000000") [4] 9 false).1.r = .ok ∧
      ((Run.exec (Call.step Md5.md5) (Db.create ⟨4, 2, 1, 1⟩) slotWrites).put Md5.md5
        (.plain 0) (ascii "00000000") [4] 9 false).1.version = 10 := by decide +kernel
  have hlaw := put_version_law Config.valid_small hguard hsound hreply.1
  exact ⟨hguard, hsound, hreply.1, hreply.2, (hlaw.2 [] trivial (by simp)).1⟩

/-- A version from 64 on is not read back: a replicated put reports that it stored version 64, the
reads report 80, and a put with the version 64 is refused. -/
theorem version_not_read_back :
    let key := ascii "k"
    let db := Run.exec (Call.step Md5.md5) (Db.create ⟨4, 2, 1, 1⟩)
      [.put (.plain 0) key [1] 0 false]
    let out := db.put Md5.md5 (.plain 0) key [2] 64 true
    out.1.r = .ok ∧ out.1.version = 64 ∧ out.2.exists_ Md5.md5 (.plain 0) key = (.ok, 80) ∧
      (out.2.get Md5.md5 (.plain 0) key).version = 80 ∧
      (out.2.put Md5.md5 (.plain 0) key [3] 64 false).1.r = .err .EINVAL := by
  decide +kernel

end Runs

end HustStore.Md5db
