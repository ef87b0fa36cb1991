import HustStore.Hustdb.Targets

/-!
# The records of the server

Along a run of the server the store holds a map of records, each of them filed in a table of the server.
-/

namespace HustStore

open Md5db

namespace Md5db.Db

variable {complete : Prop} {md5 : Bytes → InnerKey} {used : Set Address} {db : Db} {dir : Directory} {m : RecMap}

theorem Holds.withTtlFile (h : db.Holds complete md5 used dir m) (ttlFile : SortedMap Bytes TtlEntry) :
    Holds complete md5 used { db with data := { db.data with ttlFile } } dir m where
  versions :=
    { exact := h.versions.exact
      run :=
        { files_pos := h.versions.run.files_pos
          inv :=
            { records := { h.versions.run.inv.records with }
              suffix := h.versions.run.inv.suffix
              inj := h.versions.run.inv.inj
              index :=
                { fast := h.versions.run.inv.index.fast
                  slots := fun s => (h.versions.run.inv.index.slots s).congr rfl (fun _ _ h => h)
                    (fun _ _ => rfl) fun _ _ => rfl
                  rows := h.versions.run.inv.index.rows } } } }
  view_eq := h.view_eq
  fits := h.fits
  owned := h.owned
  listed := h.listed
  listed_all := h.listed_all

end Md5db.Db

variable (md5 : Bytes → InnerKey) (cfg : Settings)

def Action.Within (used : Set Address) (s : Hustdb) (a : Action) : Prop :=
  ∀ c ∈ a.call md5 cfg s, c.address ∈ used ∧ c.Sound md5 s.storage

def Action.Unrefused (s : Hustdb) (a : Action) : Prop :=
  ∀ c ∈ a.call md5 cfg s, c.Unrefused md5 s.storage

instance (used : Set Address) [DecidablePred (· ∈ used)] (s : Hustdb) (a : Action) :
    Decidable (a.Within md5 cfg used s) :=
  decidable_of_iff ((a.call md5 cfg s).all fun c => c.address ∈ used ∧ c.Sound md5 s.storage) (by
    unfold Action.Within
    cases a.call md5 cfg s <;> simp)

instance (s : Hustdb) (a : Action) : Decidable (a.Unrefused md5 cfg s) :=
  decidable_of_iff ((a.call md5 cfg s).all fun c => c.Unrefused md5 s.storage) (by
    unfold Action.Unrefused
    cases a.call md5 cfg s <;> simp)

namespace Hustdb

def Target.address (t : Target) : Address := ⟨t.table, t.key⟩

variable (s : Hustdb)

theorem storage_putWrite (t : Target) (offset : Nat) (w : Write) :
    (s.putWrite md5 cfg t offset w).2.storage = (s.putCall cfg t w).step md5 s.storage := by
  show _ = (s.storage.put md5 (s.query t.table (s.deathOf cfg w.ttl) w.compressType) t.key w.val w.ver w.isDup).2
  unfold putWrite putTarget
  rcases s.storage.put md5 (s.query t.table (s.deathOf cfg w.ttl) w.compressType) t.key w.val w.ver
    w.isDup with ⟨⟨_ | e, version, _ | ctxt⟩, db⟩ <;> rfl

theorem storage_delTarget (t : Target) (offset ver : Nat) (isDup sized : Bool) :
    (s.delTarget md5 cfg t offset ver isDup sized).2.storage = (s.delCall t ver isDup).step md5 s.storage := by
  show _ = (s.storage.del md5 (s.query t.table 0 0) t.key ver isDup).2
  unfold delTarget
  rcases s.storage.del md5 (s.query t.table 0 0) t.key ver isDup with ⟨⟨_ | e, version, _ | ctxt⟩, db⟩
  · rfl
  · dsimp only
    split <;> rfl
  · rfl
  · rfl

theorem storage_dropDead (t : Target) (offset : Nat) :
    (s.dropDead md5 t offset).2.storage = (s.delCall t 0 false).step md5 s.storage := by
  show _ = (s.storage.del md5 (s.query t.table 0 0) t.key 0 false).2
  unfold dropDead
  rcases s.storage.del md5 (s.query t.table 0 0) t.key 0 false with
    ⟨⟨_ | e, version, _ | ctxt⟩, db⟩ <;> rfl

theorem getTarget_cases (t : Target) (offset : Nat) :
    (s.Drops md5 cfg t ∧ (s.getTarget md5 cfg t offset).2 = (s.dropDead md5 t offset).2) ∨
      (¬s.Drops md5 cfg t ∧ ∃ mdb, (s.getTarget md5 cfg t offset).2 = { s with mdb }) := by
  unfold Drops getTarget
  cases s.cached cfg t with
  | some item => exact .inr ⟨by simp, s.mdb, rfl⟩
  | none =>
    cases hread : (s.storage.get md5 (s.query t.table 0 0) t.key).r with
    | err e => exact .inr ⟨by simp [hread], s.mdb, by simp only [hread]⟩
    | ok =>
      simp only [hread]
      by_cases hdead : (s.storage.get md5 (s.query t.table 0 0) t.key).kvData.ttl > 0 ∧
          (s.storage.get md5 (s.query t.table 0 0) t.key).kvData.ttl ≤ s.now
      · rw [if_pos hdead]
        exact .inl ⟨⟨trivial, trivial, hdead⟩, rfl⟩
      · rw [if_neg hdead]
        refine .inr ⟨fun hdrops => hdead hdrops.2.2, ?_⟩
        split_ifs <;> exact ⟨_, rfl⟩

theorem storage_peekTarget (t : Target) :
    ∃ mdb, (s.peekTarget md5 cfg t).2 = { s with mdb } := by
  unfold peekTarget
  cases s.cached cfg t with
  | some item => exact ⟨s.mdb, rfl⟩
  | none =>
    cases hread : (s.storage.get md5 (s.query t.table 0 0) t.key).r with
    | err e => exact ⟨s.mdb, by simp only [hread]⟩
    | ok =>
      simp only [hread]
      split_ifs <;> exact ⟨_, rfl⟩

theorem storage_run (a : Action) :
    (∃ c ∈ a.call md5 cfg s, (a.run md5 cfg s).storage = c.step md5 s.storage) ∨
      (a.run md5 cfg s).storage = s.storage ∨
      ∃ ttlFile, (a.run md5 cfg s).storage = { s.storage with data := { s.storage.data with ttlFile } } := by
  cases a with
  | openTable table type => exact .inr (.inl rfl)
  | fetch t offset =>
    rcases getTarget_cases md5 cfg s t offset with ⟨hdrops, heq⟩ | ⟨-, mdb, heq⟩
    · refine .inl ⟨s.delCall t 0 false, if_pos hdrops, ?_⟩
      rw [Action.run, heq, storage_dropDead]
    · refine .inr (.inl ?_)
      rw [Action.run, heq]
  | peek t =>
    obtain ⟨mdb, heq⟩ := storage_peekTarget md5 cfg s t
    refine .inr (.inl ?_)
    rw [Action.run, heq]
  | put t offset w => exact .inl ⟨_, rfl, storage_putWrite md5 cfg s t offset w⟩
  | del t offset ver isDup sized => exact .inl ⟨_, rfl, storage_delTarget md5 cfg s t offset ver isDup sized⟩
  | store c => exact .inl ⟨c, rfl, rfl⟩
  | eraseTtl listing => exact .inr (.inr ⟨_, rfl⟩)
  | seek listing => exact .inr (.inl rfl)
  | tick now => exact .inr (.inl rfl)
  | evict key => exact .inr (.inl rfl)
  | binlog file => exact .inr (.inl rfl)

def Stores (complete : Prop) (md5 : Bytes → InnerKey) (used : Set Address) (s : Hustdb) : Prop :=
  ∃ dir m, s.storage.Holds complete md5 used dir m

variable {md5 cfg s} {complete : Prop} {used : Set Address} {a : Action}

theorem Stores.run (h : s.Stores complete md5 used) (hinj : Set.InjOn (Address.digest md5) used)
    (hwithin : a.Within md5 cfg used s) (hunrefused : complete → a.Unrefused md5 cfg s) :
    (a.run md5 cfg s).Stores complete md5 used := by
  obtain ⟨dir, m, hholds⟩ := h
  unfold Stores
  rcases storage_run md5 cfg s a with ⟨c, hc, heq⟩ | heq | ⟨ttlFile, heq⟩ <;> rw [heq]
  · obtain ⟨hmem, hsound⟩ := hwithin c hc
    obtain ⟨dir', m', hholds', -⟩ := hholds.step hinj hmem hsound fun hcomplete => hunrefused hcomplete c hc
    exact ⟨dir', m', hholds'⟩
  · exact ⟨dir, m, hholds⟩
  · exact ⟨dir, m, hholds.withTtlFile ttlFile⟩

theorem stores_create {config : Config} (hconfig : config.Valid) (maximum started : Nat) :
    (create config maximum started).Stores complete md5 used :=
  ⟨_, _, Db.holds_create hconfig md5 used⟩

end Hustdb

def Op.Regular (used : Set Address) (s : Hustdb) (op : Op) : Prop :=
  Run.Guarded (Action.run md5 cfg) (fun s a => a.Within md5 cfg used s ∧ a.Unrefused md5 cfg s) s
    (op.actions md5 cfg s)

instance (used : Set Address) [DecidablePred (· ∈ used)] (s : Hustdb) (op : Op) :
    Decidable (op.Regular md5 cfg used s) := Run.decidableGuarded _ _

def served (used : Set Address) : Set Address := {a ∈ used | ServerTable a.table}

variable {md5 cfg}

theorem Hustdb.stores_of_regular {used : Set Address} {config : Config} {maximum started : Nat} {ops : List Op}
    (hconfig : config.Valid) (hinj : Set.InjOn (Address.digest md5) used)
    (hguard : Run.Guarded (Op.step md5 cfg) (Op.Regular md5 cfg used) (create config maximum started) ops) :
    (Run.exec (Op.step md5 cfg) (create config maximum started) ops).Stores True md5 (served used) := by
  refine hguard.invariant (P := fun s => s.Stores True md5 (served used)) ?_ (stores_create hconfig _ _)
  intro s op hs hregular
  rw [Op.step_eq]
  refine ((op.serverTable md5 cfg s).and hregular).invariant (P := fun s => s.Stores True md5 (served used)) ?_ hs
  intro s a hs ha
  obtain ⟨hserves, hwithin, hunrefused⟩ := ha
  refine hs.run (hinj.mono fun a ha => ha.1) (fun c hc => ?_) fun _ => hunrefused
  obtain ⟨hmem, hsound⟩ := hwithin c hc
  exact ⟨⟨hmem, hserves c hc⟩, hsound⟩

end HustStore
