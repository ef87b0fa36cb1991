import HustStore.Md5db.Contents

/-!
# The storage of the queues

The queues reach the store only through the interface of `m_storage`: they write with version 0 and without
replication, and they use no table. The queue code is modelled over any implementation of this interface.
-/

namespace HustStore

open Md5db

structure Body where
  val : Bytes
  ttl : Nat
  deriving DecidableEq, Repr

structure Kv (σ : Type) where
  put : σ → (now ttl : Nat) → (key val : Bytes) → Rc × σ
  get : σ → (key : Bytes) → Rc × Body
  del : σ → (key : Bytes) → Rc × σ

namespace Kv

variable {σ : Type} (kv : Kv σ)

def body (s : σ) (key : Bytes) : Option Body :=
  match kv.get s key with
  | (.ok, body) => some body
  | (.err _, _) => none

structure Lawful : Prop where
  put_ok : ∀ s now ttl key val, (kv.put s now ttl key val).1 = .ok → ∀ k, kv.body (kv.put s now ttl key val).2 k =
      if k = key then some ⟨val, ttl % 2 ^ 32⟩ else kv.body s k
  put_err : ∀ s now ttl key val, (kv.put s now ttl key val).1 ≠ .ok → ∀ k,
    kv.body (kv.put s now ttl key val).2 k = kv.body s k
  del : ∀ s key k, kv.body (kv.del s key).2 k = if k = key then none else kv.body s k

variable {kv}

theorem get_of_body {s : σ} {key : Bytes} {b : Body} (h : kv.body s key = some b) : kv.get s key = (.ok, b) := by
  unfold body at h
  split at h
  · rename_i b' hget
    rw [hget, Option.some.inj h]
  · cases h

def memory : Kv (Bytes → Option Body) where
  put s _ ttl key val := (.ok, assign s key (some ⟨val, ttl % 2 ^ 32⟩))
  get s key := match s key with
    | some body => (.ok, body)
    | none => (.err .ENOENT, ⟨[], 0⟩)
  del s key := (if (s key).isSome then .ok else .err .ENOENT, assign s key none)

theorem body_memory (s : Bytes → Option Body) (key : Bytes) : memory.body s key = s key := by
  simp only [body, memory]
  cases hs : s key <;> rfl

theorem memory_lawful : memory.Lawful where
  put_ok s now ttl key val _ k := by
    rw [body_memory, body_memory]
    rfl
  put_err s now ttl key val h := absurd rfl h
  del s key k := by
    rw [body_memory, body_memory]
    rfl

end Kv

/-! ### The md5db store -/

def md5dbKv (md5 : Bytes → InnerKey) : Kv Db where
  put db now ttl key val :=
    let (reply, db) := db.put md5 ⟨[], ttl, 0, now % 2 ^ 32⟩ key val 0 false
    (reply.r, db)
  get db key :=
    let reply := db.get md5 (.plain 0) key
    (reply.r, ⟨reply.rsp, reply.kvData.ttl⟩)
  del db key :=
    let (reply, db) := db.del md5 (.plain 0) key 0 false
    (reply.r, db)

section Md5db

variable {complete : Prop} {md5 : Bytes → InnerKey} {used : Set Address} {db : Db} {dir : Directory} {m m' : RecMap}
  {now ttl : Nat} {key val : Bytes} {reply : Reply}

def Md5db.Rec.body (r : Rec) : Body := ⟨r.val, r.kv.ttl⟩

theorem body_md5dbKv (h : db.Holds complete md5 used dir m) (hkey : ⟨[], key⟩ ∈ used)
    (huser : Db.checkUserKey key) : (md5dbKv md5).body db key = (m ⟨[], key⟩).map Rec.body := by
  have hget : db.get md5 (.plain 0) key = _ := h.get_eq (a := ⟨[], key⟩) hkey rfl huser
  unfold Kv.body md5dbKv
  simp only [hget]
  cases m ⟨[], key⟩ <;> rfl

theorem map_body_update (m : RecMap) (key k : Bytes) (o : Option Rec) :
    (Function.update m ⟨[], key⟩ o ⟨[], k⟩).map Rec.body =
      if k = key then o.map Rec.body else (m ⟨[], k⟩).map Rec.body := by
  by_cases hk : k = key
  · rw [hk, Function.update_self, if_pos rfl]
  · rw [Function.update_of_ne fun heq => hk (Address.mk.inj heq).2, if_neg hk]

theorem Md5db.Db.PutResult.map_body
    (h : Db.PutResult m ⟨[], key⟩ ⟨[], ttl, 0, now % 2 ^ 32⟩ val 0 false reply m') (k : Bytes) :
    (m' ⟨[], k⟩).map Rec.body =
      if reply.r = .ok ∧ k = key then some ⟨val, ttl % 2 ^ 32⟩ else (m ⟨[], k⟩).map Rec.body := by
  cases h with
  | invalid => simp
  | failed => simp
  | refused _ hrefuse => exact absurd (.inl rfl) hrefuse
  | inserted => exact (map_body_update m key k _).trans (if_congr (by simp) rfl rfl)
  | updated => exact (map_body_update m key k _).trans (if_congr (by simp) rfl rfl)

theorem Md5db.Db.DelResult.map_body (h : Db.DelResult m ⟨[], key⟩ 0 false reply m')
    (huser : Db.checkUserKey key) (k : Bytes) :
    (m' ⟨[], k⟩).map Rec.body = if k = key then none else (m ⟨[], k⟩).map Rec.body := by
  cases h with
  | invalid hargs => exact absurd ⟨huser, Nat.zero_le _⟩ hargs
  | absent habsent =>
    split_ifs with hk
    · rw [hk, habsent, Option.map_none]
    · rfl
  | refused _ hrefuse => exact absurd (.inl rfl) hrefuse
  | removed => exact map_body_update m key k none

section

variable (h : db.Holds complete md5 used dir m) (hinj : Set.InjOn (Address.digest md5) used)
  (huser : ∀ a ∈ used, Db.checkUserKey a.key)
include h hinj huser

theorem md5dbKv_put {now ttl : Nat} {key val : Bytes} (hkey : ⟨[], key⟩ ∈ used)
    (hsound : (Call.put ⟨[], ttl, 0, now % 2 ^ 32⟩ key val 0 false).Sound md5 db) :
    ∃ dir' m', ((md5dbKv md5).put db now ttl key val).2.Holds complete md5 used dir' m' ∧
      ∀ k, ⟨[], k⟩ ∈ used → (md5dbKv md5).body ((md5dbKv md5).put db now ttl key val).2 k =
        if ((md5dbKv md5).put db now ttl key val).1 = .ok ∧ k = key then some ⟨val, ttl % 2 ^ 32⟩
        else (md5dbKv md5).body db k := by
  obtain ⟨dir', m', hholds, hresult⟩ := h.put hinj (a := ⟨[], key⟩) hkey rfl hsound
  refine ⟨dir', m', hholds, fun k hk => ?_⟩
  rw [body_md5dbKv h hk (huser _ hk)]
  exact (body_md5dbKv hholds hk (huser _ hk)).trans (hresult.map_body k)

theorem md5dbKv_del {key : Bytes} (hkey : ⟨[], key⟩ ∈ used)
    (hplaced : (Call.del (.plain 0) key 0 false).Placed md5 db) :
    ∃ dir' m', ((md5dbKv md5).del db key).2.Holds complete md5 used dir' m' ∧
      ∀ k, ⟨[], k⟩ ∈ used → (md5dbKv md5).body ((md5dbKv md5).del db key).2 k =
        if k = key then none else (md5dbKv md5).body db k := by
  obtain ⟨dir', m', hholds, hresult⟩ := h.del hinj (a := ⟨[], key⟩) hkey rfl hplaced fun _ hdup => by cases hdup
  refine ⟨dir', m', hholds, fun k hk => ?_⟩
  rw [body_md5dbKv h hk (huser _ hk)]
  exact (body_md5dbKv hholds hk (huser _ hk)).trans (hresult.map_body (huser _ hkey) k)

end

/-- A new store, for the messages under one key. -/
theorem holds_new : (Db.create ⟨4, 2, 1, 1⟩).Holds True Md5.md5 {⟨[], ascii "k"⟩} (fun _ => none) fun _ => none :=
  Db.holds_create Config.valid_small Md5.md5 _

theorem md5dbKv_put_new :
    let out := (md5dbKv Md5.md5).put (Db.create ⟨4, 2, 1, 1⟩) 7 30 (ascii "k") [1]
    out.1 = .ok ∧ (md5dbKv Md5.md5).body out.2 (ascii "k") = some ⟨[1], 30⟩ := by
  intro out
  have hok : out.1 = .ok := by decide +kernel
  have hsound : (Call.put ⟨[], 30, 0, 7 % 2 ^ 32⟩ (ascii "k") [1] 0 false).Sound Md5.md5 (Db.create ⟨4, 2, 1, 1⟩) := by
    decide +kernel
  obtain ⟨-, -, -, hbody⟩ := md5dbKv_put holds_new (Set.injOn_singleton _ _) (by rintro _ rfl; decide) rfl hsound
  exact ⟨hok, (hbody (ascii "k") rfl).trans (if_pos ⟨hok, rfl⟩)⟩

def twoKeys : List Address := [⟨[], ascii "k"⟩, ⟨[], ascii "j"⟩]

def twoPuts : List Call :=
  [.put ⟨[], 30, 0, 7⟩ (ascii "k") [1] 0 false, .put ⟨[], 0, 0, 7⟩ (ascii "j") [2] 0 false]

theorem md5dbKv_del_twoPuts :
    let db := Run.exec (Call.step Md5.md5) (Db.create ⟨4, 2, 1, 1⟩) twoPuts
    let body := (md5dbKv Md5.md5).body
    let out := ((md5dbKv Md5.md5).del db (ascii "k")).2
    body db (ascii "k") = some ⟨[1], 30⟩ ∧ body out (ascii "k") = none ∧ body out (ascii "j") = some ⟨[2], 0⟩ := by
  intro db body out
  have hinj : Set.InjOn (Address.digest Md5.md5) {a | a ∈ twoKeys} := Address.injOn_digest (by decide +kernel)
  have hbuilt : Db.Built Md5.md5 {a | a ∈ twoKeys} db :=
    ⟨_, twoPuts, Config.valid_small, by decide, by decide +kernel, rfl⟩
  have huser : ∀ a ∈ twoKeys, Db.checkUserKey a.key := by decide
  obtain ⟨dir, m, h⟩ := hbuilt.holds hinj
  obtain ⟨-, -, -, hbody⟩ := md5dbKv_del h hinj huser (by decide : ⟨[], ascii "k"⟩ ∈ twoKeys) (by decide +kernel)
  have hk : body db (ascii "k") = some ⟨[1], 30⟩ := by decide +kernel
  have hj : body db (ascii "j") = some ⟨[2], 0⟩ := by decide +kernel
  refine ⟨hk, (hbody _ (by decide : _ ∈ twoKeys)).trans (if_pos rfl), ?_⟩
  exact ((hbody _ (by decide : _ ∈ twoKeys)).trans (if_neg (by decide))).trans hj

/-! ### The queues over the store -/

/-- The store beside the bodies that the laws of a storage ask for. While every call is sound and uses the
given addresses, the store has these bodies. -/
structure Shadowed (md5 : Bytes → InnerKey) (used : List Address) where
  db : Db
  bodies : Bytes → Option Body
  sound : Bool
  holds : sound → ∃ dir m, db.Holds False md5 {a | a ∈ used} dir m ∧
    ∀ k, ⟨[], k⟩ ∈ used → (m ⟨[], k⟩).map Rec.body = bodies k

namespace Shadowed

variable {used : List Address} (hinj : Set.InjOn (Address.digest md5) {a | a ∈ used})
  (huser : ∀ a ∈ used, Db.checkUserKey a.key)

def create (md5 : Bytes → InnerKey) (used : List Address) (cfg : Config) (hcfg : cfg.Valid) : Shadowed md5 used :=
  ⟨Db.create cfg, fun _ => none, true, fun _ => ⟨_, _, Db.holds_create hcfg md5 _, fun _ _ => rfl⟩⟩

def sounds (s : Shadowed md5 used) (c : Call) : Bool :=
  s.sound && used.contains c.address && decide (c.Sound md5 s.db)

theorem sounds_iff {s : Shadowed md5 used} {c : Call} :
    s.sounds c ↔ s.sound ∧ c.address ∈ used ∧ c.Sound md5 s.db := by
  simp [sounds, and_assoc]

def put (s : Shadowed md5 used) (now ttl : Nat) (key val : Bytes) : Rc × Shadowed md5 used :=
  let out := (md5dbKv md5).put s.db now ttl key val
  (out.1, {
    db := out.2
    bodies k := if out.1 = .ok ∧ k = key then some ⟨val, ttl % 2 ^ 32⟩ else s.bodies k
    sound := s.sounds (.put ⟨[], ttl, 0, now % 2 ^ 32⟩ key val 0 false)
    holds h := by
      obtain ⟨hs, hmem, hsound⟩ := sounds_iff.mp h
      obtain ⟨dir, m, hholds, hbodies⟩ := s.holds hs
      obtain ⟨dir', m', hholds', hresult⟩ := hholds.put hinj hmem rfl hsound
      refine ⟨dir', m', hholds', fun k hk => ?_⟩
      rw [← hbodies k hk]
      exact hresult.map_body k })

def del (s : Shadowed md5 used) (key : Bytes) : Rc × Shadowed md5 used :=
  let out := (md5dbKv md5).del s.db key
  (out.1, {
    db := out.2
    bodies := assign s.bodies key none
    sound := s.sounds (.del (.plain 0) key 0 false)
    holds h := by
      obtain ⟨hs, hmem, hsound⟩ := sounds_iff.mp h
      obtain ⟨dir, m, hholds, hbodies⟩ := s.holds hs
      obtain ⟨dir', m', hholds', hresult⟩ := hholds.del hinj hmem rfl hsound.1 False.elim
      refine ⟨dir', m', hholds', fun k hk => ?_⟩
      rw [assign, ← hbodies k hk]
      exact hresult.map_body (huser _ hmem) k })

def get (s : Shadowed md5 used) (key : Bytes) : Rc × Body :=
  if s.sound && used.contains ⟨[], key⟩ then (md5dbKv md5).get s.db key else Kv.memory.get s.bodies key

def kv : Kv (Shadowed md5 used) := ⟨put hinj, get, del hinj huser⟩

theorem body_kv (s : Shadowed md5 used) (k : Bytes) : (kv hinj huser).body s k = s.bodies k := by
  have hget : (kv hinj huser).get s k = s.get k := rfl
  rw [Kv.body, hget, get]
  split_ifs with h
  · simp only [Bool.and_eq_true, List.contains_iff_mem] at h
    obtain ⟨dir, m, hholds, hbodies⟩ := s.holds h.1
    exact (body_md5dbKv hholds h.2 (huser _ h.2)).trans (hbodies k h.2)
  · exact Kv.body_memory s.bodies k

/-- What is proved of the queues over a lawful storage holds of them over the store. -/
theorem kv_lawful : (kv hinj huser).Lawful where
  put_ok s now ttl key val hok k := by
    rw [body_kv, body_kv]
    exact if_congr (and_iff_right hok) rfl rfl
  put_err s now ttl key val herr k := by
    rw [body_kv, body_kv]
    exact if_neg fun hboth => herr hboth.1
  del s key k := by
    rw [body_kv, body_kv]
    rfl

end Shadowed

end Md5db

end HustStore
