import HustStore.Md5db.Map

/-!
# The contents of a store

The values and versions that a store reports for its addresses, as a map. Sound calls build stores
that hold such a map, and a call changes what is found for its own address only.
-/

namespace HustStore.Md5db

def Yields (version : Nat) : Except Errno (BlockId × Nat) → Prop
  | .ok (_, current) => Db.Accepts version true current
  | .error _ => True

instance (version : Nat) : (found : Except Errno (BlockId × Nat)) → Decidable (Yields version found)
  | .ok (_, current) => inferInstanceAs (Decidable (Db.Accepts version true current))
  | .error _ => .isTrue trivial

def Call.Unrefused (md5 : Bytes → InnerKey) (db : Db) : Call → Prop
  | .del q userKey version isDup =>
    isDup = true → Yields version (db.locate (Db.innerKeyOf md5 q userKey))
  | .put _ _ _ _ _ | .get _ _ | .exists_ _ _ => True

instance (md5 : Bytes → InnerKey) (db : Db) : (c : Call) → Decidable (c.Unrefused md5 db)
  | .del _ _ _ isDup => inferInstanceAs (Decidable (isDup = true → _))
  | .put _ _ _ _ _ | .get _ _ | .exists_ _ _ => .isTrue trivial

def Rec.reading (r : Rec) : Bytes × Nat := (r.val, r.version)

def Call.address (c : Call) : Address := ⟨c.query.table, c.userKey⟩

namespace Db

variable {complete : Prop} {md5 : Bytes → InnerKey} {used : Set Address} {db db' : Db}
  {dir dir' : Directory} {m : RecMap} {a : Address} {q : Query} {userKey val : Bytes}
  {version : Nat} {isDup : Bool} {k : InnerKey} {r : Rec}

theorem Holds.locate_some (h : db.Holds complete md5 used dir m) (ha : a ∈ used) (hm : m a = some r) :
    ∃ e, dir (a.digest md5) = some e ∧
      db.locate (a.digest md5) = .ok ((e.addr (a.digest md5)).blockId, r.version) := by
  obtain ⟨id, hk⟩ := h.dir_some ha hm
  have hlocate := h.versions.run.inv.locate (a.digest md5)
  rw [hk] at hlocate
  exact ⟨_, hk, hlocate⟩

theorem Holds.locate_none (h : db.Holds complete md5 used dir m) (ha : a ∈ used) (hm : m a = none) :
    db.locate (a.digest md5) = .error .ENOENT := by
  have hlocate := h.versions.run.inv.locate (a.digest md5)
  rwa [h.dir_none ha hm] at hlocate

/-- The pages that the record of a key takes up in its content file. -/
def pagesHeld (db : Db) (k : InnerKey) : Nat :=
  match db.locate k with
  | .ok (blockId, _) => ((db.fullkeys k.bucket).getContentId blockId).elim 0 (pageCount ·.dataLen)
  | .error _ => 0

/-- Behind its value and its key a record has the twelve bytes of its `KvDataItem`. -/
theorem Holds.pagesHeld_eq (h : db.Holds complete md5 used dir m) (ha : a ∈ used) (hm : m a = some r) :
    db.pagesHeld (a.digest md5) = pageCount (r.val.length + a.key.length + KvDataItem.size) := by
  obtain ⟨e, hk, hlocate⟩ := h.locate_some ha hm
  have hlive := mem_live hk
  have hcontent : (db.fullkeys (a.digest md5).bucket).getContentId (e.addr (a.digest md5)).blockId = _ :=
    h.versions.run.inv.records.getContentId hlive
  obtain ⟨bytes, hraw, hlength⟩ := h.versions.run.inv.records.raw_isSome hlive
  have hview := h.view_eq a ha
  rw [view_some hk hraw, hm] at hview
  have hbytes : bytes = r.bytes a := (Prod.mk.inj (Option.some.inj hview)).1
  simp only [pagesHeld, hlocate, hcontent, Option.elim_some]
  rw [← hlength, hbytes, Rec.bytes, length_recordBytes]

def reads (db : Db) (md5 : Bytes → InnerKey) (a : Address) : Rc × Nat × Bytes :=
  let reply := db.get md5 ⟨a.table, 0, 0, 0⟩ a.key
  (reply.r, reply.version, reply.rsp)

def content (m : RecMap) : Address → Option (Bytes × Nat) := Option.map Rec.reading ∘ m

theorem content_update (m : RecMap) (a : Address) (o : Option Rec) :
    content (Function.update m a o) = Function.update (content m) a (o.map Rec.reading) :=
  Function.comp_update ..

theorem Holds.reads_eq_iff {complete' : Prop} {m' : RecMap}
    (h : db.Holds complete md5 used dir m) (h' : db'.Holds complete' md5 used dir' m') :
    (∀ a ∈ used, db'.reads md5 a = db.reads md5 a) ↔ Set.EqOn (content m') (content m) used := by
  refine forall₂_congr fun a ha => ?_
  by_cases huser : checkUserKey a.key
  · rw [reads, reads, h.get_eq ha rfl huser, h'.get_eq ha rfl huser]
    simp only [content, Function.comp_apply]
    cases m a <;> cases m' a <;> simp [Rec.reading, and_comm]
  · have hnone {db : Db} {complete : Prop} {dir : Directory} {m : RecMap}
        (h : db.Holds complete md5 used dir m) : m a = none := by
      cases hm : m a with
      | none => rfl
      | some r => exact absurd (h.fits a ha r hm).user huser
    simp only [content, Function.comp_apply, hnone h, hnone h']
    simp [reads, get, huser]

theorem Holds.forget (h : db.Holds complete md5 used dir m) : db.Holds False md5 used dir m :=
  { h with listed_all := False.elim }

theorem Holds.spared (h : db.Holds complete md5 used dir m) (ha : a ∈ used) (hq : q.table = a.table)
    (hcall : (Call.del q a.key version isDup).Unrefused md5 db) : Spared m a version isDup := by
  intro hdup r hm
  obtain ⟨e, -, hlocate⟩ := h.locate_some ha hm
  have hyields := hcall hdup
  rw [digest_eq hq, hlocate] at hyields
  rw [hdup]
  exact hyields

theorem PutResult.eq_of_ne {reply : Reply} {m' : RecMap} (h : PutResult m a q val version isDup reply m')
    {b : Address} (hb : b ≠ a) : m' b = m b := by
  cases h with
  | invalid _ => rfl
  | failed _ _ => rfl
  | refused _ _ _ => rfl
  | inserted _ _ => exact Function.update_of_ne hb _ _
  | updated _ _ _ => exact Function.update_of_ne hb _ _

theorem DelResult.eq_of_ne {reply : Reply} {m' : RecMap} (h : DelResult m a version isDup reply m')
    {b : Address} (hb : b ≠ a) : m' b = m b := by
  cases h with
  | invalid _ => rfl
  | absent _ _ => rfl
  | refused _ _ _ => rfl
  | removed _ _ _ => exact Function.update_of_ne hb _ _

theorem Holds.step (h : db.Holds complete md5 used dir m) (hinj : Set.InjOn (Address.digest md5) used)
    {c : Call} (hmem : c.address ∈ used) (hsound : c.Sound md5 db)
    (hspared : complete → c.Unrefused md5 db) :
    ∃ dir' m', (c.step md5 db).Holds complete md5 used dir' m' ∧ ∀ b, b ≠ c.address → m' b = m b := by
  cases c with
  | put q userKey val version isDup =>
    obtain ⟨dir', m', h', hresult⟩ := h.put hinj hmem rfl hsound
    exact ⟨dir', m', h', fun _ => hresult.eq_of_ne⟩
  | del q userKey version isDup =>
    obtain ⟨dir', m', h', hresult⟩ := h.del hinj hmem rfl hsound.1
      fun hcomplete => h.spared hmem rfl (hspared hcomplete)
    exact ⟨dir', m', h', fun _ => hresult.eq_of_ne⟩
  | get q userKey => exact ⟨dir, m, h, fun _ _ => rfl⟩
  | exists_ q userKey => exact ⟨dir, m, h, fun _ _ => rfl⟩

def Built (md5 : Bytes → InnerKey) (used : Set Address) (db : Db) : Prop :=
  ∃ cfg calls, Config.Valid cfg ∧ (∀ c ∈ calls, c.address ∈ used) ∧
    Run.Guarded (Call.step md5) (fun db c => c.Sound md5 db ∧ c.Unrefused md5 db) (Db.create cfg)
      calls ∧ db = Run.exec (Call.step md5) (Db.create cfg) calls

theorem Built.holds (h : Built md5 used db) (hinj : Set.InjOn (Address.digest md5) used) :
    ∃ dir m, db.Holds True md5 used dir m := by
  obtain ⟨cfg, calls, hcfg, hused, hguard, rfl⟩ := h
  refine (hguard.and_forall hused).invariant (P := fun db => ∃ dir m, db.Holds True md5 used dir m)
    ?_ ⟨_, _, holds_create hcfg md5 used⟩
  rintro db c ⟨dir, m, hholds⟩ ⟨hmem, hsound, hspared⟩
  obtain ⟨dir', m', hholds', -⟩ := hholds.step hinj hmem hsound fun _ => hspared
  exact ⟨dir', m', hholds'⟩

/-! ### What a call leaves alone -/

theorem locate_congr (h : db.Inv dir) (h' : db'.Inv dir') (hk : dir' k = dir k) :
    db'.locate k = db.locate k := by rw [h.locate, h'.locate, hk]

theorem VersionInv.locate_put (h : db.VersionInv dir) (hsound : (Call.put q userKey val version isDup).Sound md5 db)
    (hk : k ≠ innerKeyOf md5 q userKey ∨ (db.put md5 q userKey val version isDup).1.r ≠ .ok) :
    (db.put md5 q userKey val version isDup).2.locate k = db.locate k := by
  obtain ⟨dir', h', hother, -⟩ := h.put val hsound.1 hsound.2
  exact locate_congr h.run.inv h'.run.inv (hother k hk)

theorem VersionInv.locate_del (h : db.VersionInv dir) (hsound : (Call.del q userKey version isDup).Sound md5 db)
    (hk : k ≠ innerKeyOf md5 q userKey ∨ (db.del md5 q userKey version isDup).1.r ≠ .ok) :
    (db.del md5 q userKey version isDup).2.locate k = db.locate k := by
  obtain ⟨dir', h', hother⟩ := h.del hsound.1.1 hsound.1.2
  exact locate_congr h.run.inv h'.run.inv (hother k hk)

theorem RunInv.fileCount_step (h : db.RunInv dir) {c : Call} (hplaced : c.Placed md5 db) :
    (c.step md5 db).data.fileCount = db.data.fileCount := by
  obtain ⟨-, -, hcount, -⟩ := h.step hplaced
  exact hcount

end Db

end HustStore.Md5db
