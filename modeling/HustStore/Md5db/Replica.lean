import HustStore.Md5
import HustStore.Md5db.Run

/-!
# The order of replicated versions

A replica takes an update of a key if `binlog_version_valid` puts its version at or behind the one it has, which is
the one that the packed field gives back.
-/

namespace HustStore.Md5db

/-! ### The test and the successor -/

variable {v n : Nat}

theorem iterate_addVersion (h : v + n ≤ bucketDataMaxVersion) : addVersion^[n] v = v + n := by
  induction n with
  | zero => rfl
  | succ n ih =>
    rw [Function.iterate_succ_apply', ih (by omega), addVersion, if_pos (by omega)]
    rfl

theorem iterate_addVersion_wrap (hv : v ≤ bucketDataMaxVersion)
    (hn : n ≤ bucketDataMaxVersion) (hwrap : bucketDataMaxVersion < v + n) :
    addVersion^[n] v = v + n - bucketDataMaxVersion := by
  obtain ⟨k, rfl⟩ : ∃ k, n = k + 1 + (bucketDataMaxVersion - v) :=
    ⟨n - (bucketDataMaxVersion - v) - 1, by omega⟩
  have htop : v + (bucketDataMaxVersion - v) = bucketDataMaxVersion := by omega
  rw [Function.iterate_add_apply, iterate_addVersion htop.le, htop, Function.iterate_succ_apply]
  have hone : addVersion bucketDataMaxVersion = 1 := if_neg (lt_irrefl _)
  rw [hone, iterate_addVersion (by omega)]
  omega

def versionWindow : Nat := 100000

theorem binlogVersionValid_add {v n i j : Nat} (h : v + n ≤ bucketDataMaxVersion)
    (hn : n ≤ versionWindow) (hj : j ≤ n) :
    binlogVersionValid (v + i) (v + j) = true ↔ j ≤ i := by
  have hmax : bucketDataMaxVersion = 4194303 := rfl
  have hwindow : versionWindow = 100000 := rfl
  simp only [binlogVersionValid, ge_iff_le, Nat.add_le_add_iff_left]
  split_ifs with hle
  · simp [hle]
  · simp only [Bool.and_eq_true, decide_eq_true_eq, hle, iff_false]
    omega

theorem binlogVersionValid_iterate (hv : v ≤ bucketDataMaxVersion)
    (hn : n ≤ versionWindow) : binlogVersionValid (addVersion^[n] v) v = true := by
  have hmax : bucketDataMaxVersion = 4194303 := rfl
  have hwindow : versionWindow = 100000 := rfl
  by_cases hle : v + n ≤ bucketDataMaxVersion
  · rw [iterate_addVersion hle]
    exact (binlogVersionValid_add hle hn (Nat.zero_le n)).2 (Nat.zero_le n)
  · rw [iterate_addVersion_wrap hv (by omega) (by omega)]
    simp only [binlogVersionValid, ge_iff_le]
    split_ifs
    · rfl
    · simp only [Bool.and_eq_true, decide_eq_true_eq]
      omega

theorem binlogVersionValid_wrap (hv : v ≤ bucketDataMaxVersion)
    (hn : n ≤ versionWindow) (hwrap : bucketDataMaxVersion < v + n) :
    binlogVersionValid v (addVersion^[n] v) = true := by
  have hmax : bucketDataMaxVersion = 4194303 := rfl
  have hwindow : versionWindow = 100000 := rfl
  have hge : v ≥ v + n - bucketDataMaxVersion := by omega
  rw [iterate_addVersion_wrap hv (by omega) hwrap, binlogVersionValid, if_pos hge]

/-! ### One replicated put -/

def replicate (q : Query) (key : Bytes) (v : Nat) (val : Nat → Bytes) (update : Nat) : Call :=
  .put q key (val update) (addVersion^[update] v) true

/-- The store has room for the call, and a put is answered with success. -/
def Call.Taken (md5 : Bytes → InnerKey) (db : Db) (c : Call) : Prop :=
  c.Placed md5 db ∧
    match c with
    | .put q userKey val version isDup => (db.put md5 q userKey val version isDup).1.r = .ok
    | .del _ _ _ _ | .get _ _ | .exists_ _ _ => True

instance decidableTaken (md5 : Bytes → InnerKey) (db : Db) : (c : Call) → Decidable (c.Taken md5 db)
  | .put q userKey val version isDup =>
    inferInstanceAs (Decidable (_ ∧ (db.put md5 q userKey val version isDup).1.r = .ok))
  | .del q userKey version isDup =>
      inferInstanceAs (Decidable ((Call.del q userKey version isDup).Placed md5 db ∧ True))
  | .get _ _ | .exists_ _ _ => .isTrue ⟨trivial, trivial⟩

namespace Db

/-- A store that some run has left, each of whose calls found room. Its versions may have been mangled. -/
def Reached (md5 : Bytes → InnerKey) (db : Db) : Prop :=
  ∃ cfg calls, Config.Valid cfg ∧ Run.Guarded (Call.step md5) (fun db c => c.Placed md5 db) (Db.create cfg) calls ∧
    db = Run.exec (Call.step md5) (Db.create cfg) calls

variable {md5 : Bytes → InnerKey} {db : Db} {dir : Directory} {q : Query} {key : Bytes} {v n i : Nat}
  {val : Nat → Bytes}

theorem Reached.runInv (h : Reached md5 db) : ∃ dir, db.RunInv dir := by
  obtain ⟨cfg, calls, hcfg, hguard, rfl⟩ := h
  refine hguard.invariant (P := fun db => ∃ dir, db.RunInv dir) ?_ ⟨_, runInv_create hcfg⟩
  rintro db c ⟨dir, hrun⟩ hplaced
  obtain ⟨dir', hrun', -⟩ := hrun.step hplaced
  exact ⟨dir', hrun'⟩

/-- The bytes and the version that the store has for the key after the update `i`. The packed field gives the version
back; where the version is the one that is there already, it may stay as it is. -/
def Received (q : Query) (key val : Bytes) (version : Nat) (old new : Option (Bytes × Nat)) : Prop :=
  match old with
  | none => new = some (recordBytes val key (kvDataOf q key), packVersion version)
  | some (bytes, current) =>
    if binlogVersionValid version current then ∃ stored, new = some (recordBytes val key (kvDataOf q key), stored) ∧
      (stored = packVersion version ∨ stored = version ∧ current = version)
    else new = some (bytes, current)

theorem RunInv.replicate (h : db.RunInv dir) (htaken : (Md5db.replicate q key v val i).Taken md5 db) :
    ∃ dir', ((Md5db.replicate q key v val i).step md5 db).RunInv dir' ∧
      Received q key (val i) (addVersion^[i] v) (db.view dir (innerKeyOf md5 q key))
        (((Md5db.replicate q key v val i).step md5 db).view dir' (innerKeyOf md5 q key)) := by
  obtain ⟨hplaced, hok⟩ := htaken
  simp only [Md5db.replicate, Call.step] at hplaced hok ⊢
  by_cases hargs : PutArgs key (val i) (addVersion^[i] v) true
  swap
  · rw [put_of_invalid md5 db q hargs] at hok
    cases hok
  obtain ⟨r, version', ctxt, db', dir', houtcome, hput⟩ := h.inv.put md5 hargs hplaced
  have hrun := h.congr (houtcome.inv h.inv) houtcome.fileCount
  rw [hput] at hok
  simp only [hput]
  refine ⟨dir', hrun, ?_⟩
  have hnot : addVersion^[i] v ≠ 0 := hargs.binlog rfl
  cases houtcome with
  | failed _ hflag _ _ =>
    have hfalse : ctxt.isVersionError = false := hflag
    simp [hfalse] at hok
  | @refused e _ _ hpresent hrefuse _ _ =>
    obtain ⟨bytes, -, -, hview⟩ := h.inv.view_isSome hpresent
    have hinvalid : ¬ binlogVersionValid (addVersion^[i] v) e.version = true :=
      fun hvalid => hrefuse (.inr (by simpa using hvalid))
    rw [hview]
    simp [Received, hinvalid]
  | inserted hins _ _ _ _ =>
    rw [view_none hins.absent, hins.view_self]
    rfl
  | @updated e stored _ _ haccept hupdated hstored _ _ =>
    obtain ⟨bytes, -, -, hview⟩ := h.inv.view_isSome hupdated.present
    have hvalid : binlogVersionValid (addVersion^[i] v) e.version = true := by simpa using haccept.resolve_left hnot
    rw [hview, hupdated.view_self]
    simp only [Received, hvalid, if_true]
    exact ⟨stored, rfl, by simpa [nextVersion] using hstored⟩

/-! ### Windows that the store keeps -/

/-- The window does not wrap, its last version survives the packed field, and no earlier one reads back greater. -/
structure Orders (v n : Nat) : Prop where
  le : v + n ≤ bucketDataMaxVersion
  last : Representable (v + n)
  earlier : ∀ i < n, packVersion (v + i) ≤ v + n

/-- Every order of updates of the window that has the newest one leaves the newest value and its version. -/
def EndsNewest (md5 : Bytes → InnerKey) (db : Db) (q : Query) (key : Bytes) (v n : Nat) (val : Nat → Bytes) : Prop :=
  ∀ order : List Nat, (∀ i ∈ order, i ≤ n) → n ∈ order →
    Run.Guarded (Call.step md5) (fun db c => c.Taken md5 db) db (order.map (Md5db.replicate q key v val)) →
    let reply := (Run.exec (Call.step md5) db (order.map (Md5db.replicate q key v val))).get md5 q key
    reply.r = .ok ∧ reply.version = addVersion^[n] v ∧ reply.rsp = val n

/-- The key is absent, or has a version of the window before the newest. -/
def Behind (md5 : Bytes → InnerKey) (db : Db) (q : Query) (key : Bytes) (v n : Nat) : Prop :=
  db.exists_ md5 q key = (.err .ENOENT, 0) ∨ ∃ j < n, db.exists_ md5 q key = (.ok, addVersion^[j] v)

/-- What the store has for the key is not newer than the window, and is its last update once that has come. -/
structure Within (q : Query) (key : Bytes) (v n : Nat) (val : Nat → Bytes) (arrived : Prop)
    (cell : Option (Bytes × Nat)) : Prop where
  version_le : ∀ c ∈ cell, c.2 ≤ v + n
  newest : arrived → cell = some (recordBytes (val n) key (kvDataOf q key), v + n)

theorem binlogVersionValid_small {u c : Nat} (hc : c < 66544) : binlogVersionValid u c = true ↔ c ≤ u := by
  have hmax : bucketDataMaxVersion = 4194303 := rfl
  simp only [binlogVersionValid, ge_iff_le]
  split_ifs with hle
  · simp [hle]
  · simp only [Bool.and_eq_true, decide_eq_true_eq, hle, iff_false]
    omega

theorem Orders.packVersion_le (h : Orders v n) (hi : i ≤ n) : packVersion (v + i) ≤ v + n := by
  obtain rfl | hlt := Nat.eq_or_lt_of_le hi
  · exact h.last.packVersion.le
  · exact h.earlier i hlt

theorem Within.received (h : Orders v n) (hi : i ≤ n) {arrived : Prop} {old new : Option (Bytes × Nat)}
    (hwithin : Within q key v n val arrived old) (hreceived : Received q key (val i) (v + i) old new) :
    Within q key v n val (arrived ∨ i = n) new := by
  have hsmall : v + n < 65536 := h.last.1
  have hpack := h.packVersion_le hi
  cases old with
  | none =>
    obtain rfl : new = _ := hreceived
    refine ⟨fun c hc => ?_, fun harrived => ?_⟩
    · cases hc
      exact hpack
    · obtain rfl := harrived.resolve_left fun hold => by cases hwithin.newest hold
      rw [h.last.packVersion]
  | some cell =>
    obtain ⟨bytes, current⟩ := cell
    have hcurrent : current ≤ v + n := hwithin.version_le (bytes, current) rfl
    have hvalid := binlogVersionValid_small (u := v + i) (c := current) (by omega)
    by_cases hle : current ≤ v + i
    · simp only [Received, hvalid.mpr hle, if_true] at hreceived
      obtain ⟨stored, rfl, hstored⟩ := hreceived
      have hstored_le : stored ≤ v + n := by omega
      refine ⟨fun c hc => by cases hc; exact hstored_le, fun harrived => ?_⟩
      -- what has arrived has the greatest version, so that this is the newest update again
      obtain rfl : i = n := harrived.elim (fun hold => by
        have hcell := hwithin.newest hold
        simp only [Option.some.injEq, Prod.mk.injEq] at hcell
        omega) id
      rw [h.last.packVersion] at hstored
      obtain rfl : stored = v + i := by omega
      rfl
    · have hnot : binlogVersionValid (v + i) current = false := Bool.eq_false_iff.mpr fun htrue => hle (hvalid.mp htrue)
      simp only [Received, hnot, Bool.false_eq_true, if_false] at hreceived
      subst hreceived
      exact ⟨hwithin.version_le, fun harrived => hwithin.newest (harrived.resolve_right (by omega))⟩

theorem RunInv.within (h : Orders v n) (hrun : db.RunInv dir) {order : List Nat} {arrived : Prop}
    (hwithin : Within q key v n val arrived (db.view dir (innerKeyOf md5 q key))) (horder : ∀ i ∈ order, i ≤ n)
    (hguard : Run.Guarded (Call.step md5) (fun db c => c.Taken md5 db) db (order.map (Md5db.replicate q key v val))) :
    ∃ dir', (Run.exec (Call.step md5) db (order.map (Md5db.replicate q key v val))).RunInv dir' ∧
      Within q key v n val (arrived ∨ n ∈ order)
        ((Run.exec (Call.step md5) db (order.map (Md5db.replicate q key v val))).view dir' (innerKeyOf md5 q key)) := by
  induction order generalizing db dir arrived with
  | nil => exact ⟨dir, hrun, by simpa using hwithin⟩
  | cons i order ih =>
    have hi : i ≤ n := horder i List.mem_cons_self
    obtain ⟨htaken, hlater⟩ := hguard
    obtain ⟨dir', hrun', hreceived⟩ := hrun.replicate htaken
    have hle := h.le
    rw [iterate_addVersion (show v + i ≤ bucketDataMaxVersion by omega)] at hreceived
    obtain ⟨dir'', hrun'', hlast⟩ := ih hrun' (hwithin.received h hi hreceived)
      (fun j hj => horder j (List.mem_cons_of_mem _ hj)) hlater
    refine ⟨dir'', hrun'', hlast.version_le, fun harrived => hlast.newest ?_⟩
    rcases harrived with hold | hmem
    · exact .inl (.inl hold)
    · exact (List.mem_cons.mp hmem).elim (fun heq => .inl (.inr heq.symm)) .inr

theorem Orders.endsNewest (h : Orders v n) (hdb : Reached md5 db) (huser : checkUserKey key)
    (hbehind : Behind md5 db q key v n) : EndsNewest md5 db q key v n val := by
  intro order horder hmem hguard
  obtain ⟨dir, hrun⟩ := hdb.runInv
  have hle := h.le
  have hstart : Within q key v n val False (db.view dir (innerKeyOf md5 q key)) := by
    refine ⟨fun c hc => ?_, False.elim⟩
    rw [Behind, hrun.inv.exists_eq md5 q huser, Option.mem_def.mp hc] at hbehind
    obtain ⟨bytes, version⟩ := c
    simp only [existsOf, Prod.mk.injEq, reduceCtorEq, false_and, false_or, true_and] at hbehind
    obtain ⟨j, hj, rfl⟩ := hbehind
    rw [iterate_addVersion (by omega)]
    omega
  obtain ⟨dir', hrun', hlast⟩ := hrun.within h hstart horder hguard
  rw [hrun'.inv.get_eq md5 q huser, hlast.newest (.inr hmem), iterate_addVersion hle]
  simp [getOf, parseRecord_recordBytes huser (val n) (kvDataOf q key) rfl]

/-! ### Windows that the store does not keep -/

/-- Two updates on a store without the key. -/
theorem RunInv.two (hrun : db.RunInv dir) (huser : checkUserKey key)
    (habsent : db.exists_ md5 q key = (.err .ENOENT, 0))
    {i j : Nat} (hguard : Run.Guarded (Call.step md5) (fun db c => c.Taken md5 db) db
      ([i, j].map (Md5db.replicate q key v val))) :
    let reply := (Run.exec (Call.step md5) db ([i, j].map (Md5db.replicate q key v val))).get md5 q key
    if binlogVersionValid (addVersion^[j] v) (packVersion (addVersion^[i] v)) then reply.rsp = val j ∧
      (reply.version = packVersion (addVersion^[j] v) ∨
        reply.version = addVersion^[j] v ∧ packVersion (addVersion^[i] v) = addVersion^[j] v)
    else reply.rsp = val i ∧ reply.version = packVersion (addVersion^[i] v) := by
  obtain ⟨hfirst, hsecond, -⟩ := hguard
  obtain ⟨dir₁, hrun₁, hreceived₁⟩ := hrun.replicate hfirst
  obtain ⟨dir₂, hrun₂, hreceived₂⟩ := hrun₁.replicate hsecond
  have hnone : db.view dir (innerKeyOf md5 q key) = none := by
    rw [hrun.inv.exists_eq md5 q huser] at habsent
    cases hview : db.view dir (innerKeyOf md5 q key) with
    | none => rfl
    | some cell => simp [hview, existsOf] at habsent
  rw [hnone] at hreceived₁
  simp only [Received] at hreceived₁
  rw [hreceived₁] at hreceived₂
  simp only [List.map_cons, List.map_nil, Run.exec_cons, Run.exec_nil, hrun₂.inv.get_eq md5 q huser]
  by_cases hvalid : binlogVersionValid (addVersion^[j] v) (packVersion (addVersion^[i] v)) = true
  · simp only [Received, hvalid, if_true] at hreceived₂ ⊢
    obtain ⟨stored, hview, hstored⟩ := hreceived₂
    rw [hview]
    simpa [getOf, parseRecord_recordBytes huser (val j) (kvDataOf q key) rfl] using hstored
  · simp only [Received, hvalid] at hreceived₂ ⊢
    rw [hreceived₂]
    simp [getOf, parseRecord_recordBytes huser (val i) (kvDataOf q key) rfl]

theorem EndsNewest.orders (hends : EndsNewest md5 db q key v n val) (hv : v ≤ bucketDataMaxVersion)
    (hn : n ≤ versionWindow) (hdb : Reached md5 db) (huser : checkUserKey key)
    (habsent : db.exists_ md5 q key = (.err .ENOENT, 0)) (hval : ∀ i < n, val i ≠ val n)
    (htwo : ∀ i ≤ n, ∀ j ≤ n, Run.Guarded (Call.step md5) (fun db c => c.Taken md5 db) db
      ([i, j].map (Md5db.replicate q key v val))) (hpos : 0 < n) : Orders v n := by
  have hmax : bucketDataMaxVersion = 4194303 := rfl
  have hwindow : versionWindow = 100000 := rfl
  obtain ⟨dir, hrun⟩ := hdb.runInv
  have hle : v + n ≤ bucketDataMaxVersion := by
    -- the newest update and then the first, which is greater than all that the packed field gives back
    by_contra hwrap
    obtain ⟨-, -, hnewest⟩ := hends [n, 0] (by simp) (by simp) (htwo n le_rfl 0 (Nat.zero_le n))
    have htake := hrun.two huser habsent (htwo n le_rfl 0 (Nat.zero_le n))
    have hvalid : binlogVersionValid (addVersion^[0] v) (packVersion (addVersion^[n] v)) = true := by
      have hlt := packVersion_lt (addVersion^[n] v)
      rw [binlogVersionValid_small hlt, Function.iterate_zero, id]
      omega
    simp only [hvalid, if_true] at htake
    exact hval 0 hpos (htake.1.symm.trans hnewest)
  have hsame : packVersion (v + n) = v + n := by
    obtain ⟨-, hversion, -⟩ := hends [n, n] (by simp) (by simp) (htwo n le_rfl n le_rfl)
    have htake := hrun.two huser habsent (htwo n le_rfl n le_rfl)
    rw [iterate_addVersion hle] at htake hversion
    split at htake
    · obtain ⟨-, hpacked | ⟨-, hpacked⟩⟩ := htake
      · exact hpacked.symm.trans hversion
      · exact hpacked
    · exact htake.2.symm.trans hversion
  refine ⟨hle, (packVersion_eq_self_iff _).mp hsame, fun i hi => ?_⟩
  by_contra hgreater
  obtain ⟨-, -, hnewest⟩ := hends [i, n] (by simp [hi.le]) (by simp) (htwo i hi.le n le_rfl)
  have htake := hrun.two huser habsent (htwo i hi.le n le_rfl)
  rw [iterate_addVersion hle, iterate_addVersion (show v + i ≤ bucketDataMaxVersion by omega)] at htake
  have hinvalid : ¬ binlogVersionValid (v + n) (packVersion (v + i)) = true := fun htrue =>
    hgreater ((binlogVersionValid_small (packVersion_lt _)).mp htrue)
  simp only [hinvalid] at htake
  exact hval i hi (htake.1.symm.trans hnewest)

end Db

/-- The test orders a version and its successors if and only if the window does not cross the maximum. A store that
gets the updates of a window in any order ends with the newest one if the window is one that the packed field orders,
and, for different values, only if it is. -/
theorem replica_order_iff {v n : Nat} (hv : v ≤ bucketDataMaxVersion) (hpos : 1 ≤ n) (hn : n ≤ 100000) :
    (binlogVersionValid (addVersion^[n] v) v = true ∧
      binlogVersionValid v (addVersion^[n] v) = false ↔ v + n ≤ bucketDataMaxVersion) ∧
    ∀ (md5 : Bytes → InnerKey) (db : Db) (q : Query) (key : Bytes) (val : Nat → Bytes),
      Db.Reached md5 db → Db.checkUserKey key →
      (Db.Orders v n → Db.Behind md5 db q key v n → Db.EndsNewest md5 db q key v n val) ∧
      (db.exists_ md5 q key = (.err .ENOENT, 0) → (∀ i < n, val i ≠ val n) →
        (∀ i ≤ n, ∀ j ≤ n, Run.Guarded (Call.step md5) (fun db c => c.Taken md5 db) db
          ([i, j].map (replicate q key v val))) →
        Db.EndsNewest md5 db q key v n val → Db.Orders v n) := by
  refine ⟨?_, fun md5 db q key val hdb huser => ⟨fun horders hbehind => horders.endsNewest hdb huser hbehind, ?_⟩⟩
  · rw [binlogVersionValid_iterate hv hn, eq_self_iff_true, true_and]
    constructor
    · intro hinvalid
      by_contra hwrap
      rw [binlogVersionValid_wrap hv hn (not_le.1 hwrap)] at hinvalid
      cases hinvalid
    · intro hle
      have hvalid := binlogVersionValid_add (i := 0) hle hn le_rfl
      rw [iterate_addVersion hle, Bool.eq_false_iff]
      exact fun htrue => absurd (hvalid.1 htrue) (by omega)
  · intro habsent hval htwo hends
    exact hends.orders hv hn hdb huser habsent hval htwo hpos

def lateUpdates : List Nat := [3, 1, 0, 2]

theorem replica_order_lateUpdates :
    (binlogVersionValid 5 8 = false) ∧
    ((Run.exec (Call.step Md5.md5) (Db.create ⟨4, 2, 1, 1⟩)
      (lateUpdates.map (replicate (.plain 0) (ascii "k") 5 fun i => [i.toUInt8]))).get Md5.md5 (.plain 0)
        (ascii "k")).rsp = [3] := by
  have h := replica_order_iff (v := 5) (n := 3) (by decide) (by decide) (by decide)
  refine ⟨(h.1.2 (by decide)).2, ?_⟩
  have hends := (h.2 Md5.md5 (Db.create ⟨4, 2, 1, 1⟩) (.plain 0) (ascii "k") (fun i => [i.toUInt8])
    ⟨_, [], Config.valid_small, trivial, rfl⟩ (by decide)).1 ⟨by decide, by decide, by decide⟩
      (.inl (by decide +kernel))
  exact (hends lateUpdates (by decide) (by decide) (by decide +kernel)).2.2

/-- The successor of the greatest version is 1. Each of the two is valid after the other, and a replica that has the
newer one takes the older one back. A replica that has version 64 reads 80 and refuses 65. -/
theorem wrapped_version_is_replaced :
    let ends (v : Nat) (order : List Nat) := ((Run.exec (Call.step Md5.md5) (Db.create ⟨4, 2, 1, 1⟩)
      (order.map (replicate (.plain 0) (ascii "k") v fun i => [i.toUInt8]))).get Md5.md5 (.plain 0) (ascii "k"))
    (addVersion^[1] 4194303 = 1 ∧ binlogVersionValid 4194303 1 = true ∧ (ends 4194303 [1, 0]).rsp = [0]) ∧
    (ends 64 [0, 1]).version = 80 ∧ (ends 64 [0, 1]).rsp = [0] := by
  decide +kernel

end HustStore.Md5db
