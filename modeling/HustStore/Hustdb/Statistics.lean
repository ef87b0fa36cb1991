import HustStore.Hustdb.Accounts
import Mathlib.Algebra.Order.BigOperators.Group.Finset

/-!
# The statistics of the tables

Every operation counts what it writes in the table to which it belongs. So along a run of the server the
index has the accounts of the tables.
-/

namespace HustStore

open Md5db Hustdb

/-! ### The books along a run -/

structure Books (keeps empty : Prop) (md5 : Bytes → InnerKey) (used : Set Address) (table : Bytes)
    (s : Hustdb) (dir : Directory) (m : RecMap) : Prop where
  holds : s.storage.Holds False md5 used dir m
  vacant : ∀ a, a ∉ used → m a = none
  distinct : s.tables.Distinct
  accounts : Accounts keeps m table (s.tables.entry table)
  filled : ∀ stat, s.tables.entry table = some stat → 0 < stat.count ∨ empty

variable {keeps empty : Prop} {md5 : Bytes → InnerKey} {cfg : Settings} {used : Set Address}
  {table name : Bytes} {type : TableType} {s s' : Hustdb} {dir dir' : Directory} {m m' : RecMap}

theorem beside_nil : Beside table [] := by
  intro type _ heq
  simp at heq

theorem beside_of_uncounted (hcheck : tbNameCheck table) {filed : Bytes} (h : Uncounted filed) :
    Beside table filed := by
  cases h with
  | plain => exact beside_nil
  | index score check =>
    intro type htype heq
    obtain ⟨-, hcode, -⟩ := name_append_inj check hcheck heq
    exact htype.code_ne hcode.symm

theorem beside_of_ne (hcheck : tbNameCheck table) (hname : tbNameCheck name) (hne : name ≠ table) :
    Beside table (name ++ [type.inner.code]) := by
  intro type' _ heq
  exact hne (name_append_inj hname hcheck heq).1

variable {a : Address}

theorem vacant_of_eq (hvacant : ∀ a, a ∉ used → m a = none) (ha : a ∈ used)
    (hm : ∀ b, b ≠ a → m' b = m b) : ∀ b, b ∉ used → m' b = none := by
  intro b hb
  rw [hm b fun heq => hb (heq ▸ ha)]
  exact hvacant b hb

theorem Books.frame (h : Books keeps empty md5 used table s dir m) (ha : a ∈ used)
    (hbeside : Beside table a.table) (hholds : s'.storage.Holds False md5 used dir' m')
    (hm : ∀ b, b ≠ a → m' b = m b) (hdistinct : s'.tables.Distinct)
    (hentry : s'.tables.entry table = s.tables.entry table) :
    Books keeps empty md5 used table s' dir' m' where
  holds := hholds
  vacant := vacant_of_eq h.vacant ha hm
  distinct := hdistinct
  accounts := by
    rw [hentry]
    exact h.accounts.congr fun type htype key => row_congr hbeside hm htype key
  filled := by
    rw [hentry]
    exact h.filled

theorem Books.congr (h : Books keeps empty md5 used table s dir m)
    (hholds : s'.storage.Holds False md5 used dir m) (htables : s'.tables = s.tables) :
    Books keeps empty md5 used table s' dir m where
  holds := hholds
  vacant := h.vacant
  distinct := htables ▸ h.distinct
  accounts := htables ▸ h.accounts
  filled := htables ▸ h.filled

variable {same : Prop} {offset : Nat} {sized : Bool}

theorem Moves.eq_of_ne {ts ts' : Tables}
    (h : Moves same m ts a offset sized m' ts') {b : Address} (hb : b ≠ a) : m' b = m b := by
  cases h with
  | keep => rfl
  | insert _ => exact Function.update_of_ne hb _ _
  | replace _ _ => exact Function.update_of_ne hb _ _
  | erase _ => exact Function.update_of_ne hb _ _

theorem Moves.tables_eq {ts ts' : Tables} (h : Moves same m ts a offset sized m' ts') :
    ts' = ts ∨ ∃ count size, ts' = ts.setTableMeta offset count size := by
  cases h with
  | keep => exact .inl rfl
  | insert _ => exact .inr ⟨_, _, rfl⟩
  | replace _ _ => exact .inl rfl
  | erase _ => exact .inr ⟨_, _, rfl⟩

theorem Books.moves_own {key : Bytes} {i : Nat} (h : Books keeps empty md5 used table s dir m)
    (ha : ⟨table ++ [type.inner.code], key⟩ ∈ used)
    (hindex : s.tables.find table = some i) (hstat : (s.tables.stat i).type = type)
    (hholds : s'.storage.Holds False md5 used dir' m')
    (hmoves : Moves same m s.tables ⟨table ++ [type.inner.code], key⟩ i (decide (type = .hashTb)) m' s'.tables)
    (hsame : keeps → type = .hashTb → same) : Books keeps empty md5 used table s' dir' m' := by
  have hentry : s.tables.entry table = some (s.tables.stat i) := by
    rw [Tables.entry, hindex, Option.map_some]
  have haccounts := h.accounts
  have hfilled := h.filled
  rw [hentry] at haccounts hfilled
  have hnonneg : 0 ≤ (s.tables.stat i).count := by
    obtain ⟨_, -, -, htallies, -⟩ := haccounts
    exact htallies.count_nonneg
  have hvacant := vacant_of_eq h.vacant ha fun b hb => hmoves.eq_of_ne hb
  suffices hindexed : s'.tables.Distinct ∧ Accounts keeps m' table (s'.tables.entry table) ∧
      ∀ stat, s'.tables.entry table = some stat → 0 < stat.count ∨ empty from
    ⟨hholds, hvacant, hindexed.1, hindexed.2.1, hindexed.2.2⟩
  generalize s'.tables = ts' at hmoves ⊢
  cases hmoves with
  | keep =>
    rw [hentry]
    exact ⟨h.distinct, haccounts, hfilled⟩
  | insert habsent =>
    obtain ⟨hdistinct, hnew, -⟩ := h.distinct.setTableMeta hindex 1 (sizeOf (type = .hashTb) key _)
    rw [hnew, if_neg (by omega)]
    refine ⟨hdistinct, haccounts.insert hstat habsent, fun stat heq => ?_⟩
    cases heq
    rw [Tables.add_count]
    exact .inl (by omega)
  | replace hpresent hlength =>
    rw [hentry]
    refine ⟨h.distinct, haccounts.replace hstat hpresent fun hhash hkeeps => ?_, hfilled⟩
    exact hlength (hsame hkeeps hhash)
  | erase hpresent =>
    obtain ⟨hdistinct, hnew, -⟩ := h.distinct.setTableMeta hindex (-1) (-sizeOf (type = .hashTb) key _)
    rw [hnew]
    refine ⟨hdistinct, haccounts.erase hstat hpresent, fun stat heq => ?_⟩
    split_ifs at heq with hlast
    cases heq
    rw [Tables.add_count]
    exact .inl (by omega)

theorem Books.moves {t : Target}
    (h : Books keeps empty md5 used table s dir m) (hcheck : tbNameCheck table) (haims : Aims s t offset sized)
    (ha : t.address ∈ used) (hholds : s'.storage.Holds False md5 used dir' m')
    (hmoves : Moves same m s.tables t.address offset sized m' s'.tables)
    (hsame : keeps → t.table = table ++ [TableType.hashTb.code] → same) :
    Books keeps empty md5 used table s' dir' m' := by
  cases haims with
  | plain key =>
    refine h.frame ha beside_nil hholds (fun b hb => hmoves.eq_of_ne hb) ?_ ?_
    · rcases hmoves.tables_eq with heq | ⟨count, size, heq⟩
      · exact heq ▸ h.distinct
      · rw [heq, Tables.setTableMeta_zero]
        exact h.distinct.set_low (by omega)
    · rcases hmoves.tables_eq with heq | ⟨count, size, heq⟩
      · rw [heq]
      · rw [heq, Tables.setTableMeta_zero, Tables.entry_set_low (by omega)]
  | @member name type _ _ key hname htype hindex hstat hsized =>
    have htable := memberTarget_table hname type key
    have haddress : (memberTarget name type key).address = ⟨name ++ [type.inner.code], key⟩ := by
      rw [Target.address, htable, memberTarget_key]
    rw [haddress] at ha hmoves
    rw [htable] at hsame
    subst hsized
    by_cases hne : name = table
    · subst hne
      refine h.moves_own ha hindex hstat hholds hmoves fun hkeeps hhash => hsame hkeeps ?_
      rw [hhash]
      rfl
    · refine h.frame ha (beside_of_ne hcheck hname hne) hholds (fun b hb => hmoves.eq_of_ne hb) ?_ ?_
      · rcases hmoves.tables_eq with heq | ⟨count, size, heq⟩
        · exact heq ▸ h.distinct
        · rw [heq]
          exact (h.distinct.setTableMeta hindex count size).1
      · rcases hmoves.tables_eq with heq | ⟨count, size, heq⟩
        · rw [heq]
        · rw [heq]
          exact (h.distinct.setTableMeta hindex count size).2.2 table (Ne.symm hne)

theorem Books.openTable (h : Books keeps empty md5 used table s dir m) (htype : type.IsCollection)
    (hopens : name = table → s.tables.entry table = none → empty) :
    Books keeps empty md5 used table { s with tables := (s.tables.findTableOffset name true type).2 } dir m := by
  rcases Tables.findTableOffset_cases s.tables name type with ⟨hsame, -⟩ | ⟨hnone, i, hwritable, heq⟩
  · exact h.congr h.holds hsame
  · have hdistinct : Tables.Distinct (s.tables.set i ⟨0, 0, 0, true, type, name⟩) :=
      hwritable.distinct h.distinct fun _ => rfl
    rw [heq]
    by_cases hne : name = table
    · subst hne
      have hentry := hwritable.entry_set (t := ⟨0, 0, 0, true, type, name⟩) rfl rfl
      have haccounts := h.accounts
      rw [hnone] at haccounts
      refine ⟨h.holds, h.vacant, hdistinct, ?_, fun _ _ => .inr (hopens rfl hnone)⟩
      rw [hentry]
      exact haccounts.opened htype
    · have hentry := hwritable.entry_other h.distinct (fun _ => rfl : _ → TableStat.table
        ⟨0, 0, 0, true, type, name⟩ = name) (Ne.symm hne)
      refine ⟨h.holds, h.vacant, hdistinct, ?_, ?_⟩
      · rw [hentry]
        exact h.accounts
      · rw [hentry]
        exact h.filled

def Action.Keeps (md5 : Bytes → InnerKey) (table : Bytes) (s : Hustdb) : Action → Prop
  | .put t _ w => t.table = table ++ [TableType.hashTb.code] →
      (s.storage.get md5 (s.query t.table 0 0) t.key).r = .ok →
      Db.Accepts w.ver w.isDup (s.storage.get md5 (s.query t.table 0 0) t.key).version →
      w.val.length = (s.storage.get md5 (s.query t.table 0 0) t.key).rsp.length
  | _ => True

instance Action.decidableKeeps (md5 : Bytes → InnerKey) (table : Bytes) (s : Hustdb) :
    (a : Action) → Decidable (a.Keeps md5 table s)
  | .put _ _ _ => inferInstanceAs (Decidable (_ → _ → _ → _))
  | .openTable _ _ | .fetch _ _ | .peek _ | .del _ _ _ _ _ | .store _ | .eraseTtl _ | .seek _ | .tick _
  | .evict _ | .binlog _ => .isTrue trivial

theorem Books.keeps_length (h : Books keeps empty md5 used table s dir m) {t : Target} {offset : Nat}
    {w : Write} (ha : t.address ∈ used) (hkeeps : (Action.put t offset w).Keeps md5 table s)
    (htable : t.table = table ++ [TableType.hashTb.code]) {old : Rec} (hold : m t.address = some old)
    (haccept : Db.Accepts w.ver w.isDup old.version) : w.val.length = old.val.length := by
  have hget := h.holds.get_eq (q := s.query t.table 0 0) ha rfl (h.holds.fits _ ha _ hold).user
  rw [hold] at hget
  have hread : s.storage.get md5 (s.query t.table 0 0) t.key = ⟨.ok, old.version, old.val, old.kv⟩ := hget
  have hlength := hkeeps htable
  rw [hread] at hlength
  exact hlength rfl haccept

section

variable (h : Books keeps empty md5 used table s dir m) (hinj : Set.InjOn (Address.digest md5) used)
  (hcheck : tbNameCheck table)
include h hinj hcheck

theorem Books.run {a : Action}
    (hwithin : a.Within md5 cfg used s) (haimed : a.Aimed s) (hkeeps : keeps → a.Keeps md5 table s) :
    ∃ dir' m', Books keeps empty md5 used table (a.run md5 cfg s) dir' m' := by
  cases a with
  | openTable name type => exact haimed.elim
  | fetch t offset =>
    rcases getTarget_cases md5 cfg s t offset with ⟨hdrops, heq⟩ | ⟨-, mdb, heq⟩
    · obtain ⟨ha, hsound⟩ := hwithin (s.delCall t 0 false) (if_pos hdrops)
      obtain ⟨dir', m', hholds, hmoves⟩ := moves_dropDead h.holds hinj ha hsound offset
      refine ⟨dir', m', ?_⟩
      rw [Action.run, heq]
      exact h.moves hcheck haimed ha hholds hmoves fun _ _ => trivial
    · refine ⟨dir, m, ?_⟩
      rw [Action.run, heq]
      exact h.congr h.holds rfl
  | peek t =>
    obtain ⟨mdb, heq⟩ := storage_peekTarget md5 cfg s t
    refine ⟨dir, m, ?_⟩
    rw [Action.run, heq]
    exact h.congr h.holds rfl
  | put t offset w =>
    obtain ⟨ha, hsound⟩ := hwithin (s.putCall cfg t w) rfl
    have hsame : keeps ∧ t.table = table ++ [TableType.hashTb.code] → ∀ old, m t.address = some old →
        Db.Accepts w.ver w.isDup old.version → w.val.length = old.val.length :=
      fun hsame old => h.keeps_length ha (hkeeps hsame.1) hsame.2
    obtain ⟨dir', m', hholds, hmoves⟩ := moves_putWrite h.holds hinj ha hsound hsame offset
    exact ⟨dir', m', h.moves hcheck haimed ha hholds hmoves fun hk htable => ⟨hk, htable⟩⟩
  | del t offset ver isDup sized =>
    obtain ⟨ha, hsound⟩ := hwithin (s.delCall t ver isDup) rfl
    obtain ⟨dir', m', hholds, hmoves⟩ := moves_delTarget h.holds hinj ha hsound cfg offset sized
    exact ⟨dir', m', h.moves hcheck haimed ha hholds hmoves fun _ _ => trivial⟩
  | store c =>
    obtain ⟨ha, hsound⟩ := hwithin c rfl
    obtain ⟨dir', m', hholds, hm⟩ := h.holds.step hinj ha hsound False.elim
    exact ⟨dir', m', h.frame ha (beside_of_uncounted hcheck haimed) hholds hm h.distinct rfl⟩
  | eraseTtl listing => exact ⟨dir, m, h.congr (h.holds.withTtlFile _) rfl⟩
  | seek listing => exact ⟨dir, m, h.congr h.holds rfl⟩
  | tick now => exact ⟨dir, m, h.congr h.holds rfl⟩
  | evict key => exact ⟨dir, m, h.congr h.holds rfl⟩
  | binlog file => exact ⟨dir, m, h.congr h.holds rfl⟩

theorem Books.exec {actions : List Action}
    (hwithin : Run.Guarded (Action.run md5 cfg) (Action.Within md5 cfg used) s actions)
    (haimed : Run.Guarded (Action.run md5 cfg) Action.Aimed s actions)
    (hkeeps : Run.Guarded (Action.run md5 cfg) (fun s a => keeps → a.Keeps md5 table s) s actions) :
    ∃ dir' m', Books keeps empty md5 used table (Run.exec (Action.run md5 cfg) s actions) dir' m' := by
  refine ((hwithin.and haimed).and hkeeps).invariant
    (P := fun s => ∃ dir m, Books keeps empty md5 used table s dir m) ?_ ⟨dir, m, h⟩
  rintro s a ⟨dir, m, h⟩ ⟨⟨hwithin, haimed⟩, hkeeps⟩
  exact h.run hinj hcheck hwithin haimed hkeeps

end

section Guards

variable (md5 cfg used)

def Op.Within (s : Hustdb) (op : Op) : Prop :=
  Run.Guarded (Action.run md5 cfg) (Action.Within md5 cfg used) s (op.actions md5 cfg s)

instance Op.decidableWithin [DecidablePred (· ∈ used)] (s : Hustdb) (op : Op) :
    Decidable (op.Within md5 cfg used s) := Run.decidableGuarded _ _

def Op.Keeps (table : Bytes) (s : Hustdb) (op : Op) : Prop :=
  Run.Guarded (Action.run md5 cfg) (Action.Keeps md5 table) s (op.actions md5 cfg s)

instance Op.decidableKeeps (table : Bytes) (s : Hustdb) (op : Op) : Decidable (op.Keeps md5 cfg table s) :=
  Run.decidableGuarded _ _

def Action.Stored (filed : Bytes) (db : Db) : Action → Prop
  | .put t _ _ => t.table = filed ∧ t.key ∈ db.members md5 used filed
  | _ => False

instance Action.decidableStored [DecidablePred (· ∈ used)] (filed : Bytes) (db : Db) :
    (a : Action) → Decidable (a.Stored md5 used filed db)
  | .put t _ _ => inferInstanceAs (Decidable (t.table = filed ∧ ⟨filed, t.key⟩ ∈ used ∧
      (db.exists_ md5 ⟨filed, 0, 0, 0⟩ t.key).1 = .ok))
  | .openTable _ _ | .fetch _ _ | .peek _ | .del _ _ _ _ _ | .store _ | .eraseTtl _ | .seek _ | .tick _
  | .evict _ | .binlog _ => .isFalse id

def Action.Fills (table : Bytes) (actions : List Action) (db : Db) : Action → Prop
  | .openTable name type =>
    name = table → ∃ a ∈ actions, a.Stored md5 used (table ++ [type.inner.code]) db
  | _ => True

instance Action.decidableFills [DecidablePred (· ∈ used)] (table : Bytes) (actions : List Action) (db : Db) :
    (a : Action) → Decidable (a.Fills md5 used table actions db)
  | .openTable name _ => inferInstanceAs (Decidable (name = table → _))
  | .put _ _ _ | .fetch _ _ | .peek _ | .del _ _ _ _ _ | .store _ | .eraseTtl _ | .seek _ | .tick _
  | .evict _ | .binlog _ => .isTrue trivial

def Op.Fills (table : Bytes) (s : Hustdb) (op : Op) : Prop :=
  s.tables.find table = none → ∀ a ∈ op.actions md5 cfg s,
    a.Fills md5 used table (op.actions md5 cfg s) (op.step md5 cfg s).storage

instance Op.decidableFills [DecidablePred (· ∈ used)] (table : Bytes) (s : Hustdb) (op : Op) :
    Decidable (op.Fills md5 cfg used table s) :=
  inferInstanceAs (Decidable (_ → _))

end Guards

theorem Books.weaken {empty' : Prop} (h : Books keeps empty md5 used table s dir m)
    (himp : empty → empty') : Books keeps empty' md5 used table s dir m :=
  { h with filled := fun stat hstat => (h.filled stat hstat).imp_right himp }

theorem Books.count_pos (h : Books keeps empty md5 used table s dir m) {type : TableType}
    (htype : type.IsCollection) {key : Bytes}
    (hkey : key ∈ s.storage.members md5 used (table ++ [type.inner.code])) {stat : TableStat}
    (hstat : s.tables.entry table = some stat) : 0 < stat.count := by
  obtain ⟨-, r, hr⟩ := h.holds.mem_members.mp hkey
  have haccounts := h.accounts
  rw [hstat] at haccounts
  obtain ⟨type', -, -, htallies, hothers⟩ := haccounts
  by_cases hne : type = type'
  · subst hne
    obtain ⟨keys, hcovers, -⟩ := htallies.count
    have hmem : key ∈ keys := by
      rw [hcovers key, row, hr]
      rfl
    rw [htallies.count.eq_card hcovers]
    exact_mod_cast Finset.card_pos.mpr ⟨key, hmem⟩
  · have hnone := hothers type htype hne key
    rw [row, hr] at hnone
    cases hnone

theorem Books.step (h : Books keeps empty md5 used table s dir m)
    (hinj : Set.InjOn (Address.digest md5) used) (hcheck : tbNameCheck table) {op : Op}
    (hwithin : op.Within md5 cfg used s) (hkeeps : keeps → op.Keeps md5 cfg table s)
    (hfills : ¬empty → op.Fills md5 cfg used table s) :
    ∃ dir' m', Books keeps empty md5 used table (op.step md5 cfg s) dir' m' := by
  have hkept : Run.Guarded (Action.run md5 cfg) (fun s a => keeps → a.Keeps md5 table s) s
    (op.actions md5 cfg s) := Run.guarded_of_imp hkeeps
  have hdirected := Op.directed md5 cfg s op
  simp only [Op.Fills, Op.step_eq] at hfills
  rw [Op.step_eq]
  unfold Op.Within at hwithin
  generalize op.actions md5 cfg s = actions at hwithin hfills hkept hdirected ⊢
  cases hdirected with
  | aimed haimed => exact h.exec hinj hcheck hwithin haimed hkept
  | @opening name type rest htype hrest =>
    -- Between its opening and the first put the table may be empty.
    have hopened := (h.weaken (Or.inl : _ → empty ∨ name = table ∧ s.tables.entry table = none)).openTable
      htype fun hname hnone => .inr ⟨hname, hnone⟩
    obtain ⟨dir', m', hbooks⟩ := hopened.exec hinj hcheck hwithin.2 hrest hkept.2
    refine ⟨dir', m', { hbooks with filled := fun stat hstat => ?_ }⟩
    rcases hbooks.filled stat hstat with hpos | hempty | ⟨rfl, hnone⟩
    · exact .inl hpos
    · exact .inr hempty
    · by_cases hempty : empty
      · exact .inr hempty
      obtain ⟨a, -, hstored⟩ := hfills hempty (Option.map_eq_none_iff.mp hnone) _ (List.mem_cons_self ..) rfl
      cases a with
      | put t offset w => exact .inl (hbooks.count_pos htype hstored.2 hstat)
      | _ => exact hstored.elim

theorem books_create {config : Config} (hconfig : config.Valid) (maximum started : Nat) :
    ∃ dir m, Books keeps empty md5 used table (create config maximum started) dir m := by
  have hnone : (create config maximum started).tables.entry table = none := by
    refine Tables.entry_eq_none.mpr fun i hi => ?_
    exact Tables.not_inUse_create hi
  refine ⟨_, _, Db.holds_create hconfig md5 used, fun _ _ => rfl, Tables.distinct_create maximum, ?_, ?_⟩
  · rw [hnone]
    exact fun _ _ _ => rfl
  · rw [hnone]
    exact fun _ hstat => by cases hstat

theorem books_of_guarded {config : Config} {maximum started : Nat} {ops : List Op} (hconfig : config.Valid)
    (hinj : Set.InjOn (Address.digest md5) used) (hcheck : tbNameCheck table)
    (hwithin : Run.Guarded (Op.step md5 cfg) (Op.Within md5 cfg used) (create config maximum started) ops)
    (hkeeps : keeps → Run.Guarded (Op.step md5 cfg) (Op.Keeps md5 cfg table) (create config maximum started) ops)
    (hfills : ¬empty →
      Run.Guarded (Op.step md5 cfg) (Op.Fills md5 cfg used table) (create config maximum started) ops) :
    ∃ dir m, Books keeps empty md5 used table
      (Run.exec (Op.step md5 cfg) (create config maximum started) ops) dir m := by
  refine ((hwithin.and (Run.guarded_of_imp hkeeps)).and (Run.guarded_of_imp hfills)).invariant
    (P := fun s => ∃ dir m, Books keeps empty md5 used table s dir m) ?_ (books_create hconfig _ _)
  rintro s op ⟨dir, m, h⟩ ⟨⟨hwithin, hkeeps⟩, hfills⟩
  exact h.step hinj hcheck hwithin hkeeps hfills

variable {keys : Finset Bytes} {i : Nat}

section

variable (h : Books keeps empty md5 used table s dir m)
include h

theorem Books.mem_members {key : Bytes} :
    key ∈ s.storage.members md5 used (table ++ [type.inner.code]) ↔ (row m table type key).isSome := by
  rw [h.holds.mem_members, Option.isSome_iff_exists]
  refine and_iff_right_of_imp fun hr => ?_
  by_contra hnot
  obtain ⟨r, hr⟩ := hr
  rw [h.vacant _ hnot] at hr
  cases hr

theorem Books.entry_of_find (hindex : s.tables.find table = some i) (hstat : (s.tables.stat i).type = type) :
    Tallies keeps type (row m table type) (s.tables.stat i) ∧ (0 < (s.tables.stat i).count ∨ empty) := by
  have hentry : s.tables.entry table = some (s.tables.stat i) := by
    rw [Tables.entry, hindex, Option.map_some]
  have haccounts := h.accounts
  rw [hentry] at haccounts
  obtain ⟨_, rfl, -, htallies, -⟩ := haccounts
  subst hstat
  exact ⟨htallies, h.filled _ hentry⟩

theorem Books.hasTable (htype : type.IsCollection)
    {key : Bytes} (hkey : (row m table type key).isSome) : s.HasTable table type := by
  have haccounts := h.accounts
  cases hfind : s.tables.find table with
  | none =>
    rw [Tables.entry, hfind] at haccounts
    rw [haccounts type htype key] at hkey
    cases hkey
  | some i =>
    rw [Tables.entry, hfind] at haccounts
    obtain ⟨type', hstat, -, -, hothers⟩ := haccounts
    by_cases hne : type = type'
    · exact ⟨i, hfind, hstat.trans hne.symm⟩
    · rw [hothers type htype hne key] at hkey
      cases hkey

theorem Books.exists_covers (htype : type.IsCollection) :
    ∃ keys : Finset Bytes, Tally.Covers keys (row m table type) := by
  by_cases hall : ∀ key, row m table type key = none
  · obtain ⟨keys, hcovers, -⟩ := Tally.totals_empty (f := fun _ _ => 1) hall
    exact ⟨keys, hcovers⟩
  · rw [not_forall] at hall
    obtain ⟨key, hkey⟩ := hall
    obtain ⟨i, hfind, hstat⟩ := h.hasTable htype (Option.isSome_iff_ne_none.mpr hkey)
    obtain ⟨keys, hcovers, -⟩ := (h.entry_of_find hfind hstat).1.count
    exact ⟨keys, hcovers⟩

section

variable (hcovers : Tally.Covers keys (row m table type)) {key : Bytes} (hkey : key ∈ keys)
include hcovers hkey

theorem Books.rsp_of_mem : ∃ r, row m table type key = some r ∧ ⟨table ++ [type.inner.code], key⟩ ∈ used ∧
      (s.storage.get md5 ⟨table ++ [type.inner.code], 0, 0, 0⟩ key).rsp = r.val := by
  obtain ⟨r, hr⟩ := Option.isSome_iff_exists.mp ((hcovers key).mp hkey)
  have ha : ⟨table ++ [type.inner.code], key⟩ ∈ used := by
    by_contra hnot
    rw [row, h.vacant _ hnot] at hr
    cases hr
  have hget := h.holds.get_eq (q := ⟨table ++ [type.inner.code], 0, 0, 0⟩) ha rfl (h.holds.fits _ ha r hr).user
  rw [show m ⟨table ++ [type.inner.code], key⟩ = some r from hr] at hget
  exact ⟨r, hr, ha, congrArg Db.GetReply.rsp hget⟩

theorem Books.share_size {f : ℤ → ℤ} :
    Tally.share (fun key r => f (sizeOf true key r)) (row m table type) key = f ((key.length +
        (s.storage.get md5 ⟨table ++ [type.inner.code], 0, 0, 0⟩ key).rsp.length : Nat) : ℤ) := by
  obtain ⟨r, hr, -, hrsp⟩ := h.rsp_of_mem hcovers hkey
  rw [Tally.share, hr, hrsp, Option.elim_some, sizeOf, if_pos rfl, Nat.cast_add]

theorem Books.pagesHeld_eq :
    s.storage.pagesHeld (Address.digest md5 ⟨table ++ [type.inner.code], key⟩) = pageCount (key.length +
        (s.storage.get md5 ⟨table ++ [type.inner.code], 0, 0, 0⟩ key).rsp.length + KvDataItem.size) := by
  obtain ⟨r, hr, ha, hrsp⟩ := h.rsp_of_mem hcovers hkey
  rw [h.holds.pagesHeld_eq ha hr, hrsp, Nat.add_comm r.val.length]

end

end

theorem pagesOf_natCast (n : Nat) : Tables.pagesOf n = Tables.statPage * pageCount n := by
  rw [Content2.pageCount_eq]
  unfold Tables.pagesOf Tables.statPage
  dsimp only
  rw [Int.natAbs_natCast]
  split_ifs <;> omega

def threeFields : List Op :=
  [.hset (ascii "h") (ascii "f") [1] 0 0 false 0, .hset (ascii "h") (ascii "g") [2, 3] 0 0 false 0,
    .hset (ascii "h") (ascii "f") [4] 0 0 false 0, .hset (ascii "h") (ascii "e") [5] 0 0 false 0,
    .hdel (ascii "h") (ascii "e") 0 false]

def threeFieldsUsed : List Address :=
  [⟨ascii "h!", ascii "f"⟩, ⟨ascii "h!", ascii "g"⟩, ⟨ascii "h!", ascii "e"⟩]

instance decidableThreeFieldsUsed : DecidablePred (· ∈ {a | a ∈ threeFieldsUsed}) := fun a =>
  inferInstanceAs (Decidable (a ∈ threeFieldsUsed))

end HustStore
