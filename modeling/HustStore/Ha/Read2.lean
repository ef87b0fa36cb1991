import HustStore.Base
import HustStore.Ha.Write
import HustStore.Lib.Decimal

/-!
# Reads from both masters

`get2`, `hget2`, `sismember2` and `zscore2` ask both masters and compare what they answer. The values are
compared with `strncmp`, which stops at a zero byte, and a conflict is only reported when both values have
bytes.
-/

namespace HustStore.Ha

/-- What the handler meets in one call: whether the key has a peer, which masters are alive, whether a
subrequest can be started, and whether there is memory for the body of a conflict. -/
structure ReadEnv where
  peer : Bool
  alive : Master → Bool
  starts : Bool
  buffer : Bool

structure MasterResponse where
  status : Nat
  version : Option Bytes
  body : Bytes
  deriving DecidableEq, Repr

inductive ReadHeader
  | version | version1 | version2 | valOffset
  deriving DecidableEq, Repr

structure ReadReply where
  status : Nat
  headers : List (ReadHeader × Bytes)
  body : Bytes
  deriving DecidableEq, Repr

inductive ReadState
  | readMaster1 | readMaster2
  deriving DecidableEq, Repr

structure ReadResponse where
  version : Bytes
  data : Bytes
  deriving DecidableEq, Repr

structure ReadCtx where
  state : ReadState
  discardBody : Bool
  response : Bytes
  version : Bytes
  master1Resp : ReadResponse
  deriving DecidableEq, Repr

inductive ReadResult
  | subrequest (ctx : ReadCtx)
  | response (reply : ReadReply)
  | error
  deriving DecidableEq, Repr

def strncmpEq : Nat → Bytes → Bytes → Bool
  | n + 1, a :: src, b :: dst => a = b && (a = 0 || strncmpEq n src dst)
  | _, _, _ => true

def stringEq (src dst : Bytes) : Bool :=
  if src.length ≠ dst.length then false else strncmpEq src.length src dst

def notFound (headers : List (ReadHeader × Bytes)) : ReadResult :=
  .response ⟨404, headers ++ [(.version, ascii "0")], []⟩

def ReadCtx.onSubrequestComplete (ctx : ReadCtx) (m : MasterResponse) : ReadCtx :=
  if m.status ≠ 200 then ctx
  else { ctx with response := m.body, version := m.version.getD ctx.version }

def startRead (env : ReadEnv) (discardBody : Bool) : ReadResult :=
  if !env.peer then notFound []
  else if !env.alive .master1 then notFound []
  else if !env.starts then .error
  else .subrequest ⟨.readMaster1, discardBody, [], [], ⟨[], []⟩⟩

def onReadMaster1Complete (env : ReadEnv) (status : Nat) (ctx : ReadCtx) : ReadResult :=
  if status = 200 ∧ env.alive .master2 then
    let ctx := { ctx with
      master1Resp := ⟨ctx.version, if ctx.discardBody then ctx.master1Resp.data else ctx.response⟩
      state := .readMaster2 }
    if env.starts then .subrequest ctx else .error
  else notFound []

def valOffset (len : Nat) : ReadHeader × Bytes := (.valOffset, Decimal.digits 20 len)

def addConflictVal (env : ReadEnv) (val1 val2 : Bytes) : List (ReadHeader × Bytes) × Option Bytes :=
  if val1.length < 1 ∨ val2.length < 1 then ([], none)
  else if !env.buffer then ([valOffset val1.length], none)
  else ([valOffset val1.length], some (val1 ++ val2))

def onReadMaster2Complete (env : ReadEnv) (status : Nat) (ctx : ReadCtx) : ReadResult :=
  if status ≠ 200 then notFound []
  else
    let verEq := stringEq ctx.master1Resp.version ctx.version
    let headers :=
      if verEq then [(.version, ctx.version)]
      else [(.version1, ctx.master1Resp.version), (.version2, ctx.version)]
    if ctx.discardBody then
      if verEq then .response ⟨200, headers, ctx.response⟩ else .response ⟨409, headers, []⟩
    else if stringEq ctx.master1Resp.data ctx.response then .response ⟨200, headers, ctx.response⟩
    else match addConflictVal env ctx.master1Resp.data ctx.response with
      | (added, none) => notFound (headers ++ added)
      | (added, some body) => .response ⟨409, headers ++ added, body⟩

def completeRead (env : ReadEnv) (ctx : ReadCtx) (m : MasterResponse) : ReadResult :=
  let ctx := ctx.onSubrequestComplete m
  match ctx.state with
  | .readMaster1 => onReadMaster1Complete env m.status ctx
  | .readMaster2 => onReadMaster2Complete env m.status ctx

def read2 (discardBody : Bool) (m1 m2 : MasterResponse) (env0 env1 env2 : ReadEnv) : ReadResult :=
  match startRead env0 discardBody with
  | .subrequest ctx =>
    match completeRead env1 ctx m1 with
    | .subrequest ctx => completeRead env2 ctx m2
    | result => result
  | result => result

/-! ### Comparing -/

def AgreeToNul (a b : Bytes) : Prop :=
  a.length = b.length ∧ a.takeWhile (· ≠ 0) = b.takeWhile (· ≠ 0)

theorem strncmpEq_iff {a b : Bytes} (h : a.length = b.length) :
    strncmpEq a.length a b = true ↔ a.takeWhile (· ≠ 0) = b.takeWhile (· ≠ 0) := by
  induction a generalizing b with
  | nil =>
    rw [List.length_eq_zero_iff.mp h.symm]
    simp [strncmpEq]
  | cons x a ih =>
    cases b with
    | nil => simp at h
    | cons y b =>
      have hrest := ih (Nat.succ.inj h)
      simp only [List.length_cons, strncmpEq, List.takeWhile_cons, Bool.and_eq_true,
        decide_eq_true_eq, Bool.or_eq_true, hrest]
      by_cases hx : x = 0
      · subst hx
        by_cases hy : y = 0
        · simp [hy]
        · simp [hy, Ne.symm hy]
      · by_cases hy : y = 0
        · subst hy
          simp [hx]
        · simp [hx, hy]

theorem stringEq_iff (a b : Bytes) : stringEq a b = true ↔ AgreeToNul a b := by
  unfold stringEq AgreeToNul
  by_cases h : a.length = b.length
  · rw [if_neg (not_not_intro h), strncmpEq_iff h, and_iff_right h]
  · simp [h]

/-! ### What the comparison hides -/

def MasterResponse.ver (m : MasterResponse) : Bytes := m.version.getD []

def judged (discardBody : Bool) (m1 m2 : MasterResponse) : ReadCtx where
  state := .readMaster2
  discardBody := discardBody
  response := m2.body
  version := m2.version.getD m1.ver
  master1Resp := ⟨m1.ver, if discardBody then [] else m1.body⟩

theorem completeRead_master1 (env : ReadEnv) (discardBody : Bool) (m1 : MasterResponse) :
    let result := completeRead env ⟨.readMaster1, discardBody, [], [], ⟨[], []⟩⟩ m1
    m1.status = 200 ∧ result = .subrequest ⟨.readMaster2, discardBody, m1.body, m1.ver,
        ⟨m1.ver, if discardBody then [] else m1.body⟩⟩ ∨
    result = notFound [] ∨ result = .error := by
  intro result
  by_cases h1 : m1.status = 200
  · by_cases halive : env.alive .master2 = true
    · by_cases hstarts : env.starts = true
      · refine .inl ⟨h1, ?_⟩
        simp [result, completeRead, ReadCtx.onSubrequestComplete, onReadMaster1Complete, h1, halive,
          hstarts, MasterResponse.ver]
      · refine .inr (.inr ?_)
        simp [result, completeRead, ReadCtx.onSubrequestComplete, onReadMaster1Complete, h1, halive, hstarts]
    · refine .inr (.inl ?_)
      simp [result, completeRead, ReadCtx.onSubrequestComplete, onReadMaster1Complete, h1, halive]
  · refine .inr (.inl ?_)
    simp [result, completeRead, ReadCtx.onSubrequestComplete, onReadMaster1Complete, h1]

theorem completeRead_master2 (env : ReadEnv) (discardBody : Bool) (m1 m2 : MasterResponse) :
    completeRead env ⟨.readMaster2, discardBody, m1.body, m1.ver, ⟨m1.ver, if discardBody then [] else m1.body⟩⟩ m2 =
      if m2.status = 200 then onReadMaster2Complete env 200 (judged discardBody m1 m2)
      else notFound [] := by
  by_cases h2 : m2.status = 200
  · simp [completeRead, ReadCtx.onSubrequestComplete, h2, judged]
  · simp [completeRead, ReadCtx.onSubrequestComplete, onReadMaster2Complete, h2]

theorem read2_cases (discardBody : Bool) (m1 m2 : MasterResponse) (env0 env1 env2 : ReadEnv) :
    m1.status = 200 ∧ m2.status = 200 ∧ read2 discardBody m1 m2 env0 env1 env2 =
        onReadMaster2Complete env2 200 (judged discardBody m1 m2) ∨
    read2 discardBody m1 m2 env0 env1 env2 = notFound [] ∨
    read2 discardBody m1 m2 env0 env1 env2 = .error := by
  unfold read2 startRead
  split_ifs
  · exact .inr (.inl rfl)
  · exact .inr (.inl rfl)
  · exact .inr (.inr rfl)
  · rcases completeRead_master1 env1 discardBody m1 with ⟨h1, heq⟩ | heq | heq
    · simp only [heq, completeRead_master2]
      by_cases h2 : m2.status = 200
      · exact .inl ⟨h1, h2, if_pos h2⟩
      · exact .inr (.inl (if_neg h2))
    · refine .inr (.inl ?_)
      simp only [heq]
      rfl
    · refine .inr (.inr ?_)
      simp only [heq]

structure ReadEnv.Ready (env : ReadEnv) : Prop where
  peer : env.peer = true
  alive : ∀ m, env.alive m = true
  starts : env.starts = true
  buffer : env.buffer = true

variable {m1 m2 : MasterResponse}

theorem read2_ready (discardBody : Bool) (h1 : m1.status = 200)
    (h2 : m2.status = 200) {env0 env1 : ReadEnv} (hready0 : env0.Ready) (hready1 : env1.Ready)
    (env2 : ReadEnv) :
    read2 discardBody m1 m2 env0 env1 env2 =
      onReadMaster2Complete env2 200 (judged discardBody m1 m2) := by
  simp [read2, startRead, completeRead, ReadCtx.onSubrequestComplete, onReadMaster1Complete, h1, h2,
    hready0.peer, hready0.alive, hready0.starts, hready1.alive, hready1.starts, judged,
    MasterResponse.ver]

theorem onReadMaster2Complete_ok {env : ReadEnv} {status : Nat} {ctx : ReadCtx}
    {headers : List (ReadHeader × Bytes)} {body : Bytes}
    (h : onReadMaster2Complete env status ctx = .response ⟨200, headers, body⟩) :
    if ctx.discardBody then stringEq ctx.master1Resp.version ctx.version = true
    else stringEq ctx.master1Resp.data ctx.response = true := by
  unfold onReadMaster2Complete at h
  by_cases h0 : status ≠ 200
  · rw [if_pos h0, notFound] at h
    simp at h
  rw [if_neg h0] at h
  simp only at h
  by_cases hdiscard : ctx.discardBody = true
  · rw [if_pos hdiscard] at h ⊢
    by_contra hver
    rw [if_neg hver] at h
    simp at h
  · rw [if_neg hdiscard] at h ⊢
    by_contra hval
    rw [if_neg hval] at h
    split at h
    · rw [notFound] at h
      simp at h
    · simp at h

/-- What a double read promises for the answers of two masters: a 200 stands for equal values, and different
values are both handed over. -/
structure Unmasked (discardBody : Bool) (m1 m2 : MasterResponse) : Prop where
  ok : ∀ env0 env1 env2 headers body, read2 discardBody m1 m2 env0 env1 env2 = .response ⟨200, headers, body⟩ →
    m1.status = 200 ∧ m2.status = 200 ∧
      if discardBody then m1.ver = m2.ver else m1.body = m2.body
  conflict : m1.status = 200 → m2.status = 200 → (if discardBody then m1.ver ≠ m2.ver else m1.body ≠ m2.body) →
    ∀ env0 env1 env2, env0.Ready → env1.Ready → env2.Ready →
    ∃ headers body, read2 discardBody m1 m2 env0 env1 env2 = .response ⟨409, headers, body⟩ ∧
      (discardBody = false → ∃ offset, (ReadHeader.valOffset, offset) ∈ headers ∧
        body.take (Decimal.ofDigits offset) = m1.body ∧
        body.drop (Decimal.ofDigits offset) = m2.body)

def ToldApart : Bool → MasterResponse → MasterResponse → Prop
  | true, m1, m2 => m1.ver ≠ m2.ver → ¬ AgreeToNul m1.ver (m2.version.getD m1.ver)
  | false, m1, m2 => m1.body ≠ m2.body → m1.body ≠ [] ∧ m2.body ≠ [] ∧ ¬ AgreeToNul m1.body m2.body

theorem unmasked_of_toldApart {discardBody : Bool} (hlen : m1.body.length < 2 ^ 64)
    (h : m1.status = 200 → m2.status = 200 → ToldApart discardBody m1 m2) :
    Unmasked discardBody m1 m2 := by
  constructor
  · intro env0 env1 env2 headers body hread
    rcases read2_cases discardBody m1 m2 env0 env1 env2 with ⟨h1, h2, heq⟩ | heq | heq
    · rw [heq] at hread
      have hsame := onReadMaster2Complete_ok hread
      have htold := h h1 h2
      refine ⟨h1, h2, ?_⟩
      cases discardBody with
      | true =>
        by_contra hne
        exact htold hne ((stringEq_iff _ _).mp hsame)
      | false =>
        by_contra hne
        exact (htold hne).2.2 ((stringEq_iff _ _).mp hsame)
    · rw [heq, notFound] at hread
      simp at hread
    · rw [heq] at hread
      cases hread
  · intro h1 h2 hne env0 env1 env2 hready0 hready1 hready2
    have htold := h h1 h2
    rw [read2_ready discardBody h1 h2 hready0 hready1 env2]
    cases discardBody with
    | true =>
      have hver : stringEq m1.ver (m2.version.getD m1.ver) = false := by
        rw [← Bool.not_eq_true, stringEq_iff]
        exact htold hne
      simp [onReadMaster2Complete, judged, hver]
    | false =>
      obtain ⟨hne1, hne2, hapart⟩ := htold hne
      have hval : stringEq m1.body m2.body = false := by
        rw [← Bool.not_eq_true, stringEq_iff]
        exact hapart
      have hadd : addConflictVal env2 m1.body m2.body = ([valOffset m1.body.length], some (m1.body ++ m2.body)) := by
        have hpos1 := List.length_pos_of_ne_nil hne1
        have hpos2 := List.length_pos_of_ne_nil hne2
        rw [addConflictVal, if_neg (by omega), hready2.buffer]
        rfl
      have hoffset : Decimal.ofDigits (valOffset m1.body.length).2 = m1.body.length :=
        Decimal.ofDigits_digits (Nat.lt_trans hlen (by decide))
      have hreply : ∃ headers, onReadMaster2Complete env2 200 (judged false m1 m2) =
          .response ⟨409, headers ++ [valOffset m1.body.length], m1.body ++ m2.body⟩ := by
        simp only [onReadMaster2Complete, judged, Bool.false_eq_true, if_false, hval, hadd]
        exact ⟨_, rfl⟩
      obtain ⟨headers, hreply⟩ := hreply
      refine ⟨_, _, hreply, fun _ => ⟨(valOffset m1.body.length).2, ?_, ?_, ?_⟩⟩
      · exact List.mem_append_right _ (by simp [valOffset])
      · rw [hoffset, List.take_left]
      · rw [hoffset, List.drop_left]

def ReadEnv.calm : ReadEnv := ⟨true, fun _ => true, true, true⟩

theorem ReadEnv.ready_calm : ReadEnv.calm.Ready := ⟨rfl, fun _ => rfl, rfl, rfl⟩

theorem toldApart_of_unmasked {discardBody : Bool}
    (h : Unmasked discardBody m1 m2) (h1 : m1.status = 200) (h2 : m2.status = 200) :
    ToldApart discardBody m1 m2 := by
  have hread := read2_ready discardBody h1 h2 ReadEnv.ready_calm ReadEnv.ready_calm .calm
  have hconflict := h.conflict h1 h2
  cases discardBody with
  | true =>
    intro hne hagree
    obtain ⟨headers, body, hreply, -⟩ :=
      hconflict hne .calm .calm .calm ReadEnv.ready_calm ReadEnv.ready_calm ReadEnv.ready_calm
    rw [hread] at hreply
    have hver := (stringEq_iff _ _).mpr hagree
    simp [onReadMaster2Complete, judged, hver] at hreply
  | false =>
    intro hne
    obtain ⟨headers, body, hreply, -⟩ :=
      hconflict hne .calm .calm .calm ReadEnv.ready_calm ReadEnv.ready_calm ReadEnv.ready_calm
    rw [hread] at hreply
    by_cases hval : stringEq m1.body m2.body = true
    · simp [onReadMaster2Complete, judged, hval] at hreply
    · have hempty : ¬ (m1.body.length < 1 ∨ m2.body.length < 1) := by
        intro hempty
        rw [Bool.not_eq_true] at hval
        simp only [onReadMaster2Complete, judged, Bool.false_eq_true, if_false, hval,
          addConflictVal, if_pos hempty, notFound] at hreply
        simp at hreply
      refine ⟨fun hnil => ?_, fun hnil => ?_, fun hagree => hval ((stringEq_iff _ _).mpr hagree)⟩
      · exact hempty (.inl (by simp [hnil]))
      · exact hempty (.inr (by simp [hnil]))

/-- A double read keeps its promise for the answers of two masters exactly when its comparison tells
them apart. -/
theorem double_read_unmasked_iff (discardBody : Bool) (m1 m2 : MasterResponse) (hlen : m1.body.length < 2 ^ 64) :
    Unmasked discardBody m1 m2 ↔ (m1.status = 200 → m2.status = 200 → ToldApart discardBody m1 m2) :=
  ⟨toldApart_of_unmasked, unmasked_of_toldApart hlen⟩

theorem double_read_unmasked_text :
    Unmasked false ⟨200, some (ascii "1"), ascii "a"⟩ ⟨200, some (ascii "2"), ascii "bc"⟩ :=
  (double_read_unmasked_iff false ⟨200, some (ascii "1"), ascii "a"⟩
    ⟨200, some (ascii "2"), ascii "bc"⟩ (by decide)).mpr fun _ _ _ =>
      ⟨by decide, by decide, fun h => absurd h.1 (by decide)⟩

/-- Two values that differ behind a zero byte are answered with 200 and the value of the second master,
and a value beside an empty one with 404. -/
theorem double_read_masks : read2 false ⟨200, some (ascii "1"), [97, 0, 98]⟩ ⟨200, some (ascii "1"), [97, 0, 99]⟩
      .calm .calm .calm = .response ⟨200, [(.version, ascii "1")], [97, 0, 99]⟩ ∧
    read2 false ⟨200, some (ascii "1"), []⟩ ⟨200, some (ascii "1"), [97]⟩ .calm .calm .calm =
      .response ⟨404, [(.version, ascii "1"), (.version, ascii "0")], []⟩ := by
  decide

end HustStore.Ha
