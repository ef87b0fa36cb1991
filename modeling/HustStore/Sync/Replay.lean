import HustStore.Ha.Route
import HustStore.Lib.Decimal
import HustStore.Sync.Line

/-!
# Replaying a line of the sync log

The daemon makes a request of a line: `construct_item` checks the two checksums, works out what is left of the
ttl, and prints a query for the method. The database reads the request like any other one.
-/

namespace HustStore.Sync

open Ha (Method hexValue)

/-! ### Escaping -/

def plainChar (b : UInt8) : Bool :=
  (39 ≤ b && b ≤ 41) || (44 ≤ b && b ≤ 46) || (48 ≤ b && b ≤ 57) || (65 ≤ b && b ≤ 91) || b = 93 ||
    b = 95 || (97 ≤ b && b ≤ 122) || b = 124

def hexDigit (n : Nat) : UInt8 := .ofNat (if n < 10 then 48 + n else 55 + n)

def urlEncodeItem (b : UInt8) : Bytes :=
  if plainChar b then [b] else [37, hexDigit (b.toNat / 16), hexDigit (b.toNat % 16)]

def urlEncodeAll (text : Bytes) : Bytes := text.flatMap urlEncodeItem

def urlEncodeUsed : Nat → Bytes → Nat
  | dest, [] => dest + 1
  | dest, b :: rest => max (dest + 4) (urlEncodeUsed (dest + (urlEncodeItem b).length) rest)

inductive UnescapeState
  | usual
  | quoted
  | quotedSecond (decoded : Nat)

def unescapeFrom : UnescapeState → Bytes → Bytes
  | _, [] => []
  | .usual, ch :: rest =>
    if ch = 63 then [63]
    else if ch = 37 then unescapeFrom .quoted rest
    else ch :: unescapeFrom .usual rest
  | .quoted, ch :: rest =>
    match hexValue ch with
    | some decoded => unescapeFrom (.quotedSecond decoded) rest
    | none => ch :: unescapeFrom .usual rest
  | .quotedSecond decoded, ch :: rest =>
    match hexValue ch with
    | some low =>
      let c := UInt8.ofNat (16 * decoded + low)
      if c = 63 then [63] else c :: unescapeFrom .usual rest
    | none => unescapeFrom .usual rest

def unescapeStr (text : Bytes) : Bytes := unescapeFrom .usual text

def upToQuestion : Bytes → Bytes
  | [] => []
  | b :: rest => if b = 63 then [63] else b :: upToQuestion rest

theorem hexValue_hexDigit {n : Nat} (h : n < 16) : hexValue (hexDigit n) = some n := by
  interval_cases n <;> decide

theorem hexDigit_ne {n : Nat} (h : n < 16) : hexDigit n ≠ 38 := by
  interval_cases n <;> decide

theorem unescapeFrom_escaped (b : UInt8) (rest : Bytes) :
    unescapeFrom .usual (37 :: hexDigit (b.toNat / 16) :: hexDigit (b.toNat % 16) :: rest) =
      if b = 63 then [63] else b :: unescapeFrom .usual rest := by
  have hb := b.toNat_lt
  have hhigh : hexValue (hexDigit (b.toNat / 16)) = some (b.toNat / 16) := hexValue_hexDigit (by omega)
  have hlow : hexValue (hexDigit (b.toNat % 16)) = some (b.toNat % 16) := hexValue_hexDigit (by omega)
  have hbyte : UInt8.ofNat (16 * (b.toNat / 16) + b.toNat % 16) = b := by
    rw [Nat.div_add_mod, UInt8.ofNat_toNat]
  rw [unescapeFrom, if_neg (by decide), if_pos rfl, unescapeFrom, hhigh]
  dsimp only
  rw [unescapeFrom, hlow]
  dsimp only
  rw [hbyte]

theorem ne_of_plainChar {b : UInt8} (h : plainChar b = true) : b ≠ 63 ∧ b ≠ 37 ∧ b ≠ 38 := by
  refine ⟨?_, ?_, ?_⟩
  all_goals
    rintro rfl
    revert h
    decide

theorem unescapeStr_urlEncodeAll (text : Bytes) : unescapeStr (urlEncodeAll text) = upToQuestion text := by
  induction text with
  | nil => rfl
  | cons b rest ih =>
    rw [unescapeStr] at ih
    rw [unescapeStr, urlEncodeAll, List.flatMap_cons, ← urlEncodeAll, urlEncodeItem, upToQuestion]
    split
    next hplain =>
      obtain ⟨hquestion, hpercent, -⟩ := ne_of_plainChar hplain
      rw [List.singleton_append, unescapeFrom, if_neg hquestion, if_neg hpercent, if_neg hquestion, ih]
    next =>
      rw [← ih]
      exact unescapeFrom_escaped b _

theorem length_urlEncodeItem (b : UInt8) : (urlEncodeItem b).length ≤ 3 := by
  rw [urlEncodeItem]
  split
  · exact (by decide : 1 ≤ 3)
  · exact Nat.le_refl 3

theorem urlEncodeUsed_le (dest : Nat) (text : Bytes) :
    urlEncodeUsed dest text ≤ dest + 3 * text.length + 1 := by
  induction text generalizing dest with
  | nil => exact Nat.le_refl _
  | cons b rest ih =>
    have hitem := length_urlEncodeItem b
    have hrest := ih (dest + (urlEncodeItem b).length)
    rw [urlEncodeUsed, List.length_cons, Nat.max_le]
    omega

theorem amp_not_mem_urlEncodeAll (text : Bytes) : 38 ∉ urlEncodeAll text := by
  intro h
  obtain ⟨b, -, hb⟩ := List.mem_flatMap.mp h
  have hlt := b.toNat_lt
  rw [urlEncodeItem] at hb
  split at hb
  next hplain => exact (ne_of_plainChar hplain).2.2 (List.mem_singleton.mp hb).symm
  next =>
    simp only [List.mem_cons, List.not_mem_nil, or_false] at hb
    rcases hb with hb | hb | hb
    · exact absurd hb (by decide)
    · exact hexDigit_ne (by omega) hb.symm
    · exact hexDigit_ne (by omega) hb.symm

/-! ### Queries -/

def printQuery : List (Bytes × Bytes) → Bytes
  | [] => []
  | [kv] => kv.1 ++ 61 :: kv.2
  | kv :: kvs => kv.1 ++ 61 :: kv.2 ++ 38 :: printQuery kvs

def pieces : Bytes → List Bytes
  | [] => [[]]
  | b :: rest =>
    if b = 38 then [] :: pieces rest
    else (b :: (pieces rest).headD []) :: (pieces rest).tail

def parseQuery (query : Bytes) : List (Bytes × Bytes) :=
  (pieces query).map fun piece => (piece.takeWhile (· ≠ 61), (piece.dropWhile (· ≠ 61)).tail)

def param (query name : Bytes) : Option Bytes :=
  (((parseQuery query).filter fun kv => kv.1 = name && kv.2 ≠ []).map Prod.snd).getLast?

theorem pieces_of_not_mem {piece : Bytes} (h : 38 ∉ piece) : pieces piece = [piece] := by
  induction piece with
  | nil => rfl
  | cons b rest ih =>
    rw [List.mem_cons, not_or] at h
    rw [pieces, if_neg fun hb => h.1 hb.symm, ih h.2]
    rfl

theorem pieces_append {piece : Bytes} (h : 38 ∉ piece) (rest : Bytes) :
    pieces (piece ++ 38 :: rest) = piece :: pieces rest := by
  induction piece with
  | nil => exact if_pos rfl
  | cons b piece ih =>
    rw [List.mem_cons, not_or] at h
    rw [List.cons_append, pieces, if_neg fun hb => h.1 hb.symm, ih h.2]
    rfl

def Printable (kv : Bytes × Bytes) : Prop := 38 ∉ kv.1 ∧ 61 ∉ kv.1 ∧ 38 ∉ kv.2

theorem amp_not_mem {kv : Bytes × Bytes} (h : Printable kv) : 38 ∉ kv.1 ++ 61 :: kv.2 := by
  rw [List.mem_append, List.mem_cons, not_or, not_or]
  exact ⟨h.1, by decide, h.2.2⟩

variable {kvs : List (Bytes × Bytes)}

theorem pieces_printQuery (hne : kvs ≠ []) (h : ∀ kv ∈ kvs, Printable kv) :
    pieces (printQuery kvs) = kvs.map fun kv => kv.1 ++ 61 :: kv.2 := by
  induction kvs with
  | nil => exact absurd rfl hne
  | cons kv rest ih =>
    obtain ⟨hkv, hrest⟩ := List.forall_mem_cons.mp h
    cases rest with
    | nil => exact pieces_of_not_mem (amp_not_mem hkv)
    | cons kv' rest =>
      rw [printQuery, pieces_append (amp_not_mem hkv), ih (List.cons_ne_nil _ _) hrest]
      · rfl
      · intro hnil
        cases hnil

theorem split_at_equals {kv : Bytes × Bytes} (h : Printable kv) :
    ((kv.1 ++ 61 :: kv.2).takeWhile (· ≠ 61), ((kv.1 ++ 61 :: kv.2).dropWhile (· ≠ 61)).tail) = kv := by
  have hname : ∀ b ∈ kv.1, decide (b ≠ 61) = true := by
    intro b hb
    apply decide_eq_true
    rintro rfl
    exact h.2.1 hb
  rw [List.takeWhile_append_of_pos hname, List.dropWhile_append_of_pos hname]
  simp

theorem parseQuery_printQuery (hne : kvs ≠ [])
    (h : ∀ kv ∈ kvs, Printable kv) : parseQuery (printQuery kvs) = kvs := by
  rw [parseQuery, pieces_printQuery hne h, List.map_map]
  conv_rhs => rw [← List.map_id kvs]
  apply List.map_congr_left
  intro kv hkv
  exact split_at_equals (h kv hkv)

theorem filter_param_eq_nil {name : Bytes} (h : name ∉ kvs.map Prod.fst) :
    kvs.filter (fun kv => kv.1 = name && kv.2 ≠ []) = [] := by
  apply List.filter_eq_nil_iff.mpr
  intro kv hkv htrue
  simp only [Bool.and_eq_true, decide_eq_true_eq] at htrue
  exact h (htrue.1 ▸ List.mem_map_of_mem hkv)

def given (text : Bytes) : Option Bytes := if text = [] then none else some text

theorem given_getD (text : Bytes) : (given text).getD [] = text := by
  by_cases h : text = [] <;> simp [given, h]

theorem param_printQuery (hne : kvs ≠ []) (hprintable : ∀ kv ∈ kvs, Printable kv)
    (hnodup : (kvs.map Prod.fst).Nodup) (name : Bytes) :
    param (printQuery kvs) name = (kvs.lookup name).bind given := by
  rw [param, parseQuery_printQuery hne hprintable]
  clear hne hprintable
  induction kvs with
  | nil => rfl
  | cons kv rest ih =>
    obtain ⟨hkv, hrest⟩ := List.nodup_cons.mp hnodup
    by_cases hname : name = kv.1
    · subst hname
      rw [List.filter_cons, filter_param_eq_nil hkv, List.lookup_cons, beq_self_eq_true]
      by_cases htext : kv.2 = [] <;> simp [given, htext]
    · rw [List.filter_cons_of_neg (by simp [Ne.symm hname]), ih hrest, List.lookup_cons, beq_false_of_ne hname]

/-! ### The daemon -/

inductive Verb
  | get | post
  deriving DecidableEq, Repr

structure Request where
  verb : Verb
  path : Bytes
  query : Bytes
  body : Bytes
  deriving DecidableEq, Repr

inductive Constructed
  | failed
  | expired
  | ready (request : Request) (buffers : List Buffer)
  deriving DecidableEq, Repr

def printNumber (z : Int) : Bytes := Decimal.print 20 z

def toLong (n : Nat) : Int := if n < 2 ^ 63 then n else (n : Int) - 2 ^ 64

def toInt8 (b : UInt8) : Int := if b.toNat < 128 then b.toNat else (b.toNat : Int) - 256

def pathAndQuery (f : Fields) (ttl : Nat) : Option (Bytes × List (Bytes × Bytes)) :=
  let key := (ascii "key", urlEncodeAll f.key)
  let ver := (ascii "ver", printNumber f.ver)
  let left := (ascii "ttl", printNumber ttl)
  let tb := (ascii "tb", f.tb)
  let score := (ascii "score", printNumber (toLong f.score))
  let opt := (ascii "opt", printNumber (toInt8 f.opt))
  let dup := (ascii "is_dup", ascii "true")
  match f.method.toNat with
  | 1 => some (ascii "/hustdb/put", [key, ver, left, dup])
  | 2 => some (ascii "/hustdb/del", [key, ver, dup])
  | 3 => some (ascii "/hustdb/hset", [key, ver, left, tb, dup])
  | 4 => some (ascii "/hustdb/hdel", [key, ver, tb, dup])
  | 5 => some (ascii "/hustdb/sadd", [ver, tb, dup])
  | 6 => some (ascii "/hustdb/srem", [key, ver, tb, dup])
  | 7 => some (ascii "/hustdb/zadd", [ver, tb, score, opt, dup])
  | 8 => some (ascii "/hustdb/zrem", [key, ver, tb, dup])
  | 17 => some (ascii "/husttb/put", [key, ver, tb, dup])
  | 18 => some (ascii "/husttb/update", [key, ver, tb, dup])
  | 19 => some (ascii "/husttb/delete", [key, ver, tb, dup])
  | _ => none

/-- The method and the body: the test for `SADD` and `ZADD` has an else branch that sets the method to
GET for every other one, also for those that the test before it has set to POST. -/
def verbAndBody (f : Fields) (data : Bytes) : Verb × Bytes :=
  let value := if f.method.toNat ∈ [1, 3, 17, 18] then data.drop f.headLen else []
  if f.method.toNat ∈ [5, 7] then (.post, f.key) else (.get, value)

def constructItem (currentTime : Nat) (line : Bytes) : Constructed :=
  match Base64.decode line with
  | none => .failed
  | some data =>
    let f := readFields data
    if f.ttl ≠ 0 ∧ f.ttl ≤ currentTime then .expired
    else if fastCrc32 f.key ≠ f.keyCrc then .failed
    else if f.tb ≠ [] ∧ fastCrc32 f.tb ≠ f.tbCrc then .failed
    else
      let (verb, body) := verbAndBody f data
      match pathAndQuery f (if f.ttl = 0 then 0 else f.ttl - currentTime) with
      | none => .failed
      | some (path, kvs) =>
        .ready ⟨verb, path, printQuery kvs, body⟩ [⟨2 * line.length, data.length⟩,
           ⟨3 * f.key.length + 1, urlEncodeUsed 0 f.key⟩,
           ⟨(urlEncodeAll f.key).length + 50, (printQuery kvs).length + 1⟩]

/-! ### The database -/

@[ext]
structure Meaning where
  verb : Verb
  path : Bytes
  key : Bytes
  tb : Option Bytes
  val : Bytes
  ver : Int
  score : Int
  ttl : Int
  deriving DecidableEq, Repr

def number (text : Option Bytes) : Int := ((text.bind Decimal.strtoll).map Prod.fst).getD 0

def takesTtl : Method → Bool
  | .put | .hset | .sadd | .zadd => true
  | _ => false

def Request.key (method : Method) (r : Request) : Bytes :=
  let text := (param r.query (ascii "key")).getD []
  match method with
  | .put | .del | .hset | .hdel => unescapeStr text
  | .sadd | .srem => if r.body = [] then text else r.body
  | .zadd | .zrem =>
    let key := if r.body = [] then text else r.body
    if r.verb = .post then key else unescapeStr key

def Request.meaning (method : Method) (r : Request) : Meaning where
  verb := r.verb
  path := r.path
  key := r.key method
  tb := if hasTb method then param r.query (ascii "tb") else none
  val :=
    match method with
    | .put | .hset => if r.body = [] then (param r.query (ascii "val")).getD [] else r.body
    | _ => []
  ver := number (param r.query (ascii "ver"))
  score := if method = .zadd then number (param r.query (ascii "score")) else 0
  ttl := if takesTtl method then number (param r.query (ascii "ttl")) else 0

def pathOf : Method → Bytes
  | .put => ascii "/hustdb/put"
  | .del => ascii "/hustdb/del"
  | .hset => ascii "/hustdb/hset"
  | .hdel => ascii "/hustdb/hdel"
  | .sadd => ascii "/hustdb/sadd"
  | .srem => ascii "/hustdb/srem"
  | .zadd => ascii "/hustdb/zadd"
  | .zrem => ascii "/hustdb/zrem"

def SyncOp.verb (op : SyncOp) : Verb :=
  match op.method with
  | .put | .hset | .sadd | .srem => .post
  | .del | .hdel => .get
  | .zadd | .zrem => if op.inBody then .post else .get

def SyncOp.meaning (op : SyncOp) (now currentTime : Nat) : Meaning where
  verb := op.verb
  path := pathOf op.method
  key := if op.inBody then op.key else unescapeStr op.key
  tb := if hasTb op.method ∧ op.tb ≠ [] then some op.tb else none
  val :=
    match op.method with
    | .put | .hset => op.val
    | _ => []
  ver := op.version
  score := if op.method = .zadd then op.score else 0
  ttl := if takesTtl op.method ∧ op.ttl ≠ 0 then ((now + op.ttl - currentTime : Nat) : Int) else 0

structure SyncOp.Valid (op : SyncOp) (now currentTime : Nat) : Prop where
  place : match op.method with
    | .sadd | .srem => op.inBody = true
    | .zadd | .zrem => True
    | _ => op.inBody = false
  body : op.inBody = true → op.key ≠ []
  keyText : op.inBody = false → 0 ∉ op.key
  tbText : 0 ∉ op.tb ∧ 38 ∉ op.tb
  len : 38 + op.key.length + op.tb.length < 2 ^ 32
  version : op.version < 2 ^ 32
  score : -2 ^ 63 ≤ op.score ∧ op.score < 2 ^ 63
  time : now + op.ttl < 2 ^ 32
  alive : op.ttl ≠ 0 → currentTime < now + op.ttl

/-! ### The request of a line -/

namespace SyncOp

variable {op : SyncOp} {now currentTime : Nat}

def left (op : SyncOp) (now currentTime : Nat) : Nat := if op.ttl = 0 then 0 else now + op.ttl - currentTime

def headTb (op : SyncOp) : Bytes := if hasTb op.method then op.tb else []

def replayParams (op : SyncOp) (ttl : Nat) : List (Bytes × Bytes) :=
  let key := (ascii "key", urlEncodeAll (cString op.key))
  let ver := (ascii "ver", printNumber op.version)
  let left := (ascii "ttl", printNumber ttl)
  let tb := (ascii "tb", op.tb)
  let score := (ascii "score", printNumber op.score)
  let opt := (ascii "opt", printNumber (toInt8 op.opt))
  let dup := (ascii "is_dup", ascii "true")
  match op.method with
  | .put => [key, ver, left, dup]
  | .del => [key, ver, dup]
  | .hset => [key, ver, left, tb, dup]
  | .hdel | .srem | .zrem => [key, ver, tb, dup]
  | .sadd => [ver, tb, dup]
  | .zadd => [ver, tb, score, opt, dup]

def replayVerbAndBody (op : SyncOp) : Verb × Bytes :=
  match op.method with
  | .sadd | .zadd => (.post, cString op.key)
  | .put | .hset => (.get, op.body)
  | _ => (.get, [])

def replayRequest (op : SyncOp) (now currentTime : Nat) : Request :=
  ⟨op.replayVerbAndBody.1, pathOf op.method, printQuery (op.replayParams (op.left now currentTime)),
    op.replayVerbAndBody.2⟩

def ChecksumsAgree (op : SyncOp) : Prop :=
  fastCrc32 (cString op.key) = ngxCrc (cString op.key) ∧ (op.headTb ≠ [] → fastCrc32 op.headTb = ngxCrc op.headTb)

theorem cString_of_not_mem {text : Bytes} (h : 0 ∉ text) : cString text = text := by
  apply List.takeWhile_eq_self_iff.mpr
  intro b hb
  apply decide_eq_true
  rintro rfl
  exact h hb

theorem cString_eq_iff {text : Bytes} : cString text = text ↔ 0 ∉ text := by
  constructor
  · intro h hmem
    have hall := List.takeWhile_eq_self_iff.mp h 0 hmem
    exact absurd hall (by decide)
  · exact cString_of_not_mem

section

variable (h : op.Valid now currentTime)
include h

theorem Valid.head_ttl : (op.head now).ttl = if op.ttl = 0 then 0 else now + op.ttl := by
  show (if op.ttl = 0 then 0 else (now + op.ttl) % 2 ^ 32) = _
  rw [Nat.mod_eq_of_lt h.time]

theorem Valid.head_tb : (op.head now).tb = op.headTb := by
  show (if hasTb op.method then cString op.tb else []) = _
  rw [cString_of_not_mem h.tbText.1, headTb]

theorem Valid.toLong_score : toLong (op.head now).score = op.score := by
  obtain ⟨hlo, hhi⟩ := h.score
  show toLong (op.score % 2 ^ 64).toNat = op.score
  rw [toLong]
  split
  · omega
  · omega

theorem Valid.fits : (op.head now).Fits := by
  constructor
  · have hkey : (cString op.key).length ≤ op.key.length := (List.takeWhile_sublist _).length_le
    have htb : op.headTb.length ≤ op.tb.length := by
      rw [headTb]
      split
      · exact Nat.le_refl _
      · exact Nat.zero_le _
    have hlen := h.len
    rw [Head.len, h.head_tb]
    show 38 + (cString op.key).length + op.headTb.length < 2 ^ 32
    omega
  · exact h.version
  · rw [h.head_ttl]
    have htime := h.time
    split
    · exact Nat.two_pow_pos 32
    · exact htime
  · show (op.score % 2 ^ 64).toNat < 2 ^ 64
    omega

theorem Valid.readFields_value : readFields (op.value now) =
      ⟨(op.head now).len, methodCode op.method, op.version, cString op.key, ngxCrc (cString op.key),
        (op.head now).ttl, op.headTb, ngxCrc op.headTb, (op.head now).score, op.opt⟩ := by
  rw [value, readFields_encodeHead h.fits, h.head_tb]
  rfl

theorem Valid.pathAndQuery_fields (ttl : Nat) :
    pathAndQuery (readFields (op.value now)) ttl = some (pathOf op.method, op.replayParams ttl) := by
  rw [h.readFields_value, pathAndQuery, h.toLong_score]
  obtain ⟨method, inBody, key, tb, val, version, ttl', score, opt⟩ := op
  cases method <;> rfl

theorem Valid.verbAndBody_fields : verbAndBody (readFields (op.value now)) (op.value now) = op.replayVerbAndBody := by
  have hbody : (op.value now).drop (op.head now).len = op.body := by
    rw [value, List.drop_left' (length_encodeHead _)]
  rw [h.readFields_value, verbAndBody]
  dsimp only
  rw [hbody]
  obtain ⟨method, inBody, key, tb, val, version, ttl', score, opt⟩ := op
  cases method <;> rfl

end

def daemonBuffers (op : SyncOp) (now currentTime : Nat) : List Buffer :=
  [⟨2 * (op.line now).length, (op.value now).length⟩,
   ⟨3 * (cString op.key).length + 1, urlEncodeUsed 0 (cString op.key)⟩,
   ⟨(urlEncodeAll (cString op.key)).length + 50, (op.replayRequest now currentTime).query.length + 1⟩]

section

variable (h : op.Valid now currentTime)
include h

theorem Valid.not_expired :
    ¬ ((readFields (op.value now)).ttl ≠ 0 ∧ (readFields (op.value now)).ttl ≤ currentTime) := by
  rw [h.readFields_value, h.head_ttl]
  dsimp only
  by_cases httl : op.ttl = 0
  · rw [if_pos httl]
    exact fun hboth => hboth.1 rfl
  · have halive := h.alive httl
    rw [if_neg httl]
    omega

theorem Valid.left_fields :
    (if (readFields (op.value now)).ttl = 0 then 0 else (readFields (op.value now)).ttl - currentTime) =
      op.left now currentTime := by
  rw [h.readFields_value, h.head_ttl, left]
  dsimp only
  by_cases httl : op.ttl = 0
  · rw [if_pos httl, if_pos httl, if_pos rfl]
  · have hpos : now + op.ttl ≠ 0 := by omega
    rw [if_neg httl, if_neg httl, if_neg hpos]

theorem Valid.checksums_fields : op.ChecksumsAgree ↔
      ¬ fastCrc32 (readFields (op.value now)).key ≠ (readFields (op.value now)).keyCrc ∧
      ¬ ((readFields (op.value now)).tb ≠ [] ∧
        fastCrc32 (readFields (op.value now)).tb ≠ (readFields (op.value now)).tbCrc) := by
  rw [h.readFields_value, ChecksumsAgree, not_ne_iff, not_and, not_ne_iff]

theorem Valid.constructItem_line (hagree : op.ChecksumsAgree) : constructItem currentTime (op.line now) =
      .ready (op.replayRequest now currentTime) (op.daemonBuffers now currentTime) := by
  obtain ⟨hkey, htb⟩ := h.checksums_fields.mp hagree
  have hkeyText : (readFields (op.value now)).key = cString op.key := by rw [h.readFields_value]
  rw [constructItem, line, writeLog, Base64.decode_encode]
  dsimp only
  rw [if_neg h.not_expired, if_neg hkey, if_neg htb, h.left_fields, h.pathAndQuery_fields,
    h.verbAndBody_fields, hkeyText]
  rfl

theorem Valid.constructItem_failed (hagree : ¬ op.ChecksumsAgree) :
    constructItem currentTime (op.line now) = .failed := by
  rw [h.checksums_fields, not_and] at hagree
  rw [constructItem, line, writeLog, Base64.decode_encode]
  dsimp only
  rw [if_neg h.not_expired]
  by_cases hkey : fastCrc32 (readFields (op.value now)).key ≠ (readFields (op.value now)).keyCrc
  · rw [if_pos hkey]
  · rw [if_neg hkey, if_pos (not_not.mp (hagree hkey))]

end

/-! ### What the database makes of it -/

theorem amp_not_mem_digits {w n : Nat} : 38 ∉ Decimal.digits w n := by
  intro h
  have hdigit := Decimal.isDigit_of_mem_digits h
  revert hdigit
  decide

theorem amp_not_mem_printNumber (z : Int) : 38 ∉ printNumber z := by
  rw [printNumber, Decimal.print]
  split
  · rw [List.mem_cons, not_or]
    exact ⟨by decide, amp_not_mem_digits⟩
  · exact amp_not_mem_digits

theorem printNumber_ne_nil {z : Int} (h : z.natAbs < 10 ^ 20) : printNumber z ≠ [] := by
  rw [printNumber, Decimal.print]
  split
  · exact List.cons_ne_nil _ _
  · exact Decimal.digits_ne_nil h

theorem number_printNumber {z : Int} (hlo : -2 ^ 63 ≤ z) (hhi : z < 2 ^ 63) :
    number (given (printNumber z)) = z := by
  have habs : z.natAbs < 10 ^ 20 := by omega
  rw [given, if_neg (printNumber_ne_nil habs), number, Option.bind_some, printNumber,
    Decimal.strtoll_print habs hlo hhi]
  rfl

theorem Valid.printable (h : op.Valid now currentTime) (ttl : Nat) : ∀ kv ∈ op.replayParams ttl, Printable kv := by
  have hprint (name : Bytes) (hname : 38 ∉ name ∧ 61 ∉ name) (text : Bytes) (htext : 38 ∉ text) :
      Printable (name, text) := ⟨hname.1, hname.2, htext⟩
  have hnumber (name : Bytes) (hname : 38 ∉ name ∧ 61 ∉ name) (z : Int) :
      Printable (name, printNumber z) := hprint name hname _ (amp_not_mem_printNumber z)
  have hkey := hprint (ascii "key") (by decide) _ (amp_not_mem_urlEncodeAll (cString op.key))
  have hver := hnumber (ascii "ver") (by decide) op.version
  have hleft := hnumber (ascii "ttl") (by decide) ttl
  have htb := hprint (ascii "tb") (by decide) op.tb h.tbText.2
  have hscore := hnumber (ascii "score") (by decide) op.score
  have hopt := hnumber (ascii "opt") (by decide) (toInt8 op.opt)
  have hdup := hprint (ascii "is_dup") (by decide) (ascii "true") (by decide)
  rw [replayParams]
  split
  all_goals simp only [List.forall_mem_cons, List.not_mem_nil, false_imp_iff, implies_true, hkey, hver,
    hleft, htb, hscore, hopt, hdup, and_self]

theorem nodup_replayParams (op : SyncOp) (ttl : Nat) : ((op.replayParams ttl).map Prod.fst).Nodup := by
  rw [replayParams]
  split
  all_goals
    simp only [List.map_cons, List.map_nil]
    decide

def Replayed (op : SyncOp) (now currentTime : Nat) : Prop :=
  ∃ request buffers, constructItem currentTime (op.line now) = .ready request buffers ∧
    request.meaning op.method = op.meaning now currentTime

/-- The writes whose line becomes the original request: deletions of keys that are sent without escapes,
and additions to sets and sorted sets without a ttl of keys without a zero byte. The checksums, of signed
and of unsigned characters, have to agree. -/
def Replayable (op : SyncOp) : Prop :=
  op.ChecksumsAgree ∧
    match op.method with
    | .put | .hset | .srem => False
    | .del | .hdel => unescapeStr op.key = upToQuestion op.key
    | .sadd => op.ttl = 0 ∧ 0 ∉ op.key
    | .zadd => op.inBody = true ∧ op.ttl = 0 ∧ 0 ∉ op.key
    | .zrem => op.inBody = false ∧ unescapeStr op.key = upToQuestion op.key

theorem replayed_iff (h : op.Valid now currentTime) : op.Replayed now currentTime ↔ op.ChecksumsAgree ∧
      (op.replayRequest now currentTime).meaning op.method = op.meaning now currentTime := by
  by_cases hagree : op.ChecksumsAgree
  · constructor
    · rintro ⟨request, buffers, hready, hmeaning⟩
      rw [h.constructItem_line hagree] at hready
      cases hready
      exact ⟨hagree, hmeaning⟩
    · rintro ⟨-, hmeaning⟩
      exact ⟨_, _, h.constructItem_line hagree, hmeaning⟩
  · constructor
    · rintro ⟨request, buffers, hready, -⟩
      rw [h.constructItem_failed hagree] at hready
      cases hready
    · rintro ⟨hagree', -⟩
      exact absurd hagree' hagree

theorem Valid.param_replayParams (h : op.Valid now currentTime) (ttl : Nat) (name : Bytes) :
    param (printQuery (op.replayParams ttl)) name = ((op.replayParams ttl).lookup name).bind given := by
  refine param_printQuery ?_ (h.printable ttl) (nodup_replayParams op ttl) name
  rw [replayParams]
  split <;> exact List.cons_ne_nil _ _

theorem ite_nil_self (body : Bytes) : (if body = [] then [] else body) = body := by
  split
  next hnil => exact hnil.symm
  next => rfl

def replayKey (op : SyncOp) : Bytes :=
  match op.method with
  | .put | .del | .hset | .hdel | .zrem => upToQuestion (cString op.key)
  | .sadd | .zadd => cString op.key
  | .srem => urlEncodeAll (cString op.key)

theorem lookup_key (op : SyncOp) (ttl : Nat) : (op.replayParams ttl).lookup (ascii "key") =
      if op.method = .sadd ∨ op.method = .zadd then none else some (urlEncodeAll (cString op.key)) := by
  rw [replayParams]
  cases op.method <;> rfl

theorem Valid.key_replayRequest (h : op.Valid now currentTime) :
    (op.replayRequest now currentTime).key op.method = op.replayKey := by
  unfold Request.key replayKey replayRequest
  dsimp only
  rw [h.param_replayParams, lookup_key, ← unescapeStr_urlEncodeAll]
  cases hm : op.method with
  | put | del | hset | hdel => simp [given_getD]
  | srem | zrem => simp [replayVerbAndBody, hm, given_getD]
  | sadd | zadd => simp [replayVerbAndBody, hm, ite_nil_self]

theorem Valid.ver_replayRequest (h : op.Valid now currentTime) (ttl : Nat) :
    number (param (printQuery (op.replayParams ttl)) (ascii "ver")) = op.version := by
  have hlookup : (op.replayParams ttl).lookup (ascii "ver") = some (printNumber op.version) := by
    rw [replayParams]
    cases op.method <;> rfl
  have hversion := h.version
  rw [h.param_replayParams, hlookup, Option.bind_some, number_printNumber]
  · omega
  · omega

theorem Valid.tb_replayRequest (h : op.Valid now currentTime) (ttl : Nat) :
    (if hasTb op.method then param (printQuery (op.replayParams ttl)) (ascii "tb") else none) =
      if hasTb op.method ∧ op.tb ≠ [] then some op.tb else none := by
  have hlookup : (op.replayParams ttl).lookup (ascii "tb") = if hasTb op.method then some op.tb else none := by
    rw [replayParams]
    cases op.method <;> rfl
  rw [h.param_replayParams, hlookup]
  by_cases hm : hasTb op.method = true
  · by_cases htb : op.tb = [] <;> simp [given, hm, htb]
  · rw [if_neg hm, if_neg fun hboth => hm hboth.1]

theorem Valid.score_replayRequest (h : op.Valid now currentTime) (ttl : Nat) :
    (if op.method = .zadd then number (param (printQuery (op.replayParams ttl)) (ascii "score")) else 0) =
      if op.method = .zadd then op.score else 0 := by
  rw [h.param_replayParams, replayParams]
  cases op.method with
  | zadd => exact number_printNumber h.score.1 h.score.2
  | put | del | hset | hdel | sadd | srem | zrem => rfl

def replayTtl (op : SyncOp) (now currentTime : Nat) : Nat :=
  match op.method with
  | .put | .hset => op.left now currentTime
  | _ => 0

section

variable (h : op.Valid now currentTime)
include h

theorem Valid.ttl_replayRequest : (if takesTtl op.method then
      number (param (printQuery (op.replayParams (op.left now currentTime))) (ascii "ttl")) else 0) =
      op.replayTtl now currentTime := by
  have hleft : op.left now currentTime < 2 ^ 32 := by
    have htime := h.time
    rw [left]
    split
    · exact Nat.two_pow_pos 32
    · omega
  rw [h.param_replayParams, replayTtl, replayParams]
  cases op.method with
  | put | hset => exact number_printNumber (by omega) (by omega)
  | del | hdel | sadd | srem | zadd | zrem => rfl

theorem Valid.val_replayRequest :
    ((op.replayRequest now currentTime).meaning op.method).val = (op.meaning now currentTime).val := by
  have hlookup : (op.replayParams (op.left now currentTime)).lookup (ascii "val") = none := by
    rw [replayParams]
    cases op.method <;> rfl
  have hplace := h.place
  unfold Request.meaning meaning replayRequest
  dsimp only
  rw [h.param_replayParams, hlookup]
  cases hm : op.method with
  | put | hset =>
    rw [hm] at hplace
    have hbody : op.body = op.val := by
      rw [SyncOp.body, hplace]
      rfl
    simp [replayVerbAndBody, hm, hbody, ite_nil_self]
  | del | hdel | sadd | srem | zadd | zrem => rfl

theorem Valid.meaning_replayRequest : (op.replayRequest now currentTime).meaning op.method =
      { op.meaning now currentTime with
        verb := op.replayVerbAndBody.1, key := op.replayKey, ttl := op.replayTtl now currentTime } := by
  apply Meaning.ext
  · rfl
  · rfl
  · exact h.key_replayRequest
  · exact h.tb_replayRequest _
  · exact h.val_replayRequest
  · exact h.ver_replayRequest _
  · exact h.score_replayRequest _
  · exact h.ttl_replayRequest

theorem replayed_iff_fields : op.Replayed now currentTime ↔ op.ChecksumsAgree ∧ op.replayVerbAndBody.1 = op.verb ∧
      op.replayKey = (op.meaning now currentTime).key ∧
      (op.replayTtl now currentTime : Int) = (op.meaning now currentTime).ttl := by
  rw [replayed_iff h, h.meaning_replayRequest, Meaning.ext_iff]
  simp only [true_and]
  exact Iff.rfl

theorem Valid.ttl_eq_zero_iff (hm : takesTtl op.method = true) :
    (0 : Int) = (op.meaning now currentTime).ttl ↔ op.ttl = 0 := by
  unfold meaning
  dsimp only
  by_cases httl : op.ttl = 0
  · rw [if_neg fun hboth => hboth.2 httl]
    exact iff_of_true rfl httl
  · have halive := h.alive httl
    rw [if_pos ⟨hm, httl⟩]
    omega

end

theorem meaning_ttl_of_not_takes (hm : takesTtl op.method = false) : (op.meaning now currentTime).ttl = 0 := by
  apply if_neg
  rw [hm]
  exact fun hboth => absurd hboth.1 (by decide)

theorem Valid.unescaped_iff (h : op.Valid now currentTime) (hbody : op.inBody = false) :
    upToQuestion (cString op.key) = (op.meaning now currentTime).key ↔ unescapeStr op.key = upToQuestion op.key := by
  have hkey : (op.meaning now currentTime).key = unescapeStr op.key := by
    unfold meaning
    rw [hbody]
    rfl
  rw [hkey, cString_of_not_mem (h.keyText hbody)]
  exact eq_comm

theorem cut_iff (hbody : op.inBody = true) : cString op.key = (op.meaning now currentTime).key ↔ 0 ∉ op.key := by
  have hkey : (op.meaning now currentTime).key = op.key := by
    unfold meaning
    rw [hbody]
    rfl
  rw [hkey, cString_eq_iff]

theorem replayed_iff_replayable (h : op.Valid now currentTime) :
    op.Replayed now currentTime ↔ op.Replayable := by
  rw [replayed_iff_fields h, Replayable]
  apply and_congr_right
  intro _
  have hplace := h.place
  unfold replayVerbAndBody verb replayKey replayTtl
  cases hm : op.method with
  | put | hset | srem => simp
  | del | hdel =>
    rw [hm] at hplace
    have hnone : takesTtl op.method = false := by rw [hm]; rfl
    simp [h.unescaped_iff hplace, meaning_ttl_of_not_takes hnone]
  | sadd =>
    rw [hm] at hplace
    have htakes : takesTtl op.method = true := by rw [hm]; rfl
    have httl := h.ttl_eq_zero_iff htakes
    simp [cut_iff hplace, httl, and_comm]
  | zadd =>
    have htakes : takesTtl op.method = true := by rw [hm]; rfl
    have httl := h.ttl_eq_zero_iff htakes
    cases hbody : op.inBody with
    | false => simp
    | true => simp [cut_iff hbody, httl, and_comm]
  | zrem =>
    have hnone : takesTtl op.method = false := by rw [hm]; rfl
    cases hbody : op.inBody with
    | false => simp [h.unescaped_iff hbody, meaning_ttl_of_not_takes hnone]
    | true => simp

/-! ### Buffers -/

def buffers (op : SyncOp) (now currentTime : Nat) : List Buffer :=
  [⟨(op.head now).len + 1, (encodeHead (op.head now)).length⟩, writeLogBuffer (op.value now)] ++
    match constructItem currentTime (op.line now) with
    | .ready _ buffers => buffers
    | _ => []

theorem fits_daemonBuffers_iff (op : SyncOp) (now currentTime : Nat) :
    (∀ buffer ∈ op.daemonBuffers now currentTime, buffer.Fits) ↔
      (op.replayRequest now currentTime).query.length < (urlEncodeAll (cString op.key)).length + 50 := by
  have hdecoded : (op.value now).length ≤ 2 * (op.line now).length := by
    rw [line, writeLog, Base64.length_encode]
    omega
  have hescaped := urlEncodeUsed_le 0 (cString op.key)
  simp only [daemonBuffers, List.forall_mem_cons, List.not_mem_nil, false_imp_iff, implies_true, and_true,
    Buffer.Fits]
  omega

end SyncOp

/-- No write is replayed without a buffer being written past its end: the log always does. The request
alone is the original one exactly for the replayable writes, and the daemon stays within its buffers
exactly if the query is shorter than the escaped key and 50 characters. -/
theorem replay_never_faithful (op : SyncOp) (now currentTime : Nat) (h : op.Valid now currentTime) :
    ¬ (op.Replayed now currentTime ∧ ∀ buffer ∈ op.buffers now currentTime, buffer.Fits) ∧
    (op.Replayed now currentTime ↔ op.Replayable) ∧
    ((∀ buffer ∈ op.daemonBuffers now currentTime, buffer.Fits) ↔
      (op.replayRequest now currentTime).query.length < (urlEncodeAll (cString op.key)).length + 50) := by
  refine ⟨?_, SyncOp.replayed_iff_replayable h, SyncOp.fits_daemonBuffers_iff op now currentTime⟩
  rintro ⟨-, hfits⟩
  have hlog : writeLogBuffer (op.value now) ∈ op.buffers now currentTime := by
    rw [SyncOp.buffers]
    simp
  exact not_fits_writeLogBuffer _ (hfits _ hlog)

def delA : SyncOp := ⟨.del, false, ascii "a", [], [], 3, 0, 0, 0⟩

theorem valid_delA : delA.Valid 1000 1001 where
  place := rfl
  body := by decide
  keyText := by decide
  tbText := by decide
  len := by decide
  version := by decide
  score := by decide
  time := by decide
  alive := by decide

/-- The deletion becomes the original request, but the log is written past the end of its buffer. -/
theorem replay_never_faithful_del : delA.Replayed 1000 1001 ∧ ¬ ∀ buffer ∈ delA.buffers 1000 1001, buffer.Fits := by
  obtain ⟨hnever, hiff, -⟩ := replay_never_faithful delA 1000 1001 valid_delA
  have hreplayed : delA.Replayed 1000 1001 := hiff.mpr ⟨⟨by decide, by decide⟩, rfl⟩
  exact ⟨hreplayed, fun hfits => hnever ⟨hreplayed, hfits⟩⟩

/-- A put becomes a GET, its key is escaped twice, and the line is written past the end of its buffer. -/
theorem put_replayed_as_get :
    let op : SyncOp := ⟨.put, false, ascii "%61", [], ascii "v", 3, 0, 0, 0⟩
    constructItem 1001 (op.line 1000) =
      .ready ⟨.get, ascii "/hustdb/put", ascii "key=%2561&ver=3&ttl=0&is_dup=true", ascii "v"⟩
        [⟨112, 42⟩, ⟨10, 8⟩, ⟨55, 34⟩] ∧
    writeLogBuffer (op.value 1000) = ⟨57, 58⟩ := by
  decide +kernel

end HustStore.Sync
