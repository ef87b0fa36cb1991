import HustStore.Base
import HustStore.Ha.Write
import HustStore.Lib.Base64
import Mathlib.Data.List.Induction

/-!
# The lines of the sync log

A write that one master has missed, while no other one can keep a record of it, is put into the log of the front
end: a head with the fields of the write, the body of the request behind it, all in base64.
-/

namespace HustStore.Sync

open Ha (Method)

/-! ### Checksums -/

def rotate (sum : Nat) : Nat := sum / 2 + sum % 2 * 2 ^ 31

def ngxCrc (data : Bytes) : Nat := data.foldl (fun sum b => (rotate sum + b.toNat) % 2 ^ 32) 0

def signedChar (b : UInt8) : Nat := if b.toNat < 128 then b.toNat else b.toNat + (2 ^ 32 - 256)

def fastCrc32 (data : Bytes) : Nat := data.foldl (fun sum b => (rotate sum + signedChar b) % 2 ^ 32) 0

theorem ngxCrc_lt (data : Bytes) : ngxCrc data < 2 ^ 32 := by
  rcases List.eq_nil_or_concat data with rfl | ⟨init, b, rfl⟩
  · exact Nat.two_pow_pos 32
  · rw [ngxCrc, List.concat_eq_append, List.foldl_append, List.foldl_cons, List.foldl_nil]
    exact Nat.mod_lt _ (Nat.two_pow_pos 32)

/-! ### The head -/

def le64 (n : Nat) : Bytes := le32 n ++ le32 (n / 2 ^ 32)

structure Head where
  method : UInt8
  ver : Nat
  key : Bytes
  ttl : Nat
  tb : Bytes
  score : Nat
  opt : UInt8
  deriving DecidableEq, Repr

def Head.len (head : Head) : Nat := 38 + head.key.length + head.tb.length

def encodeHead (head : Head) : Bytes :=
  le32 head.len ++ ([head.method] ++ (le32 head.ver ++ (le32 head.key.length ++ (head.key ++
    (le32 (ngxCrc head.key) ++ (le32 head.ttl ++ (le32 head.tb.length ++ (head.tb ++
      (le32 (ngxCrc head.tb) ++ (le64 head.score ++ [head.opt]))))))))))

structure Fields where
  headLen : Nat
  method : UInt8
  ver : Nat
  key : Bytes
  keyCrc : Nat
  ttl : Nat
  tb : Bytes
  tbCrc : Nat
  score : Nat
  opt : UInt8
  deriving DecidableEq, Repr

def read32 (pos : Bytes) : Nat × Bytes := (readLe32 pos, pos.drop 4)

def read64 (pos : Bytes) : Nat × Bytes :=
  let (low, pos) := read32 pos
  let (high, pos) := read32 pos
  (low + 2 ^ 32 * high, pos)

def readFields (pos : Bytes) : Fields :=
  let (headLen, pos) := read32 pos
  let (method, pos) := (pos.headD 0, pos.drop 1)
  let (ver, pos) := read32 pos
  let (keyLen, pos) := read32 pos
  let (key, pos) := (pos.take keyLen, pos.drop keyLen)
  let (keyCrc, pos) := read32 pos
  let (ttl, pos) := read32 pos
  let (tbLen, pos) := read32 pos
  let (tb, pos) := (pos.take tbLen, pos.drop tbLen)
  let (tbCrc, pos) := read32 pos
  let (score, pos) := read64 pos
  ⟨headLen, method, ver, key, keyCrc, ttl, tb, tbCrc, score, pos.headD 0⟩

theorem read32_le32 (n : Nat) (rest : Bytes) : read32 (le32 n ++ rest) = (n % 2 ^ 32, rest) := by
  rw [read32, readLe32_le32_append, List.drop_left' (length_le32 n)]

theorem read64_le64 (n : Nat) (rest : Bytes) : read64 (le64 n ++ rest) = (n % 2 ^ 64, rest) := by
  rw [read64, le64, List.append_assoc, read32_le32]
  dsimp only
  rw [read32_le32]
  dsimp only
  congr 1
  omega

structure Head.Fits (head : Head) : Prop where
  len : head.len < 2 ^ 32
  ver : head.ver < 2 ^ 32
  ttl : head.ttl < 2 ^ 32
  score : head.score < 2 ^ 64

theorem readFields_encodeHead {head : Head} (h : head.Fits) (rest : Bytes) : readFields (encodeHead head ++ rest) =
      ⟨head.len, head.method, head.ver, head.key, ngxCrc head.key, head.ttl, head.tb, ngxCrc head.tb,
        head.score, head.opt⟩ := by
  have hkey : head.key.length < 2 ^ 32 := by
    have hlen := h.len
    rw [Head.len] at hlen
    omega
  have htb : head.tb.length < 2 ^ 32 := by
    have hlen := h.len
    rw [Head.len] at hlen
    omega
  simp only [readFields, encodeHead, List.append_assoc, read32_le32, read64_le64, List.cons_append, List.nil_append,
    List.headD_cons, List.drop_succ_cons, List.drop_zero, Nat.mod_eq_of_lt hkey, Nat.mod_eq_of_lt htb,
    List.take_left, List.drop_left, Nat.mod_eq_of_lt h.len, Nat.mod_eq_of_lt h.ver,
    Nat.mod_eq_of_lt h.ttl, Nat.mod_eq_of_lt h.score, Nat.mod_eq_of_lt (ngxCrc_lt head.key),
    Nat.mod_eq_of_lt (ngxCrc_lt head.tb)]

theorem length_encodeHead (head : Head) : (encodeHead head).length = head.len := by
  simp only [encodeHead, le64, List.length_append, length_le32, List.length_singleton, Head.len]
  omega

/-! ### The log -/

structure Buffer where
  size : Nat
  used : Nat
  deriving DecidableEq, Repr

def Buffer.Fits (buffer : Buffer) : Prop := buffer.used ≤ buffer.size

def cString (data : Bytes) : Bytes := data.takeWhile (· ≠ 0)

def writeLog (value : Bytes) : Bytes := Base64.encode value

def writeLogBuffer (value : Bytes) : Buffer :=
  let dstLen := (value.length + 2) / 3 * 4 + 1
  ⟨dstLen, max (dstLen + 1) (Base64.encode value).length⟩

theorem not_fits_writeLogBuffer (value : Bytes) : ¬ (writeLogBuffer value).Fits := by
  intro h
  have hused := (Nat.le_max_left _ _).trans h
  exact Nat.not_succ_le_self _ hused

def methodCode : Method → UInt8
  | .put => 1
  | .del => 2
  | .hset => 3
  | .hdel => 4
  | .sadd => 5
  | .srem => 6
  | .zadd => 7
  | .zrem => 8

def hasTb : Method → Bool
  | .put | .del => false
  | _ => true

/-- A write as the front end has it: the key is a parameter as it stands in the request or the body, the
table is a parameter as it stands there, and the version comes from the master that took the write. -/
structure SyncOp where
  method : Method
  /-- The key is the body of the request. -/
  inBody : Bool
  key : Bytes
  tb : Bytes
  val : Bytes
  version : Nat
  ttl : Nat
  score : Int
  opt : UInt8

def SyncOp.head (op : SyncOp) (now : Nat) : Head where
  method := methodCode op.method
  ver := op.version
  key := cString op.key
  ttl := if op.ttl = 0 then 0 else (now + op.ttl) % 2 ^ 32
  tb := if hasTb op.method then cString op.tb else []
  score := (op.score % 2 ^ 64).toNat
  opt := op.opt

def SyncOp.body (op : SyncOp) : Bytes := if op.inBody then op.key else op.val

def SyncOp.value (op : SyncOp) (now : Nat) : Bytes := encodeHead (op.head now) ++ op.body

def SyncOp.line (op : SyncOp) (now : Nat) : Bytes := writeLog (op.value now)

end HustStore.Sync
