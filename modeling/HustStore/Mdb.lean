import HustStore.Base

/-!
# The memory cache

`mdb_t` and the commands of the memcached library behind it. An item carries the value, the version and the
compression type of a record, and the time at which it expires.
-/

namespace HustStore

def mdbKeyLen : Nat := 255

def mdbValLen : Nat := 1048571

def realtimeMaxdelta : Nat := 2592000

structure MdbItem where
  value : Bytes
  version : Nat
  compressType : Nat
  exptime : Nat
  deriving DecidableEq, Repr

structure Mdb where
  started : Nat
  items : Bytes → Option MdbItem

namespace Mdb

def create (started : Nat) : Mdb := ⟨started, fun _ => none⟩

def realtime (m : Mdb) (now exptime : Nat) : Nat :=
  if exptime = 0 then 0
  else if exptime > realtimeMaxdelta then
    if exptime ≤ m.started then 1 else exptime - m.started
  else exptime + (now - m.started)

def exptimeOf (m : Mdb) (now ttl : Nat) : Nat :=
  m.realtime now (if ttl % 2 ^ 32 < 2 ^ 31 then ttl % 2 ^ 32 else realtimeMaxdelta + 1)

def Alive (m : Mdb) (now : Nat) (item : MdbItem) : Prop :=
  item.exptime = 0 ∨ now - m.started < item.exptime

instance (m : Mdb) (now : Nat) (item : MdbItem) : Decidable (m.Alive now item) :=
  inferInstanceAs (Decidable (_ ∨ _))

def get (m : Mdb) (now : Nat) (key : Bytes) : Option MdbItem :=
  (m.items key).filter fun item => m.Alive now item

def put (m : Mdb) (now : Nat) (key value : Bytes) (version compressType ttl : Nat) : Mdb :=
  let item := ⟨value, version % 2 ^ 22, compressType % 2 ^ 2, m.exptimeOf now ttl⟩
  { m with items := assign m.items key (some item) }

def del (m : Mdb) (key : Bytes) : Mdb := { m with items := assign m.items key none }

def evict (m : Mdb) (key : Bytes) : Mdb := m.del key

end Mdb

end HustStore
