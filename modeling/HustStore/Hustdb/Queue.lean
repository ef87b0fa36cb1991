import HustStore.Hustdb.Server

/-!
# The messages of the queues

The part of `hustmq_put`, `hustmq_get` and `hustmq_ack` that goes to the store. The body of a message is a
record without a table, under a key made of the queue, the priority and the tag.
-/

namespace HustStore

open Md5db

def cycleQueueItemNum : Nat := 11000000

def queueKey (queue : Bytes) (priori tag : Nat) : Bytes :=
  queue ++ ascii "|" ++ Decimal.print 10 priori ++ ascii ":" ++ Decimal.print 10 tag

namespace Hustdb

variable (md5 : Bytes → InnerKey)

def messagePut (s : Hustdb) (queue : Bytes) (priori tag : Nat) (item : Bytes) : Rc × Hustdb :=
  if !tbNameCheck queue ∨ item = [] ∨ priori > 2 then (.err .EKEYREJECTED, s)
  else if s.overThreshold then (.err .ENOMEM, s)
  else
    let (reply, storage) := s.storage.put md5 (s.query [] 0 0) (queueKey queue priori tag) item 0 false
    (reply.r, { s with storage })

def messageGet (s : Hustdb) (queue : Bytes) (priori tag : Nat) : Rc × Bytes :=
  if !tbNameCheck queue then (.err .EKEYREJECTED, [])
  else
    let reply := s.storage.get md5 (s.query [] 0 0) (queueKey queue priori tag)
    (reply.r, reply.rsp)

def messageAck (s : Hustdb) (queue : Bytes) (priori tag : Nat) : Rc × Hustdb :=
  if !tbNameCheck queue then (.err .EKEYREJECTED, s)
  else
    let (reply, storage) := s.storage.del md5 (s.query [] 0 0) (queueKey queue priori tag) 0 false
    (reply.r, { s with storage })

end Hustdb

end HustStore
