import HustStore.Md5db.Bucket

/-!
# The digest function

MD5 as `utils/md5.cpp` computes it. The store takes its digest function as a parameter; this module
supplies the real one, so that concrete histories are histories of the real server.
-/

namespace HustStore.Md5

open Md5db (InnerKey)

def word : Nat := 2 ^ 32

def complement (x : Nat) : Nat := 0xFFFFFFFF - x

def f (x y z : Nat) : Nat := x &&& y ||| complement x &&& z

def g (x y z : Nat) : Nat := x &&& z ||| y &&& complement z

def h (x y z : Nat) : Nat := x ^^^ y ^^^ z

def i (x y z : Nat) : Nat := y ^^^ (x ||| complement z)

def rotateLeft (x n : Nat) : Nat := (x <<< n) % word ||| x >>> (32 - n)

structure Buf where
  a : Nat
  b : Nat
  c : Nat
  d : Nat
  deriving DecidableEq, Repr

def step (mix : Nat → Nat → Nat → Nat) (input : List Nat) (buf : Buf) (row : Nat × Nat × Nat) : Buf :=
  let (k, s, ac) := row
  let a := (buf.a + mix buf.b buf.c buf.d + input.getD k 0 + ac) % word
  ⟨buf.d, (rotateLeft a s + buf.b) % word, buf.b, buf.c⟩

def round1 : List (Nat × Nat × Nat) := [
    (0, 7, 3614090360), (1, 12, 3905402710), (2, 17, 606105819), (3, 22, 3250441966),
    (4, 7, 4118548399), (5, 12, 1200080426), (6, 17, 2821735955), (7, 22, 4249261313),
    (8, 7, 1770035416), (9, 12, 2336552879), (10, 17, 4294925233), (11, 22, 2304563134),
    (12, 7, 1804603682), (13, 12, 4254626195), (14, 17, 2792965006), (15, 22, 1236535329) ]

def round2 : List (Nat × Nat × Nat) := [
    (1, 5, 4129170786), (6, 9, 3225465664), (11, 14, 643717713), (0, 20, 3921069994),
    (5, 5, 3593408605), (10, 9, 38016083), (15, 14, 3634488961), (4, 20, 3889429448),
    (9, 5, 568446438), (14, 9, 3275163606), (3, 14, 4107603335), (8, 20, 1163531501),
    (13, 5, 2850285829), (2, 9, 4243563512), (7, 14, 1735328473), (12, 20, 2368359562) ]

def round3 : List (Nat × Nat × Nat) := [
    (5, 4, 4294588738), (8, 11, 2272392833), (11, 16, 1839030562), (14, 23, 4259657740),
    (1, 4, 2763975236), (4, 11, 1272893353), (7, 16, 4139469664), (10, 23, 3200236656),
    (13, 4, 681279174), (0, 11, 3936430074), (3, 16, 3572445317), (6, 23, 76029189),
    (9, 4, 3654602809), (12, 11, 3873151461), (15, 16, 530742520), (2, 23, 3299628645) ]

def round4 : List (Nat × Nat × Nat) := [
    (0, 6, 4096336452), (7, 10, 1126891415), (14, 15, 2878612391), (5, 21, 4237533241),
    (12, 6, 1700485571), (3, 10, 2399980690), (10, 15, 4293915773), (1, 21, 2240044497),
    (8, 6, 1873313359), (15, 10, 4264355552), (6, 15, 2734768916), (13, 21, 1309151649),
    (4, 6, 4149444226), (11, 10, 3174756917), (2, 15, 718787259), (9, 21, 3951481745) ]

def transform (buf : Buf) (input : List Nat) : Buf :=
  let r1 := round1.foldl (step f input) buf
  let r2 := round2.foldl (step g input) r1
  let r3 := round3.foldl (step h input) r2
  let r4 := round4.foldl (step i input) r3
  ⟨(buf.a + r4.a) % word, (buf.b + r4.b) % word, (buf.c + r4.c) % word, (buf.d + r4.d) % word⟩

def words : Bytes → List Nat
  | b0 :: b1 :: b2 :: b3 :: rest => word32 b0 b1 b2 b3 :: words rest
  | _ => []

def pad (data : Bytes) : Bytes :=
  let mdi := data.length % 64
  let padLen := if mdi < 56 then 56 - mdi else 120 - mdi
  let bits := data.length * 8
  data ++ 0x80 :: List.replicate (padLen - 1) 0 ++ le32 bits ++ le32 (bits / word)

def update : Nat → Buf → List Nat → Buf
  | 0, buf, _ => buf
  | n + 1, buf, input => update n (transform buf (input.take 16)) (input.drop 16)

def init : Buf := ⟨0x67452301, 0xefcdab89, 0x98badcfe, 0x10325476⟩

def md5 (data : Bytes) : InnerKey :=
  if data = [] then 0
  else
    let message := words (pad data)
    let buf := update (message.length / 16) init message
    .ofNat 128 (buf.a + buf.b * word + buf.c * word ^ 2 + buf.d * word ^ 3)

end HustStore.Md5
