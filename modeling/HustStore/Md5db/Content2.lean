import HustStore.Lib.Chain
import HustStore.Base
import Mathlib.Order.Interval.Set.Basic
import Mathlib.Data.Set.Lattice
import Mathlib.Order.CompletePartialOrder

/-!
# Content files

A content file keeps the records in runs of 1024-byte pages. Page 0 is never used.
-/

namespace HustStore.Md5db

def page : Nat := 1024

def freeBlockIncr : Nat := 8388608

def freeBlockFileMaxSize : Nat := 2147483648

def dataFileMaxSize : Nat := 274876858368

structure FreeBlock where
  offset : Nat
  size : Nat
  deriving DecidableEq, Repr

structure Content2 where
  data : Nat → UInt8
  dataFileSize : Nat
  freeBlockFileSize : Nat
  header : Nat
  cache : Nat → FreeBlock
  freeBlockMax : Nat
  freeBlockList : List Nat

def pageCount (dataLen : Nat) : Nat :=
  if dataLen % page > 0 then dataLen / page + 1 else dataLen / page

def tailLen (dataLen : Nat) : Nat :=
  if dataLen % page > 0 then page - dataLen % page else dataLen % page

def pwrite (data : Nat → UInt8) (bytes : Bytes) (offset : Nat) : Nat → UInt8 :=
  fun i => if offset ≤ i ∧ i < offset + bytes.length then bytes.getD (i - offset) 0 else data i

def pread (data : Nat → UInt8) (len offset : Nat) : Bytes :=
  (List.range len).map fun i => data (offset + i)

namespace Content2

def setBlock (c : Content2) (i : Nat) (block : FreeBlock) : Content2 :=
  { c with cache := assign c.cache i block }

def insertBy (key : Nat → Nat) (i : Nat) : List Nat → List Nat
  | [] => [i]
  | j :: rest => if key i < key j then i :: j :: rest else j :: insertBy key i rest

def insertFree (c : Content2) (i : Nat) : Content2 :=
  { c with freeBlockList := insertBy (fun j => (c.cache j).size) i c.freeBlockList }

def parseSlot (c : Content2) (merge : List Nat) (i : Nat) : Content2 × List Nat :=
  let block := c.cache i
  if block.offset > 0 ∧ block.size > 0 then
    (c, insertBy (fun j => (c.cache j).offset) i merge)
  else if block.offset = 0 then
    ({ c.setBlock i { block with offset := c.header } with header := i }, merge)
  else (c, merge)

def parseSlots : Nat → Content2 → List Nat → Content2 × List Nat
  | 0, c, merge => (c, merge)
  | n + 1, c, merge =>
    let (c, merge) := parseSlot c merge ((n + 1) * 8)
    parseSlots n c merge

def mergeBlocks (c : Content2) : Option Nat → List Nat → Content2
  | none, [] => c
  | some prev, [] => c.insertFree prev
  | none, curr :: rest => mergeBlocks c (some curr) rest
  | some prev, curr :: rest =>
    let p := c.cache prev
    let b := c.cache curr
    if p.offset + p.size = b.offset then
      let c := (c.setBlock prev { p with size := p.size + b.size }).setBlock curr ⟨c.header, 0⟩
      mergeBlocks { c with header := curr } (some prev) rest
    else mergeBlocks (c.insertFree prev) (some curr) rest

def parseFreeBlock (c : Content2) : Content2 :=
  let c := if c.header = 0 then { c with header := freeBlockFileMaxSize } else c
  let (c, merge) := parseSlots (c.freeBlockFileSize / 8 - 1) c []
  mergeBlocks { c with freeBlockList := [] } none merge

def zeroed : Content2 where
  data := fun _ => 0
  dataFileSize := page
  freeBlockFileSize := freeBlockIncr
  header := 0
  cache := fun _ => ⟨0, 0⟩
  freeBlockMax := 0
  freeBlockList := []

def create : Content2 where
  data := fun _ => 0
  dataFileSize := page
  freeBlockFileSize := freeBlockIncr
  header := 8
  cache := fun i =>
    if i % 8 = 0 ∧ 8 ≤ i ∧ i < freeBlockIncr then
      ⟨if i + 8 = freeBlockIncr then freeBlockFileMaxSize else i + 8, 0⟩
    else ⟨0, 0⟩
  freeBlockMax := 0
  freeBlockList := []

def incrFreeBlockFile (c : Content2) : Option Content2 :=
  if c.freeBlockFileSize ≥ freeBlockFileMaxSize then none
  else
    some (parseFreeBlock { c with
      freeBlockFileSize := c.freeBlockFileSize + freeBlockIncr
      cache := fun i => if i < c.freeBlockFileSize then c.cache i else ⟨0, 0⟩ })

def useFreeBlock (c : Content2) (size : Nat) : Option (Nat × Content2) :=
  if c.freeBlockMax < size then none
  else
    let fbSize := (size + (2 ^ 32 - 1)) % 2 ^ 32
    match c.freeBlockList.find? fun i => fbSize < (c.cache i).size with
    | none => none
    | some i =>
      let block := c.cache i
      let c' : Content2 :=
        if size = block.size then { c.setBlock i ⟨c.header, 0⟩ with header := i }
        else c.setBlock i ⟨block.offset + size, block.size - size⟩
      let c' := { c' with freeBlockList := c.freeBlockList.erase i }
      let c' := if (c'.cache i).size > 0 then c'.insertFree i else c'
      some (block.offset, { c' with
        freeBlockMax := match c'.freeBlockList.getLast? with
          | some j => (c'.cache j).size
          | none => 0 })

def pushFreeBlock (c : Content2) (size offset : Nat) : Content2 :=
  let i := c.header
  let c := { c.setBlock i ⟨offset, size⟩ with header := (c.cache i).offset }
  let c := c.insertFree i
  { c with freeBlockMax := if c.freeBlockMax < size then size else c.freeBlockMax }

def addFreeBlock (c : Content2) (size offset : Nat) : Option Content2 :=
  if c.header = freeBlockFileMaxSize then
    c.incrFreeBlockFile.map fun c => c.pushFreeBlock size offset
  else some (c.pushFreeBlock size offset)

def writeInner (c : Content2) (data : Bytes) : Nat × Content2 :=
  match c.useFreeBlock (pageCount data.length) with
  | some (offset, c) => (offset, { c with data := pwrite c.data data (offset * page) })
  | none =>
    let end1 := c.dataFileSize + data.length
    let tail := tailLen data.length
    (c.dataFileSize / page, { c with
        data := pwrite (pwrite c.data data c.dataFileSize) (List.replicate tail 0) end1
        dataFileSize := end1 + tail })

def write (c : Content2) (data : Bytes) : Option (Nat × Content2) :=
  if c.dataFileSize > dataFileMaxSize ∧ c.freeBlockMax < pageCount data.length then none
  else some (c.writeInner data)

def update (c : Content2) (offset oldDataLen : Nat) (data : Bytes) : Option Nat × Content2 :=
  let oldSize := pageCount oldDataLen
  let size := pageCount data.length
  if oldSize ≥ size then
    let c := { c with data := pwrite c.data data (offset * page) }
    if oldSize > size then
      match c.addFreeBlock (oldSize - size) (offset + size) with
      | none => (none, c)
      | some c => (some offset, c)
    else (some offset, c)
  else if c.dataFileSize > dataFileMaxSize ∧ c.freeBlockMax < size then (none, c)
  else
    match c.addFreeBlock oldSize offset with
    | none => (none, c)
    | some c =>
      let (offset, c) := c.writeInner data
      (some offset, c)

def get (c : Content2) (offset dataLen : Nat) : Option Bytes :=
  if offset * page + dataLen ≤ c.dataFileSize then some (pread c.data dataLen (offset * page))
  else none

def del (c : Content2) (offset dataLen : Nat) : Option Content2 :=
  c.addFreeBlock (pageCount dataLen) offset

end Content2

end HustStore.Md5db
