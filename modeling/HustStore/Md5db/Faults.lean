import HustStore.Md5db.Allocator

/-!
# System calls that fail

What a write or an update of a content file leaves behind when one of its system calls fails: a `pwrite` of the
record or of its padding that fails or is short, or a free-block file that cannot be grown.
-/

namespace HustStore.Md5db

inductive BadWrite
  | fails
  | short (written : Nat)
  deriving DecidableEq, Repr

inductive Fault
  /-- None: `add_free_block` may still find the free-block file at its largest size. -/
  | none
  | data (io : BadWrite)
  | tail (io : BadWrite)
  /-- Growing the free-block file: at `fseek` or `fwrite`, or behind them, when the old mapping is
  closed and the new one is not made. -/
  | grow (unmapped : Bool)
  deriving DecidableEq, Repr

namespace Fault

def onData : Fault → Option BadWrite
  | data io => some io
  | _ => Option.none

def onTail : Fault → Option BadWrite
  | tail io => some io
  | _ => Option.none

end Fault

def pwriteWith (io : Option BadWrite) (d : Nat → UInt8) (bytes : Bytes) (offset : Nat) : (Nat → UInt8) × Nat × Bool :=
  match io with
  | none => (pwrite d bytes offset, bytes.length, false)
  | some .fails => (d, 2 ^ 32 - 1, true)
  | some (.short written) =>
    (pwrite d (bytes.take written) offset, min written bytes.length, written < bytes.length)

@[simp] theorem pwriteWith_none (d : Nat → UInt8) (bytes : Bytes) (offset : Nat) :
    pwriteWith none d bytes offset = (pwrite d bytes offset, bytes.length, false) := rfl

structure Aftermath where
  result : Option Nat
  file : Content2
  mapped : Bool
  faulted : Bool

namespace Content2

def addFreeBlockWith (fault : Fault) (c : Content2) (size offset : Nat) : Except Aftermath Content2 :=
  if c.header = freeBlockFileMaxSize then
    if c.freeBlockFileSize ≥ freeBlockFileMaxSize then .error ⟨none, c, true, true⟩
    else
      match fault with
      | .grow false => .error ⟨none, c, true, true⟩
      | .grow true =>
        .error ⟨none, { c with freeBlockFileSize := c.freeBlockFileSize + freeBlockIncr }, false, true⟩
      | _ => .ok (c.grown.parseFreeBlock.pushFreeBlock size offset)
  else .ok (c.pushFreeBlock size offset)

def writeInnerWith (fault : Fault) (c : Content2) (data : Bytes) : Aftermath :=
  match c.useFreeBlock (pageCount data.length) with
  | none =>
    let offset := c.dataFileSize / page
    let (d, pw, hit) := pwriteWith fault.onData c.data data c.dataFileSize
    let c := { c with data := d }
    if data.length ≠ pw then ⟨none, c, true, hit⟩
    else
      let c := { c with dataFileSize := c.dataFileSize + data.length }
      let tail := tailLen data.length
      let (d, pw, hitTail) := pwriteWith fault.onTail c.data (List.replicate tail 0) c.dataFileSize
      let c := { c with data := d }
      if tail ≠ pw then ⟨none, c, true, hit || hitTail⟩
      else ⟨some offset, { c with dataFileSize := c.dataFileSize + tail }, true, hit || hitTail⟩
  | some (offset, c) =>
    let (d, pw, hit) := pwriteWith fault.onData c.data data (offset * page)
    let c := { c with data := d }
    if data.length ≠ pw then ⟨none, c, true, hit⟩ else ⟨some offset, c, true, hit⟩

def writeWith (fault : Fault) (c : Content2) (data : Bytes) : Aftermath :=
  if c.dataFileSize > dataFileMaxSize ∧ c.freeBlockMax < pageCount data.length then
    ⟨none, c, true, false⟩
  else writeInnerWith fault c data

def updateWith (fault : Fault) (c : Content2) (offset oldDataLen : Nat) (data : Bytes) : Aftermath :=
  let oldSize := pageCount oldDataLen
  let size := pageCount data.length
  if oldSize ≥ size then
    let (d, pw, hit) := pwriteWith fault.onData c.data data (offset * page)
    let c := { c with data := d }
    if data.length ≠ pw then ⟨none, c, true, hit⟩
    else if oldSize > size then
      match addFreeBlockWith fault c (oldSize - size) (offset + size) with
      | .error aftermath => aftermath
      | .ok c => ⟨some offset, c, true, hit⟩
    else ⟨some offset, c, true, hit⟩
  else if c.dataFileSize > dataFileMaxSize ∧ c.freeBlockMax < size then ⟨none, c, true, false⟩
  else
    match addFreeBlockWith fault c oldSize offset with
    | .error aftermath => aftermath
    | .ok c => writeInnerWith fault c data

end Content2

/-! ### What each call does -/

namespace Fault

variable {fault : Fault} {len : Nat}

def written : Fault → Nat
  | data (.short written) => written
  | _ => 0

def Seen (len : Nat) : Fault → Prop
  | data .fails => len ≠ 2 ^ 32 - 1
  | data (.short written) => written < len
  | _ => False

def Refuses (fault : Fault) (c : Content2) : Prop :=
  c.header = freeBlockFileMaxSize ∧ (freeBlockFileMaxSize ≤ c.freeBlockFileSize ∨ fault = grow false)

theorem pwriteWith_onData (fault : Fault) (d : Nat → UInt8) (bytes : Bytes) (offset : Nat) :
    (∃ pw, fault.Seen bytes.length ∧ bytes.length ≠ pw ∧
      pwriteWith fault.onData d bytes offset = (pwrite d (bytes.take fault.written) offset, pw, true)) ∨
    (fault = data .fails ∧ bytes.length = 2 ^ 32 - 1 ∧
      pwriteWith fault.onData d bytes offset = (d, bytes.length, true)) ∨
    (¬ fault.Seen bytes.length ∧
      pwriteWith fault.onData d bytes offset = (pwrite d bytes offset, bytes.length, false)) := by
  rcases fault with _ | (_ | k) | _ | _
  · exact .inr (.inr ⟨fun h => h, rfl⟩)
  · by_cases hlen : bytes.length = 2 ^ 32 - 1
    · exact .inr (.inl ⟨rfl, hlen, by rw [hlen]; rfl⟩)
    · refine .inl ⟨2 ^ 32 - 1, hlen, hlen, ?_⟩
      simp only [onData, pwriteWith, written, List.take_zero, Content2.pwrite_nil]
  · by_cases hk : k < bytes.length
    · refine .inl ⟨min k bytes.length, hk, by omega, ?_⟩
      simp only [onData, pwriteWith, written, hk, decide_true]
    · refine .inr (.inr ⟨hk, ?_⟩)
      simp only [onData, pwriteWith, hk, decide_false, List.take_of_length_le (not_lt.1 hk),
        Nat.min_eq_right (not_lt.1 hk)]
  · exact .inr (.inr ⟨fun h => h, rfl⟩)
  · exact .inr (.inr ⟨fun h => h, rfl⟩)

theorem pwriteWith_onTail (fault : Fault) (d : Nat → UInt8) {bytes : Bytes} (hlen : bytes.length < page)
    (offset : Nat) :
    (∃ k pw, (∀ len, ¬ fault.Seen len) ∧ bytes.length ≠ pw ∧
      pwriteWith fault.onTail d bytes offset = (pwrite d (bytes.take k) offset, pw, true)) ∨
    pwriteWith fault.onTail d bytes offset = (pwrite d bytes offset, bytes.length, false) := by
  rcases fault with _ | _ | (_ | k) | _
  · exact .inr rfl
  · exact .inr rfl
  · refine .inl ⟨0, 2 ^ 32 - 1, fun _ h => h, ?_, ?_⟩
    · simp only [page] at hlen
      omega
    · simp only [onTail, pwriteWith, List.take_zero, Content2.pwrite_nil]
  · by_cases hk : k < bytes.length
    · refine .inl ⟨k, min k bytes.length, fun _ h => h, by omega, ?_⟩
      simp only [onTail, pwriteWith, hk, decide_true]
    · refine .inr ?_
      simp only [onTail, pwriteWith, hk, decide_false, List.take_of_length_le (not_lt.1 hk),
        Nat.min_eq_right (not_lt.1 hk)]
  · exact .inr rfl

end Fault

theorem tailLen_lt (len : Nat) : tailLen len < page := by
  unfold tailLen page
  split <;> omega

namespace Content2

variable {c c' : Content2} {live : Set Nat} {fault : Fault} {data : Bytes} {size offset : Nat}

theorem addFreeBlockWith_cases (fault : Fault) (c : Content2) (size offset : Nat) :
    (∃ c', ¬ fault.Refuses c ∧ c.addFreeBlock size offset = some c' ∧ addFreeBlockWith fault c size offset = .ok c') ∨
    (fault.Refuses c ∧ addFreeBlockWith fault c size offset = .error ⟨none, c, true, true⟩) ∨
    (¬ fault.Refuses c ∧ fault = .grow true ∧
      ∃ c', addFreeBlockWith fault c size offset = .error ⟨none, c', false, true⟩) := by
  unfold addFreeBlockWith Content2.addFreeBlock
  by_cases hheader : c.header = freeBlockFileMaxSize
  · rw [if_pos hheader, if_pos hheader]
    by_cases hfile : c.freeBlockFileSize ≥ freeBlockFileMaxSize
    · rw [if_pos hfile]
      exact .inr (.inl ⟨⟨hheader, .inl hfile⟩, rfl⟩)
    · rw [if_neg hfile, incrFreeBlockFile_eq (not_le.1 hfile)]
      have hrefuses : fault.Refuses c → fault = .grow false := fun h => h.2.resolve_left hfile
      rcases fault with _ | _ | _ | (_ | _)
      · exact .inl ⟨_, fun h => (nomatch hrefuses h), rfl, rfl⟩
      · exact .inl ⟨_, fun h => (nomatch hrefuses h), rfl, rfl⟩
      · exact .inl ⟨_, fun h => (nomatch hrefuses h), rfl, rfl⟩
      · exact .inr (.inl ⟨⟨hheader, .inr rfl⟩, rfl⟩)
      · exact .inr (.inr ⟨fun h => (nomatch hrefuses h), rfl, _, rfl⟩)
  · rw [if_neg hheader, if_neg hheader]
    exact .inl ⟨_, fun h => hheader h.1, rfl, rfl⟩

inductive WriteOutcome (fault : Fault) (c : Content2) (data : Bytes) : Aftermath → Prop
  | done (unseen : ¬ fault.Seen data.length) : WriteOutcome fault c data
      ⟨some (c.writeInner data).1, (c.writeInner data).2, true, false⟩
  | append (seen : fault.Seen data.length) (use : c.useFreeBlock (pageCount data.length) = none) :
      WriteOutcome fault c data
        ⟨none, { c with data := pwrite c.data (data.take fault.written) c.dataFileSize }, true, true⟩
  | padding (k : Nat) (unseen : ¬ fault.Seen data.length) (use : c.useFreeBlock (pageCount data.length) = none) :
      WriteOutcome fault c data ⟨none, { c with
            data := pwrite (pwrite c.data data c.dataFileSize)
              ((List.replicate (tailLen data.length) 0).take k) (c.dataFileSize + data.length)
            dataFileSize := c.dataFileSize + data.length }, true, true⟩
  | reuse {offset : Nat} {c' : Content2} (seen : fault.Seen data.length)
      (use : c.useFreeBlock (pageCount data.length) = some (offset, c')) :
      WriteOutcome fault c data
        ⟨none, { c' with data := pwrite c'.data (data.take fault.written) (offset * page) }, true, true⟩
  | unnoticed {aftermath : Aftermath} (fails : fault = .data .fails)
      (len_eq : data.length = 2 ^ 32 - 1) (result : aftermath.result ≠ none)
      (faulted : aftermath.faulted = true) : WriteOutcome fault c data aftermath

theorem writeInnerWith_outcome (fault : Fault) (c : Content2) (data : Bytes) :
    WriteOutcome fault c data (writeInnerWith fault c data) := by
  unfold writeInnerWith
  cases huse : c.useFreeBlock (pageCount data.length) with
  | none =>
    have hdone (hunseen : ¬ fault.Seen data.length) : WriteOutcome fault c data _ := .done hunseen
    rw [writeInner_of_none huse] at hdone
    rcases fault.pwriteWith_onData c.data data c.dataFileSize with
      ⟨pw, hseen, hpw, hwrite⟩ | ⟨hfails, hlen, hwrite⟩ | ⟨hunseen, hwrite⟩
    · simp only [hwrite, if_pos hpw]
      exact .append hseen huse
    · -- The padding is written, since only one call fails.
      have htail : fault.onTail = none := by rw [hfails]; rfl
      simp only [hwrite, htail, pwriteWith_none, List.length_replicate, ne_eq, not_true_eq_false,
        if_false]
      exact .unnoticed hfails hlen (Option.some_ne_none _) rfl
    · simp only [hwrite, ne_eq, not_true_eq_false, if_false, Bool.false_or]
      have hlt : (List.replicate (tailLen data.length) (0 : UInt8)).length < page := by
        rw [List.length_replicate]
        exact tailLen_lt _
      rcases fault.pwriteWith_onTail (pwrite c.data data c.dataFileSize) hlt
        (c.dataFileSize + data.length) with ⟨k, pw, -, hpw, htail⟩ | htail
      · rw [List.length_replicate] at hpw
        simp only [htail, if_pos hpw]
        exact .padding k hunseen huse
      · simp only [htail, List.length_replicate, not_true_eq_false, if_false]
        exact hdone hunseen
  | some out =>
    obtain ⟨offset, c'⟩ := out
    have hdone (hunseen : ¬ fault.Seen data.length) : WriteOutcome fault c data _ := .done hunseen
    rw [writeInner_of_some huse] at hdone
    rcases fault.pwriteWith_onData c'.data data (offset * page) with
      ⟨pw, hseen, hpw, hwrite⟩ | ⟨hfails, hlen, hwrite⟩ | ⟨hunseen, hwrite⟩
    · simp only [hwrite, if_pos hpw]
      exact .reuse hseen huse
    · simp only [hwrite, ne_eq, not_true_eq_false, if_false]
      exact .unnoticed hfails hlen (Option.some_ne_none _) rfl
    · simp only [hwrite, ne_eq, not_true_eq_false, if_false]
      exact hdone hunseen

theorem writeInnerWith_faulted (c : Content2) (hseen : fault.Seen data.length) :
    (writeInnerWith fault c data).faulted = true := by
  have hwrite := writeInnerWith_outcome fault c data
  generalize writeInnerWith fault c data = a at hwrite ⊢
  cases hwrite with
  | done hunseen => exact absurd hseen hunseen
  | append _ _ => rfl
  | padding _ hunseen _ => exact absurd hseen hunseen
  | reuse _ _ => rfl
  | unnoticed _ _ _ hfaulted => exact hfaulted

inductive UpdateEnd (fault : Fault) (c : Content2) (offset oldLen : Nat) (data : Bytes) : Aftermath → Prop
  | done : UpdateEnd fault c offset oldLen data
      ⟨(c.update offset oldLen data).1, (c.update offset oldLen data).2, true, false⟩
  | torn (fits : pageCount data.length ≤ pageCount oldLen) (seen : fault.Seen data.length) :
      UpdateEnd fault c offset oldLen data
        ⟨none, { c with data := pwrite c.data (data.take fault.written) (offset * page) }, true, true⟩
  | overwritten (less : pageCount data.length < pageCount oldLen) (unseen : ¬ fault.Seen data.length)
      (refuses : fault.Refuses c) : UpdateEnd fault c offset oldLen data
        ⟨none, { c with data := pwrite c.data data (offset * page) }, true, true⟩
  | kept (more : pageCount oldLen < pageCount data.length) (refuses : fault.Refuses c) :
      UpdateEnd fault c offset oldLen data ⟨none, c, true, true⟩
  | unmapped {c' : Content2} (refuses : ¬ fault.Refuses c) (grow : fault = .grow true) :
      UpdateEnd fault c offset oldLen data ⟨none, c', false, true⟩
  | unnoticed {aftermath : Aftermath} (fits : pageCount data.length ≤ pageCount oldLen)
      (fails : fault = .data .fails) (len_eq : data.length = 2 ^ 32 - 1)
      (result : aftermath.result ≠ none) (faulted : aftermath.faulted = true) :
      UpdateEnd fault c offset oldLen data aftermath
  | moved {c₁ : Content2} {aftermath : Aftermath} (more : pageCount oldLen < pageCount data.length)
      (room : ¬ (c.dataFileSize > dataFileMaxSize ∧ c.freeBlockMax < pageCount data.length))
      (refuses : ¬ fault.Refuses c) (add : c.addFreeBlock (pageCount oldLen) offset = some c₁)
      (write : WriteOutcome fault c₁ data aftermath) :
      UpdateEnd fault c offset oldLen data aftermath

theorem updateWith_end (fault : Fault) (c : Content2) (offset : Nat) {oldLen : Nat} (data : Bytes)
    (holdLen : oldLen < 2 ^ 32) :
    UpdateEnd fault c offset oldLen data (updateWith fault c offset oldLen data) := by
  have hdone : UpdateEnd fault c offset oldLen data _ := .done
  unfold updateWith
  unfold Content2.update at hdone
  by_cases hfits : pageCount oldLen ≥ pageCount data.length
  · simp only [if_pos hfits] at hdone ⊢
    rcases fault.pwriteWith_onData c.data data (offset * page) with
      ⟨pw, hseen, hpw, hwrite⟩ | ⟨hfails, hlen, hwrite⟩ | ⟨hunseen, hwrite⟩
    · simp only [hwrite, if_pos hpw]
      exact .torn hfits hseen
    · -- A record of this length takes as many pages as one can.
      have hnot : ¬ pageCount oldLen > pageCount data.length := by
        rw [hlen]
        unfold pageCount page
        split <;> split <;> omega
      simp only [hwrite, ne_eq, not_true_eq_false, if_false, if_neg hnot]
      exact .unnoticed hfits hfails hlen (Option.some_ne_none _) rfl
    · simp only [hwrite, ne_eq, not_true_eq_false, if_false]
      by_cases hless : pageCount oldLen > pageCount data.length
      · simp only [if_pos hless] at hdone ⊢
        rcases addFreeBlockWith_cases fault { c with data := pwrite c.data data (offset * page) }
          (pageCount oldLen - pageCount data.length) (offset + pageCount data.length) with
          ⟨c', -, hadd, hend⟩ | ⟨hrefuses, hend⟩ | ⟨hrefuses, hgrow, c', hend⟩
        · simp only [hadd] at hdone
          simp only [hend]
          exact hdone
        · simp only [hend]
          exact .overwritten hless hunseen hrefuses
        · simp only [hend]
          exact .unmapped hrefuses hgrow
      · simp only [if_neg hless] at hdone ⊢
        exact hdone
  · simp only [if_neg hfits] at hdone ⊢
    by_cases hfull : c.dataFileSize > dataFileMaxSize ∧ c.freeBlockMax < pageCount data.length
    · simp only [if_pos hfull] at hdone ⊢
      exact hdone
    · simp only [if_neg hfull] at hdone ⊢
      rcases addFreeBlockWith_cases fault c (pageCount oldLen) offset with
        ⟨c₁, hrefuses, hadd, hend⟩ | ⟨hrefuses, hend⟩ | ⟨hrefuses, hgrow, c', hend⟩
      · simp only [hend]
        exact .moved (not_le.1 hfits) hfull hrefuses hadd (writeInnerWith_outcome fault c₁ data)
      · simp only [hend]
        exact .kept (not_le.1 hfits) hrefuses
      · simp only [hend]
        exact .unmapped hrefuses hgrow

theorem writeWith_of_not_faulted (hfault : (writeWith fault c data).faulted = false) : c.write data =
      (writeWith fault c data).result.map fun offset => (offset, (writeWith fault c data).file) := by
  unfold writeWith at hfault ⊢
  unfold Content2.write
  split_ifs at hfault ⊢
  · rfl
  · have hwrite := writeInnerWith_outcome fault c data
    generalize writeInnerWith fault c data = a at hwrite hfault ⊢
    cases hwrite with
    | done _ => rfl
    | append _ _ => cases hfault
    | padding _ _ _ => cases hfault
    | reuse _ _ => cases hfault
    | unnoticed _ _ _ hfaulted => cases hfaulted.symm.trans hfault

theorem updateWith_of_not_faulted {oldLen : Nat} (holdLen : oldLen < 2 ^ 32)
    (hfault : (updateWith fault c offset oldLen data).faulted = false) :
    c.update offset oldLen data =
      ((updateWith fault c offset oldLen data).result, (updateWith fault c offset oldLen data).file) := by
  have hend := updateWith_end fault c offset data holdLen
  generalize updateWith fault c offset oldLen data = a at hend hfault ⊢
  cases hend with
  | done => rfl
  | torn _ _ => cases hfault
  | overwritten _ _ _ => cases hfault
  | kept _ _ => cases hfault
  | unmapped _ _ => cases hfault
  | unnoticed _ _ _ _ hfaulted => cases hfaulted.symm.trans hfault
  | moved hmore hroom _ hadd hwrite =>
    cases hwrite with
    | done _ => simp only [Content2.update, if_neg (not_le.2 hmore), if_neg hroom, hadd]
    | append _ _ => cases hfault
    | padding _ _ _ => cases hfault
    | reuse _ _ => cases hfault
    | unnoticed _ _ _ hfaulted => cases hfaulted.symm.trans hfault

end Content2

/-! ### Requests -/

inductive Request
  | write (data : Bytes)
  | update (offset : Nat) (old data : Bytes)

namespace Request

def run (fault : Fault) (c : Content2) : Request → Aftermath
  | write data => c.writeWith fault data
  | update offset old data => c.updateWith fault offset old.length data

def pages : Request → Set Nat
  | write _ => ∅
  | update offset old _ => extent offset old.length

def Stands (c : Content2) (live : Set Nat) : Request → Prop
  | write data => data.length < 2 ^ 32
  | update offset old data => data.length < 2 ^ 32 ∧ old.length < 2 ^ 32 ∧
      extent offset old.length ⊆ live ∧ c.get offset old.length = some old

/-- When a request that runs into a fault is atomic: it leaves the data file before it has taken or
given back any pages, and has not changed the bytes of its own record. -/
def Survives (fault : Fault) (c : Content2) : Request → Prop
  | write data => data = [] ∨ c.freeBlockMax < pageCount data.length ∧ fault.Seen data.length
  | update _ old data =>
    pageCount data.length ≤ pageCount old.length ∧ fault.Seen data.length ∧
        (data.take fault.written).take old.length <+: old ∨
      pageCount data.length < pageCount old.length ∧ fault.Refuses c ∧ data <+: old ∨
      pageCount old.length < pageCount data.length ∧ fault.Refuses c ∨
      old = [] ∧ data ≠ [] ∧ c.freeBlockMax < pageCount data.length ∧ fault.Seen data.length

theorem pages_subset {c : Content2} {live : Set Nat} {r : Request} (h : r.Stands c live) :
    r.pages ⊆ live := by
  cases r with
  | write data => exact Set.empty_subset _
  | update offset old data => exact h.2.2.1

theorem get_old {c c' : Content2} {live : Set Nat} {r : Request} (h : r.Stands c live)
    (hsame : Content2.SamePages live c c') {offset : Nat} {old data : Bytes}
    (hr : r = update offset old data) : c'.get offset old.length = some old := by
  subst hr
  exact Content2.get_of_samePages h.2.2.2 hsame h.2.2.1

end Request

namespace Content2

variable {c c' c₁ : Content2} {live : Set Nat} {fault : Fault} {data : Bytes} {size offset : Nat}
  {r : Request} {a : Aftermath}

def leaked (c : Content2) (live : Set Nat) : Set Nat :=
  {p | 0 < p ∧ p * page < c.dataFileSize ∧ p ∉ live ∧ p ∉ c.freePages c.freeBlockList}

structure Atomic (c : Content2) (live : Set Nat) (r : Request) (a : Aftermath) : Prop where
  refused : a.result = none
  others : ∀ offset len bytes, extent offset len ⊆ live \ r.pages → c.get offset len = some bytes →
    a.file.get offset len = some bytes
  kept : ∀ offset old data, r = .update offset old data → a.file.get offset old.length = some old
  unlisted : a.mapped = true ∧ ∀ i ∈ a.file.freeBlockList, Disjoint (a.file.cache i).pages r.pages
  no_leak : a.file.leaked live ⊆ c.leaked live
  aligned : page ∣ a.file.dataFileSize

theorem Sound.atomic (h : c.Sound live) (hpages : r.pages ⊆ live) (hresult : a.result = none)
    (hmapped : a.mapped = true) (hsame : SamePages (live \ r.pages) c a.file)
    (hkept : ∀ offset old data, r = .update offset old data → a.file.get offset old.length = some old)
    (hfree : a.file.freePages a.file.freeBlockList = c.freePages c.freeBlockList)
    (hsize : a.file.dataFileSize = c.dataFileSize) : Atomic c live r a where
  refused := hresult
  others _ _ _ hsub hget := get_of_samePages hget hsame hsub
  kept := hkept
  unlisted := by
    refine ⟨hmapped, fun i hi => Set.disjoint_left.2 fun p hp hr => ?_⟩
    have hfreed : p ∈ c.freePages c.freeBlockList := by
      rw [← hfree]
      exact ⟨i, hi, hp⟩
    obtain ⟨j, hj, hpj⟩ := hfreed
    exact Set.disjoint_left.1 (h.run hj).2.2.2 hpj (hpages hr)
  no_leak := by
    rintro p ⟨hpos, hlt, hlive, hnot⟩
    rw [hsize] at hlt
    rw [hfree] at hnot
    exact ⟨hpos, hlt, hlive, hnot⟩
  aligned := by
    rw [hsize]
    exact h.inv.sizes.data_dvd

theorem Sound.samePages_end (h : c.Sound live) (hsame : c.SameData c₁) (bytes : Bytes) :
    SamePages live c { c₁ with data := pwrite c₁.data bytes c₁.dataFileSize } where
  data_eq i hi := by
    have hlt := (h.inv.sizes.live_lt _ hi).2
    have hdvd := h.inv.sizes.data_dvd
    simp only [hsame.1, hsame.2]
    refine pwrite_of_not_mem ?_
    simp only [page] at *
    omega
  size_le := hsame.2.ge

/-! ### Writing in place -/

theorem pread_pwrite (d : Nat → UInt8) (bytes : Bytes) (len offset : Nat) :
    pread (pwrite d bytes offset) len offset = bytes.take len ++ (pread d len offset).drop bytes.length := by
  refine List.ext_getElem ?_ fun i hi hi' => ?_
  · simp only [pread, List.length_map, List.length_range, List.length_append, List.length_take, List.length_drop]
    omega
  · simp only [pread, List.length_map, List.length_range] at hi
    by_cases hin : i < bytes.length
    · rw [List.getElem_append_left (by rw [List.length_take]; omega)]
      simp only [pread, List.getElem_map, List.getElem_range, pwrite, List.getElem_take]
      rw [if_pos ⟨by omega, by omega⟩, Nat.add_sub_cancel_left, List.getD_eq_getElem?_getD,
        List.getElem?_eq_getElem hin, Option.getD_some]
    · rw [List.getElem_append_right (by rw [List.length_take]; omega)]
      have htake : (bytes.take len).length = bytes.length := by rw [List.length_take]; omega
      simp only [pread, List.getElem_map, List.getElem_range, List.getElem_drop, htake]
      rw [Nat.add_sub_cancel' (by omega)]
      exact pwrite_of_not_mem (.inr (by omega))

theorem pread_pwrite_eq_iff {d : Nat → UInt8} {old : Bytes} (hold : pread d old.length offset = old) (bytes : Bytes) :
    pread (pwrite d bytes offset) old.length offset = old ↔ bytes.take old.length <+: old := by
  rw [pread_pwrite, hold]
  constructor
  · intro heq
    exact ⟨_, heq⟩
  · rintro ⟨rest, heq⟩
    by_cases hle : bytes.length ≤ old.length
    · rw [List.take_of_length_le hle] at heq ⊢
      rw [← heq, List.drop_left]
    · have hlen := congrArg List.length heq
      rw [List.length_append, List.length_take] at hlen
      have hrest : rest = [] := List.eq_nil_of_length_eq_zero (by omega)
      rw [hrest, List.append_nil] at heq
      rw [List.drop_eq_nil_of_le (by omega), List.append_nil, heq]

theorem get_eq_some_iff {len : Nat} {bytes : Bytes} : c.get offset len = some bytes ↔
      offset * page + len ≤ c.dataFileSize ∧ pread c.data len (offset * page) = bytes := by
  unfold Content2.get
  split
  · next hle => simp [hle]
  · next hle => simp [hle]

theorem Sound.atomic_inPlace_iff {old bytes : Bytes} (h : c.Sound live)
    (hstands : (Request.update offset old data).Stands c live)
    (hfits : pageCount bytes.length ≤ pageCount old.length) :
    Atomic c live (.update offset old data)
        ⟨none, { c with data := pwrite c.data bytes (offset * page) }, true, true⟩ ↔
      bytes.take old.length <+: old := by
  obtain ⟨hin, hread⟩ := get_eq_some_iff.1 hstands.2.2.2
  have hkept : Content2.get { c with data := pwrite c.data bytes (offset * page) } offset old.length =
      some old ↔ bytes.take old.length <+: old := by
    rw [get_eq_some_iff, ← pread_pwrite_eq_iff hread bytes]
    exact and_iff_right hin
  constructor
  · intro hatomic
    exact hkept.1 (hatomic.kept offset old data rfl)
  · intro hprefix
    refine h.atomic (Request.pages_subset hstands) rfl rfl (samePages_pwrite ?_) (fun _ _ _ heq => ?_) rfl rfl
    · refine Set.disjoint_left.2 fun p hp hp' => hp'.2 ?_
      simp only [Request.pages, extent, Set.mem_Ico] at *
      omega
    · cases heq
      exact hkept.2 hprefix

/-! ### Writing elsewhere -/

structure Ready (c c₁ : Content2) : Prop where
  same : c.SameData c₁
  free : c₁.freePages c₁.freeBlockList = c.freePages c.freeBlockList
  max_eq : c₁.freeBlockMax = c.freeBlockMax
  listed : c₁.Listed
  nodup : c₁.freeBlockList.Nodup
  disjoint : ∀ i ∈ c₁.freeBlockList, ∀ j ∈ c₁.freeBlockList, i ≠ j → Disjoint (c₁.cache i).pages (c₁.cache j).pages

theorem Sound.ready (h : c.Sound live) : Ready c c :=
  ⟨.rfl, rfl, rfl, h.tidy.listed, h.inv.nodup, h.inv.runs.disjoint⟩

theorem Sound.ready_push (h : c.Sound live) (hadd : c.addFreeBlock 0 offset = some c₁) :
    Ready c c₁ := by
  obtain ⟨c₂, hsound, hhead, hsame, hmax, hregroups, -, rfl⟩ := h.addFreeBlock_cases hadd
  have hnot := hsound.inv.header_not_mem hhead
  have hempty : ((c₂.pushFreeBlock 0 offset).cache c₂.header).pages = ∅ := by
    rw [pushFreeBlock_cache_self, FreeBlock.pages, Nat.add_zero, Set.Ico_self]
  refine ⟨hsame.trans (sameData_pushFreeBlock _ _), ?_, ?_,
    hsound.inv.push_listed hsound.tidy.listed hhead, ?_, fun i hi j hj hij => ?_⟩
  · rw [hsound.push_freePages hhead, Nat.add_zero, Set.Ico_self, Set.union_empty, hregroups.freePages_eq]
  · rw [pushFreeBlock_max, hmax, Nat.max_zero]
  · exact pushFreeBlock_perm.nodup_iff.2 (List.nodup_cons.2 ⟨hnot, hsound.inv.nodup⟩)
  · rcases List.mem_cons.1 (pushFreeBlock_perm.mem_iff.1 hi) with rfl | hi
    · rw [hempty]
      exact Set.empty_disjoint _
    · rcases List.mem_cons.1 (pushFreeBlock_perm.mem_iff.1 hj) with rfl | hj
      · rw [hempty]
        exact Set.disjoint_empty _
      · rw [hsound.inv.push_kept hhead hi, hsound.inv.push_kept hhead hj]
        exact hsound.inv.runs.disjoint i hi j hj hij

theorem cut_page_not_free {i : Nat} (hnodup : c.freeBlockList.Nodup)
    (hdisj : ∀ i ∈ c.freeBlockList, ∀ j ∈ c.freeBlockList, i ≠ j → Disjoint (c.cache i).pages (c.cache j).pages)
    (hi : i ∈ c.freeBlockList) (hsize : 0 < size) (hle : size ≤ (c.cache i).size) :
    (c.cache i).offset ∉ (c.cutRun i size).freePages (c.cutList i size) := by
  have hfirst : (c.cache i).offset ∈ (c.cache i).pages := by
    simp only [FreeBlock.pages, Set.mem_Ico]
    omega
  rintro ⟨j, hj, hp⟩
  by_cases hji : j = i
  · subst hji
    unfold cutRun at hp
    split at hp
    · simp [FreeBlock.pages] at hp
    · simp [FreeBlock.pages] at hp
      omega
  · have hlisted : j ∈ c.freeBlockList := by
      rcases (mem_cutList hnodup hi hle).1 hj with ⟨hj, -⟩ | ⟨hj, -⟩ <;> exact hj
    rw [cutRun_cache_of_ne hji] at hp
    exact Set.disjoint_left.1 (hdisj j hlisted i hi hji) hp hfirst

section

variable (h : c.Sound live)
include h

theorem Sound.not_atomic_of_longer (hfree : a.file.freePages a.file.freeBlockList = c.freePages c.freeBlockList)
    (hsize : c.dataFileSize < a.file.dataFileSize) : ¬ Atomic c live r a := by
  intro hatomic
  have hdvd := h.inv.sizes.data_dvd
  have hpos := h.inv.sizes.data_pos
  have hend : c.dataFileSize / page * page = c.dataFileSize := Nat.div_mul_cancel hdvd
  have hleak : c.dataFileSize / page ∈ a.file.leaked live := by
    refine ⟨Nat.div_pos hpos (by decide), by omega, fun hlive => ?_, fun hmem => ?_⟩
    · exact lt_irrefl _ (h.inv.sizes.live_lt _ hlive).2
    · rw [hfree] at hmem
      obtain ⟨i, hi, hp⟩ := hmem
      have hin := (h.run hi).2.2.1
      simp only [FreeBlock.pages, Set.mem_Ico] at hp
      omega
  have hlt := (hatomic.no_leak hleak).2.1
  omega

theorem Sound.not_atomic_of_taken (hready : Ready c c₁) (hsize : 0 < size)
    (hlt : size < 2 ^ 32) (huse : c₁.useFreeBlock size = some (offset, c'))
    (hfree : a.file.freePages a.file.freeBlockList = c'.freePages c'.freeBlockList)
    (hdata : a.file.dataFileSize = c'.dataFileSize) : ¬ Atomic c live r a := by
  intro hatomic
  obtain ⟨i, hi, hle, rfl, rfl⟩ := useFreeBlock_eq_cut hsize hlt huse
  have hfirst : (c₁.cache i).offset ∈ c.freePages c.freeBlockList := by
    rw [← hready.free]
    refine ⟨i, hi, ?_⟩
    simp only [FreeBlock.pages, Set.mem_Ico]
    omega
  have hnot := cut_page_not_free hready.nodup hready.disjoint hi hsize hle
  obtain ⟨j, hj, hp⟩ := hfirst
  obtain ⟨hpos, -, hin, hlive⟩ := h.run hj
  have hleak : (c₁.cache i).offset ∈ a.file.leaked live := by
    refine ⟨?_, ?_, fun hmem => Set.disjoint_left.1 hlive hp hmem, ?_⟩
    · simp only [FreeBlock.pages, Set.mem_Ico] at hp
      omega
    · have hsame : a.file.dataFileSize = c.dataFileSize := by
        rw [hdata, ← hready.same.2]
        exact cutRun_data.1.2
      rw [hsame]
      simp only [FreeBlock.pages, Set.mem_Ico, page] at *
      omega
    · rw [hfree]
      exact hnot
  exact (hatomic.no_leak hleak).2.2.2 ⟨j, hj, hp⟩

theorem Sound.atomic_write_iff (hready : Ready c c₁) (hstands : r.Stands c live)
    (hlen : 0 < data.length) (hlt : data.length < 2 ^ 32) (hwrite : WriteOutcome fault c₁ data a)
    (hfault : a.faulted = true) :
    Atomic c live r a ↔ c.freeBlockMax < pageCount data.length ∧ fault.Seen data.length := by
  have hpos := pageCount_pos hlen
  have hle := pageCount_le data.length
  cases hwrite with
  | done _ => cases hfault
  | append hseen huse =>
    have hsame := h.samePages_end hready.same (data.take fault.written)
    have hmax := hready.listed.max_lt hpos (by omega) huse
    rw [hready.max_eq] at hmax
    refine iff_of_true ?_ ⟨hmax, hseen⟩
    exact h.atomic (Request.pages_subset hstands) rfl rfl (hsame.mono Set.sdiff_subset)
      (fun _ _ _ hr => Request.get_old hstands hsame hr) hready.free hready.same.2
  | padding k hunseen huse =>
    refine iff_of_false (h.not_atomic_of_longer hready.free ?_) fun hright => hunseen hright.2
    simp only [hready.same.2]
    omega
  | reuse hseen huse =>
    refine iff_of_false (h.not_atomic_of_taken hready hpos (by omega) huse rfl rfl) fun hright => ?_
    rw [← hready.max_eq] at hright
    rw [Content2.useFreeBlock, if_pos hright.1] at huse
    cases huse
  | unnoticed hfails hlenEq hresult _ =>
    refine iff_of_false (fun hatomic => hresult hatomic.refused) fun hright => ?_
    rw [hfails] at hright
    exact hright.2 hlenEq

theorem Sound.not_atomic_moved {old : Bytes} (hold : 0 < old.length)
    (hlt : data.length < 2 ^ 32) (hmore : pageCount old.length < pageCount data.length)
    (hadd : c.addFreeBlock (pageCount old.length) offset = some c₁)
    (hwrite : WriteOutcome fault c₁ data a) (hfault : a.faulted = true) :
    ¬ Atomic c live (.update offset old data) a := by
  intro hatomic
  have hpos := pageCount_pos hold
  have hle := pageCount_le data.length
  obtain ⟨c₂, hsound, hhead, -, -, -, -, rfl⟩ := h.addFreeBlock_cases hadd
  have hmem : c₂.header ∈ (c₂.pushFreeBlock (pageCount old.length) offset).freeBlockList :=
    pushFreeBlock_perm.mem_iff.2 (by simp)
  have hlisted {file : Content2} (hmem : c₂.header ∈ file.freeBlockList)
      (hcache : file.cache c₂.header = ⟨offset, pageCount old.length⟩)
      (hunlisted : ∀ i ∈ file.freeBlockList, Disjoint (file.cache i).pages (extent offset old.length)) : False := by
    have hdisj := hunlisted _ hmem
    rw [hcache] at hdisj
    have hin : offset ∈ extent offset old.length := by
      simp only [extent, Set.mem_Ico]
      omega
    exact Set.disjoint_left.1 hdisj hin hin
  cases hwrite with
  | done _ => cases hfault
  | append _ _ => exact hlisted hmem pushFreeBlock_cache_self hatomic.unlisted.2
  | padding _ _ _ => exact hlisted hmem pushFreeBlock_cache_self hatomic.unlisted.2
  | reuse _ huse =>
    have hnodup : (c₂.pushFreeBlock (pageCount old.length) offset).freeBlockList.Nodup :=
      pushFreeBlock_perm.nodup_iff.2 (List.nodup_cons.2 ⟨hsound.inv.header_not_mem hhead, hsound.inv.nodup⟩)
    obtain ⟨i, hi, hfit, -, rfl⟩ := useFreeBlock_eq_cut (by omega) (by omega) huse
    -- The run that is taken is longer than the old record.
    have hne : c₂.header ≠ i := by
      rintro rfl
      rw [pushFreeBlock_cache_self] at hfit
      simp only at hfit
      omega
    refine hlisted ((mem_cutList hnodup hi hfit).2 (.inr ⟨hmem, hne⟩)) ?_ hatomic.unlisted.2
    simp only [cutRun_cache_of_ne hne, pushFreeBlock_cache_self]
  | unnoticed _ _ hresult _ => exact hresult hatomic.refused

theorem Sound.atomic_write_nil (hwrite : WriteOutcome fault c [] a)
    (hfault : a.faulted = true) : Atomic c live (.write []) a := by
  have hsame {d : Nat → UInt8} (hd : d = c.data) : SamePages live c { c with data := d } :=
    ⟨fun i _ => by rw [hd], le_rfl⟩
  cases hwrite with
  | done _ => cases hfault
  | append _ _ =>
    refine h.atomic (Set.empty_subset _) rfl rfl ?_ (fun _ _ _ hr => by cases hr) rfl rfl
    exact (hsame (by rw [List.take_nil, pwrite_nil])).mono Set.sdiff_subset
  | padding k _ _ =>
    refine h.atomic (Set.empty_subset _) rfl rfl ?_ (fun _ _ _ hr => by cases hr) rfl rfl
    refine (hsame ?_).mono Set.sdiff_subset
    rw [show tailLen ([] : Bytes).length = 0 from rfl, List.replicate_zero, List.take_nil, pwrite_nil, pwrite_nil]
  | reuse _ huse =>
    have hnone : c.useFreeBlock (pageCount ([] : Bytes).length) = none :=
      (h.useFreeBlock_eq_none (by decide)).2 (.inl rfl)
    cases hnone.symm.trans huse
  | unnoticed _ hlen _ _ => cases hlen

theorem Sound.atomic_update_iff {old : Bytes} (hstands : (Request.update offset old data).Stands c live)
    (hend : UpdateEnd fault c offset old.length data a) (hfault : a.faulted = true) :
    Atomic c live (.update offset old data) a ↔ (Request.update offset old data).Survives fault c := by
  have hold : old = [] → pageCount old.length = 0 := fun hnil => by rw [hnil]; rfl
  simp only [Request.Survives]
  cases hend with
  | done => cases hfault
  | torn hfits hseen =>
    have htake : pageCount (data.take fault.written).length ≤ pageCount old.length :=
      (pageCount_mono (List.length_take_le' _ _)).trans hfits
    rw [h.atomic_inPlace_iff hstands htake]
    constructor
    · exact fun hprefix => .inl ⟨hfits, hseen, hprefix⟩
    · rintro (⟨-, -, hprefix⟩ | ⟨-, -, hprefix⟩ | ⟨hmore, -⟩ | ⟨hnil, hdata, -⟩)
      · exact hprefix
      · exact ((List.take_prefix _ _).trans (List.take_prefix _ _)).trans hprefix
      · omega
      · have := hold hnil
        have := pageCount_pos (List.length_pos_of_ne_nil hdata)
        omega
  | overwritten hless hunseen hrefuses =>
    rw [h.atomic_inPlace_iff hstands hless.le]
    have hlt : data.length ≤ old.length := by
      by_contra hlt
      have := pageCount_mono (not_le.1 hlt).le
      omega
    rw [List.take_of_length_le hlt]
    constructor
    · exact fun hprefix => .inr (.inl ⟨hless, hrefuses, hprefix⟩)
    · rintro (⟨-, hseen, -⟩ | ⟨-, -, hprefix⟩ | ⟨hmore, -⟩ | ⟨-, -, -, hseen⟩)
      · exact absurd hseen hunseen
      · exact hprefix
      · omega
      · exact absurd hseen hunseen
  | kept hmore hrefuses =>
    refine iff_of_true ?_ (.inr (.inr (.inl ⟨hmore, hrefuses⟩)))
    exact h.atomic (Request.pages_subset hstands) rfl rfl SameData.rfl.samePages
      (fun _ _ _ hr => Request.get_old hstands SameData.rfl.samePages hr) rfl rfl
  | unmapped hrefuses hgrow =>
    refine iff_of_false (fun hatomic => absurd hatomic.unlisted.1 Bool.false_ne_true) ?_
    rw [hgrow] at hrefuses ⊢
    rintro (⟨-, hseen, -⟩ | ⟨-, hrefused, -⟩ | ⟨-, hrefused⟩ | ⟨-, -, -, hseen⟩)
    · exact hseen
    · exact hrefuses hrefused
    · exact hrefuses hrefused
    · exact hseen
  | unnoticed hfits hfails hlen hresult _ =>
    refine iff_of_false (fun hatomic => hresult hatomic.refused) ?_
    have hle : pageCount old.length ≤ pageCount data.length :=
      pageCount_mono (by have := hstands.2.1; omega)
    rw [hfails]
    rintro (⟨-, hseen, -⟩ | ⟨hless, -⟩ | ⟨hmore, -⟩ | ⟨-, -, -, hseen⟩)
    · exact hseen hlen
    · omega
    · omega
    · exact hseen hlen
  | moved hmore _ hrefuses hadd hwrite =>
    have hdata : 0 < data.length := by
      have := pageCount_le data.length
      omega
    by_cases hnil : old = []
    · subst hnil
      rw [h.atomic_write_iff (h.ready_push hadd) hstands hdata hstands.1 hwrite hfault]
      constructor
      · exact fun hright => .inr (.inr (.inr ⟨rfl, List.ne_nil_of_length_pos hdata, hright⟩))
      · rintro (⟨hfits, -⟩ | ⟨hless, -⟩ | ⟨-, hrefused⟩ | ⟨-, -, hright⟩)
        · omega
        · omega
        · exact absurd hrefused hrefuses
        · exact hright
    · refine iff_of_false (h.not_atomic_moved (List.length_pos_of_ne_nil hnil) hstands.1 hmore hadd hwrite hfault) ?_
      rintro (⟨hfits, -⟩ | ⟨hless, -⟩ | ⟨-, hrefused⟩ | ⟨hempty, -⟩)
      · omega
      · omega
      · exact hrefuses hrefused
      · exact hnil hempty

end

end Content2

/-- A write or an update in which a `pwrite` or `add_free_block` fails is atomic in these cases and in
no others. -/
theorem failed_request_atomic_iff {c : Content2} {live : Set Nat} {fault : Fault} {r : Request}
    (h : c.Sound live) (hstands : r.Stands c live) (hfault : (r.run fault c).faulted = true) :
    Content2.Atomic c live r (r.run fault c) ↔ r.Survives fault c := by
  cases r with
  | write data =>
    simp only [Request.run, Content2.writeWith] at hfault ⊢
    by_cases hfull : c.dataFileSize > dataFileMaxSize ∧ c.freeBlockMax < pageCount data.length
    · rw [if_pos hfull] at hfault
      cases hfault
    rw [if_neg hfull] at hfault ⊢
    have hwrite := Content2.writeInnerWith_outcome fault c data
    by_cases hnil : data = []
    · subst hnil
      exact iff_of_true (h.atomic_write_nil hwrite hfault) (.inl rfl)
    · rw [h.atomic_write_iff h.ready hstands (List.length_pos_of_ne_nil hnil) hstands hwrite hfault]
      simp only [Request.Survives, hnil, false_or]
  | update offset old data =>
    have hend := Content2.updateWith_end fault c offset data hstands.2.1
    exact h.atomic_update_iff hstands hend hfault

/-- A file with one record. -/
def oneRecord : Content2 := (Content2.create.writeInner [7]).2

theorem sound_oneRecord : oneRecord.Sound (extent 1 1) ∧ oneRecord.get 1 1 = some [7] := by
  obtain ⟨hwritten, htidy, -⟩ := Content2.sound_create.writeInner
    (show ([7] : Bytes).length < 2 ^ 32 by decide) (.inl (by decide))
  have hinv := hwritten.inv
  rw [Set.empty_union] at hinv
  exact ⟨⟨hinv, htidy⟩, hwritten.get_eq⟩

/-- Half of a second record reaches the end of the file, and the first can still be read. -/
theorem failed_request_atomic_append :
    let a := (Request.write [8, 9]).run (.data (.short 1)) oneRecord
    Content2.Atomic oneRecord (extent 1 1) (.write [8, 9]) a ∧ a.file.get 1 1 = some [7] := by
  obtain ⟨hsound, hget⟩ := sound_oneRecord
  have hatomic : Content2.Atomic oneRecord (extent 1 1) (.write [8, 9])
      ((Request.write [8, 9]).run (.data (.short 1)) oneRecord) :=
    (failed_request_atomic_iff (r := .write [8, 9]) hsound (show ([8, 9] : Bytes).length < 2 ^ 32 by decide) rfl).2
      (.inr ⟨by decide, show 1 < ([8, 9] : Bytes).length by decide⟩)
  exact ⟨hatomic, hatomic.others 1 1 [7] (by simp [Request.pages]) hget⟩

/-- An update to more pages whose bytes cannot be written returns false, and has put the pages of its
record on the list of free runs. -/
theorem failed_update_frees_its_record : ∃ c live data, c.Sound live ∧ (Request.update 1 [7] data).Stands c live ∧
      ((Request.update 1 [7] data).run (.data .fails) c).faulted = true ∧
      ¬ Content2.Atomic c live (.update 1 [7] data) ((Request.update 1 [7] data).run (.data .fails) c) := by
  have hpages : pageCount ([7] : Bytes).length = 1 := rfl
  obtain ⟨hsound, hget⟩ := sound_oneRecord
  generalize hdata : List.replicate 1500 (0 : UInt8) = data
  have hlen : data.length = 1500 := by rw [← hdata, List.length_replicate]
  have hcount : pageCount data.length = 2 := by rw [hlen]; rfl
  have hadd : oneRecord.addFreeBlock (pageCount ([7] : Bytes).length) 1 = some (oneRecord.pushFreeBlock 1 1) := rfl
  have hrun : (Request.update 1 [7] data).run (.data .fails) oneRecord =
      Content2.writeInnerWith (.data .fails) (oneRecord.pushFreeBlock 1 1) data := by
    simp only [Request.run, Content2.updateWith, hcount, hpages]
    rfl
  have hfault : (Content2.writeInnerWith (.data .fails) (oneRecord.pushFreeBlock 1 1) data).faulted = true := by
    refine Content2.writeInnerWith_faulted _ ?_
    show data.length ≠ 2 ^ 32 - 1
    omega
  refine ⟨oneRecord, extent 1 1, data, hsound, ⟨by omega, by decide, subset_rfl, hget⟩, ?_, ?_⟩
  · rw [hrun]
    exact hfault
  · rw [hrun]
    exact hsound.not_atomic_moved (by decide) (by omega) (by omega) hadd
      (Content2.writeInnerWith_outcome _ _ data) hfault

end HustStore.Md5db
