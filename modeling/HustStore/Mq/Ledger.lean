import HustStore.Mq.Counters

/-!
# The messages of a queue

The server knows messages only by their tags, and tags are used again.
-/

namespace HustStore

/-! ### Names and keys -/

theorem tagKey_inj {queue a b : Bytes} (h : tagKey queue a = tagKey queue b) : a = b :=
  List.append_cancel_left h

theorem ackTag_inj {p p' t t' : Nat} (hp : p < 10 ^ 10) (hp' : p' < 10 ^ 10) (ht : t < 10 ^ 10)
    (ht' : t' < 10 ^ 10) (h : ackTag p t = ackTag p' t') : p = p' ∧ t = t' := by
  have hprint (n : Nat) : Decimal.print 10 n = Decimal.digits 10 n := by
    simp [Decimal.print]
  have hdigits (n : Nat) (rest : Bytes) : (Decimal.digits 10 n ++ 58 :: rest).takeWhile
      Decimal.isDigit = Decimal.digits 10 n := by
    rw [List.takeWhile_append_of_pos fun b hb => Decimal.isDigit_of_mem_digits hb,
      List.takeWhile_cons_of_neg (by decide), List.append_nil]
  have hcolon : ascii ":" = [58] := by decide
  simp only [ackTag, hprint, hcolon, List.append_assoc, List.singleton_append] at h
  have hfirst := congrArg (List.takeWhile Decimal.isDigit) h
  rw [hdigits, hdigits] at hfirst
  rw [hfirst] at h
  have hsecond := (List.cons.inj (List.append_cancel_left h)).2
  have hread {m n : Nat} (hm : m < 10 ^ 10) (hn : n < 10 ^ 10)
      (heq : Decimal.digits 10 m = Decimal.digits 10 n) : m = n := by
    have hvalue := congrArg Decimal.ofDigits heq
    rwa [Decimal.ofDigits_digits hm, Decimal.ofDigits_digits hn] at hvalue
  exact ⟨hread hp hp' hfirst, hread ht ht' hsecond⟩

structure Message where
  id : Nat
  priori : Fin 3
  tag : Nat
  item : Bytes
  deriving DecidableEq

def Message.name (m : Message) : Bytes := ackTag m.priori m.tag

structure Ledger where
  count : Nat
  waiting : Fin 3 → List Message
  delivered : List Message
  holder : Bytes → Option Message
  acking : List (Option Message)
  done : List Message

namespace Ledger

def empty : Ledger := ⟨0, fun _ => [], [], fun _ => none, [], []⟩

variable {σ : Type}

def putOne (l : Ledger) (p : Fin 3) (tag : Nat) (item : Bytes) : Ledger :=
  let m : Message := ⟨l.count, p, tag, item⟩
  { l with
    count := l.count + 1
    waiting := assign l.waiting p (l.waiting p ++ [m])
    holder := assign l.holder m.name (some m) }

theorem mem_waiting_putOne {l : Ledger} {p p' : Fin 3} {tag : Nat} {item : Bytes} {m : Message}
    (hm : m ∈ (l.putOne p tag item).waiting p') :
    m ∈ l.waiting p' ∨ p' = p ∧ m = ⟨l.count, p, tag, item⟩ := by
  by_cases hp : p' = p
  · subst hp
    simp only [putOne, assign_self, List.mem_append, List.mem_singleton] at hm
    exact hm.imp id fun hm => ⟨rfl, hm⟩
  · simp only [putOne, assign_of_ne hp] at hm
    exact .inl hm

def acknowledge (l : Ledger) (name : Bytes) : Ledger :=
  { l with
    delivered := l.delivered.eraseP (·.name = name)
    acking := l.acking ++ [l.delivered.find? (·.name = name)] }

def firstOne (l : Ledger) (p : Fin 3) (tag : Nat) (isAck : Bool) (r : Rc) : Ledger :=
  let m := (l.waiting p).find? (·.tag = tag)
  let l := { l with waiting := assign l.waiting p ((l.waiting p).eraseP (·.tag = tag)) }
  if r ≠ .ok then l
  else if isAck then { l with acking := l.acking ++ [m] }
  else { l with delivered := l.delivered ++ m.toList }

def getOne (l : Ledger) (v : Mq.View σ) (isAck : Bool) (reply : Mq.GetReply) : Ledger :=
  if reply.ack = [] then l
  else match v.queue.due v.now with
    | some name => if isAck ∧ reply.r = .ok then l.acknowledge name else l
    | none => match v.queue.highest with
      | some p => l.firstOne p (nextTag (v.queue.window p).sp) isAck reply.r
      | none => l

def finishOne (l : Ledger) (i : Nat) (r : Rc) : Ledger :=
  { l with
    acking := l.acking.eraseIdx i
    done := if r = .ok then l.done ++ (l.acking[i]?.join).toList else l.done }

def purgeOne (l : Ledger) (p : Fin 3) : Ledger := { l with waiting := assign l.waiting p [] }

def record (l : Ledger) (v : Mq.View σ) : MqOp → MqReply → Ledger
  | .put item priori, .rc .ok =>
    if h : priori < 3 then l.putOne ⟨priori, h⟩ (nextTag (v.queue.window ⟨priori, h⟩).ep) item else l
  | .get _ isAck, .message reply => l.getOne v isAck reply
  | .ack token, .token (.ok _) => l.acknowledge token
  | .finish i, .rc r => l.finishOne i r
  | .purge priori, .rc .ok => if h : priori < 3 then l.purgeOne ⟨priori, h⟩ else l
  | _, _ => l

theorem record_setting {l : Ledger} {v : Mq.View σ} {op : MqOp} (hop : op.isSetting) {r : Rc} :
    l.record v op (.rc r) = l := by
  cases op with
  | max _ | lock _ | timeout _ => rfl
  | put _ _ | get _ _ | ack _ | finish _ | purge _ | tick _ | threshold _ => cases hop

def step (kv : Kv σ) (conf : MqConf) (queue : Bytes) (s : MqRun σ × Ledger) (op : MqOp) :
    MqRun σ × Ledger :=
  (op.step kv conf queue s.1, s.2.record (s.1.server.view conf queue) op (op.call kv conf queue s.1).1)

def live (l : Ledger) : List Message := l.waiting 0 ++ l.waiting 1 ++ l.waiting 2 ++ l.delivered

theorem mem_live {l : Ledger} {m : Message} : m ∈ l.live ↔ (∃ p, m ∈ l.waiting p) ∨ m ∈ l.delivered := by
  simp only [live, List.mem_append]
  constructor
  · rintro (((h | h) | h) | h)
    · exact .inl ⟨_, h⟩
    · exact .inl ⟨_, h⟩
    · exact .inl ⟨_, h⟩
    · exact .inr h
  · rintro (⟨p, h⟩ | h)
    · obtain rfl | rfl | rfl : p = 0 ∨ p = 1 ∨ p = 2 := by omega
      · exact .inl (.inl (.inl h))
      · exact .inl (.inl (.inr h))
      · exact .inl (.inr h)
    · exact .inr h

end Ledger

def Queue.Unused (q : Queue) (queue : Bytes) (pending : List Bytes) (name : Bytes) : Prop :=
  q.unacked.get? name = none ∧ (∀ e ∈ q.redelivery.entries, e.2 ≠ name) ∧ tagKey queue name ∉ pending

instance (q : Queue) (queue : Bytes) (pending : List Bytes) (name : Bytes) :
    Decidable (q.Unused queue pending name) := inferInstanceAs (Decidable (_ ∧ _ ∧ _))

end HustStore
