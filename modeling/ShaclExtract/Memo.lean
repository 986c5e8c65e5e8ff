import ShaclExtract.Table
import ShaclExtract.Value.Basic

/-!
# ShaclExtract.Memo

Shared results of one extraction. Each shared result has a slot; the index finds the slot of an
extractor at a node. A slot is reserved before the result is computed, so an extraction that comes
back to the same node meets the unfinished slot instead of running forever.

A run that fails takes back its own slot and every later one: those were filled within the failed
run and may refer to it. Their entries leave the index, so the results are computed anew when they
are asked for again.
-/

namespace ShaclExtract

/-- What is run by looking it up. -/
inductive Routine where
  | ofClass (cls : Iri)
  | procedure (name : String)
  /-- Extraction by the asserted types of a node. -/
  | dispatch
deriving DecidableEq, Repr

inductive ExtractorId where
  | routine (routine : Routine)
  | part (number : Nat)
deriving DecidableEq, Repr

/-- A node is known to the memo by its kind and its lexical form. -/
structure MemoKey where
  extractor : ExtractorId
  kind : TermKind
  lexical : String
deriving DecidableEq, Repr

def MemoKey.of (id : ExtractorId) (node : Term) : MemoKey := ⟨id, node.kind, node.lexical⟩

inductive Slot where
  | pending
  | ready (value : Value)
  | failed
deriving Repr

structure Memo where
  slots : List Slot
  /-- Newest first. -/
  index : List (MemoKey × SlotId)

namespace Memo

def empty : Memo := ⟨[], []⟩

def slot? (m : Memo) (id : SlotId) : Option Slot := m.slots[id.index]?

def size (m : Memo) : Nat := m.slots.length

def isEmpty (m : Memo) : Bool := m.slots.isEmpty

def lookup (m : Memo) (key : MemoKey) : Option SlotId := Table.lookup m.index key

def next (m : Memo) : SlotId := ⟨m.slots.length⟩

def reserve (m : Memo) (key : MemoKey) : Memo :=
  ⟨m.slots ++ [.pending], (key, m.next) :: m.index⟩

def settle (m : Memo) (id : SlotId) (value : Value) : Memo :=
  { m with slots := m.slots.set id.index (.ready value) }

/-- Fails a slot and all reserved after it. -/
def failFrom (m : Memo) (start : SlotId) : Memo where
  slots := m.slots.take start.index ++ List.replicate (m.slots.length - start.index) .failed
  index := m.index.filter fun e => e.2.index < start.index

/-- Follows at most `bound - 1` references. -/
def follow (m : Memo) : Nat → Value → Value
  | 0, _ => .pending
  | bound + 1, .ref id =>
    match m.slot? id with
    | some (.ready v) => follow m bound v
    | _ => .pending
  | _ + 1, v => v

/--
The value at the end of a chain of references. A chain that ends in a slot without value, or does
not end, reads as pending; one that ends uses no slot twice, so the number of slots bounds its
length.
-/
def resolve (m : Memo) (v : Value) : Value := m.follow (m.slots.length + 1) v

end Memo

end ShaclExtract
