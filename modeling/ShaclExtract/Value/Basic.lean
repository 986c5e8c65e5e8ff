import ShaclExtract.DateTime
import ShaclExtract.Number.Binary64
import ShaclExtract.Path.Basic
import ShaclExtract.Rdf.Graph

/-!
# ShaclExtract.Value.Basic

Extracted values. A record lists its fields in ascending order of their names, each name once. A
reference points to a slot of the memo that holds the value of a shared node; `pending` is what a
reader sees in place of a value that is not there yet.
-/

namespace ShaclExtract

structure SlotId where
  index : Nat
deriving DecidableEq, Repr

def SlotId.toText (s : SlotId) : String := s!"s{s.index}"

inductive Value where
  | null
  | bool (value : Bool)
  | integer (value : Int)
  | float (value : Binary64)
  | text (value : String)
  | dateTime (value : DateTime)
  | term (value : Term)
  | quads (value : Graph)
  | path (value : Path)
  | list (items : List Value)
  | record (fields : List (String × Value))
  | ref (slot : SlotId)
  | pending
deriving Repr

abbrev Record := List (String × Value)

namespace Record

/-- Replaces the field of a name, or puts a new field in its place in the order. -/
def insert : Record → String → Value → Record
  | [], name, value => [(name, value)]
  | (n, v) :: rest, name, value =>
    if name = n then (name, value) :: rest
    else if name < n then (name, value) :: (n, v) :: rest
    else (n, v) :: insert rest name value

def get? : Record → String → Option Value
  | [], _ => none
  | (n, v) :: rest, name => if n = name then some v else get? rest name

def merge (old new : Record) : Record := new.foldl (fun r f => insert r f.1 f.2) old

/-- The record with the given fields; of two fields with one name the later counts. -/
def ofList (fields : List (String × Value)) : Record := merge [] fields

def names (r : Record) : List String := r.map Prod.fst

theorem get?_insert_self (r : Record) (name : String) (v : Value) :
    get? (insert r name v) name = some v := by
  induction r with
  | nil => simp [insert, get?]
  | cons f r ih =>
    obtain ⟨n, w⟩ := f
    unfold insert
    split
    · simp [get?]
    · split
      · simp [get?]
      · rename_i h _
        simp [get?, Ne.symm h, ih]

theorem get?_insert_of_ne (r : Record) {name other : String} (v : Value) (h : name ≠ other) :
    get? (insert r name v) other = get? r other := by
  induction r with
  | nil => simp [insert, get?, h]
  | cons f r ih =>
    obtain ⟨n, w⟩ := f
    unfold insert
    split
    · rename_i hn
      subst hn
      simp [get?, h]
    · split
      · simp [get?, h]
      · simp [get?, ih]

end Record

namespace Value

def ofOption : Option Value → Value
  | some v => v
  | none => .null

def field? (v : Value) (name : String) : Option Value :=
  match v with
  | .record r => Record.get? r name
  | _ => none

def element? (v : Value) (index : Nat) : Option Value :=
  match v with
  | .list items => items[index]?
  | _ => none

end Value

end ShaclExtract
