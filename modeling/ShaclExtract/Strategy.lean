import ShaclExtract.Extractor
import ShaclExtract.Memo

/-!
# ShaclExtract.Strategy

Two ways to run what is asked for more than once. The memoized way keeps every result in a slot and
answers with references; the plain way runs everything again each time and answers with the values
themselves, so on data that leads back to itself it may not end.
-/

namespace ShaclExtract

/-- Counters by name; one that was never counted is zero. -/
abbrev Counters := Table String Nat

namespace Counters

/-- Adds one to a counter; the first component is its new value. -/
def tick (c : Counters) (name : String) : Nat × Counters :=
  let n := (c.get? name).getD 0 + 1
  (n, c.insert name n)

end Counters

/-- How results of shared extractors are kept in the state of a run. -/
structure Strategy (σ : Type) where
  share : ExtractorId → Extractor σ View Value → Extractor σ View Value
  resolve : σ → Value → Value
  tick : σ → String → Nat × σ

structure RunState where
  memo : Memo
  counters : Counters

namespace RunState

def start (counters : Counters) : RunState := ⟨.empty, counters⟩

end RunState

namespace Memo

/--
Runs an extractor at most once for each node: answers with a reference to the slot of the result.
The slot is there before the run starts, so a run that comes back to its own node ends. A failure
takes back the slot and all later ones.
-/
def shared (id : ExtractorId) (x : Extractor RunState View Value) :
    Extractor RunState View Value := fun view s =>
  let key := MemoKey.of id view.focus
  match s.memo.lookup key with
  | some slot => some (.ok (.ref slot), s)
  | none =>
    let slot := s.memo.next
    match x view { s with memo := s.memo.reserve key } with
    | none => none
    | some (.ok v, s) => some (.ok (.ref slot), { s with memo := s.memo.settle slot v })
    | some (.error e, s) => some (.error e, { s with memo := s.memo.failFrom slot })

end Memo

namespace Strategy

def memoized : Strategy RunState where
  share := Memo.shared
  resolve s v := s.memo.resolve v
  tick s name := ((s.counters.tick name).1, { s with counters := (s.counters.tick name).2 })

def plain : Strategy Counters where
  share _ x := x
  resolve _ v := v
  tick := Counters.tick

end Strategy

end ShaclExtract
