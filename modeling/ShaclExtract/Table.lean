/-!
# ShaclExtract.Table

Finite maps as lists of entries. A key occurs at most once; a new key goes to the end and an old one
keeps its place when its value is replaced.
-/

namespace ShaclExtract

structure Table (κ : Type) (α : Type) where
  entries : List (κ × α)

namespace Table

variable {κ α β : Type} [DecidableEq κ]

def empty : Table κ α := ⟨[]⟩

/-- The value of the first entry for a key. -/
def lookup : List (κ × α) → κ → Option α
  | [], _ => none
  | (k, v) :: rest, key => if k = key then some v else lookup rest key

/-- Replaces the value of the first entry for a key, or adds one at the end. -/
def put : List (κ × α) → κ → α → List (κ × α)
  | [], key, value => [(key, value)]
  | (k, v) :: rest, key, value =>
    if k = key then (k, value) :: rest else (k, v) :: put rest key value

def get? (t : Table κ α) (key : κ) : Option α := lookup t.entries key

def insert (t : Table κ α) (key : κ) (value : α) : Table κ α := ⟨put t.entries key value⟩

def contains (t : Table κ α) (key : κ) : Bool := (t.get? key).isSome

def keys (t : Table κ α) : List κ := t.entries.map Prod.fst

def values (t : Table κ α) : List α := t.entries.map Prod.snd

def size (t : Table κ α) : Nat := t.entries.length

def isEmpty (t : Table κ α) : Bool := t.entries.isEmpty

def ofList (entries : List (κ × α)) : Table κ α :=
  entries.foldl (fun t e => t.insert e.1 e.2) empty

/-! ## entries -/

theorem lookup_append (l l' : List (κ × α)) (k : κ) :
    lookup (l ++ l') k = (lookup l k).or (lookup l' k) := by
  induction l with
  | nil => simp [lookup]
  | cons e l ih =>
    obtain ⟨k', v⟩ := e
    by_cases h : k' = k <;> simp [lookup, h, ih]

theorem mem_of_lookup {l : List (κ × α)} {k : κ} {v : α} (h : lookup l k = some v) :
    (k, v) ∈ l := by
  induction l with
  | nil => cases h
  | cons e l ih =>
    obtain ⟨k', v'⟩ := e
    simp only [lookup] at h
    split at h
    · rename_i hk
      cases h
      simp [hk]
    · exact List.mem_cons_of_mem _ (ih h)

theorem lookup_eq_none_iff {l : List (κ × α)} {k : κ} :
    lookup l k = none ↔ k ∉ l.map Prod.fst := by
  induction l with
  | nil => simp [lookup]
  | cons e l ih =>
    obtain ⟨k', v⟩ := e
    by_cases h : k' = k
    · simp [lookup, h]
    · simp [lookup, h, ih, Ne.symm h]

theorem lookup_of_mem {l : List (κ × α)} (hl : (l.map Prod.fst).Nodup) {k : κ} {v : α}
    (h : (k, v) ∈ l) : lookup l k = some v := by
  induction l with
  | nil => cases h
  | cons e l ih =>
    obtain ⟨k', v'⟩ := e
    rw [List.map_cons, List.nodup_cons] at hl
    rcases List.mem_cons.1 h with h | h
    · cases h
      simp [lookup]
    · have hk : k' ≠ k := by
        rintro rfl
        exact hl.1 (List.mem_map.2 ⟨(k', v), h, rfl⟩)
      simp [lookup, hk, ih hl.2 h]

/-! ## reading after writing -/

theorem lookup_put_self (l : List (κ × α)) (k : κ) (v : α) : lookup (put l k v) k = some v := by
  induction l with
  | nil => simp [put, lookup]
  | cons e l ih =>
    obtain ⟨k', v'⟩ := e
    by_cases h : k' = k <;> simp [put, lookup, h, ih]

theorem lookup_put_of_ne (l : List (κ × α)) {k k' : κ} (v : α) (h : k ≠ k') :
    lookup (put l k v) k' = lookup l k' := by
  induction l with
  | nil => simp [put, lookup, h]
  | cons e l ih =>
    obtain ⟨k₀, v₀⟩ := e
    by_cases hk : k₀ = k
    · subst hk; simp [put, lookup, h]
    · simp [put, lookup, hk, ih]

@[simp] theorem get?_empty (k : κ) : (empty : Table κ α).get? k = none := rfl

@[simp] theorem get?_insert_self (t : Table κ α) (k : κ) (v : α) :
    (t.insert k v).get? k = some v := lookup_put_self t.entries k v

theorem get?_insert_of_ne (t : Table κ α) {k k' : κ} (v : α) (h : k ≠ k') :
    (t.insert k v).get? k' = t.get? k' := lookup_put_of_ne t.entries v h

end Table

end ShaclExtract
