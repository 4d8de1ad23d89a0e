/-! Finite maps and finite sets as lists in ascending order of their keys. -/

set_option autoImplicit false

namespace JvmPatch

/-- Adds an element to an ascending list, unless it is there. -/
def insertAscending {α : Type} [Ord α] [DecidableEq α] (x : α) : List α → List α
  | [] => [x]
  | y :: ys =>
    if x = y then y :: ys
    else if (compare x y).isLT then x :: y :: ys
    else y :: insertAscending x ys

/-- A finite map. Its keys ascend. -/
structure Table (α β : Type) where
  entries : List (α × β) := []
  deriving DecidableEq, Repr

namespace Table

variable {α β : Type} [Ord α] [DecidableEq α]

/-- The map without keys. -/
def empty : Table α β := ⟨[]⟩

def get? (t : Table α β) (key : α) : Option β := t.entries.lookup key

def contains (t : Table α β) (key : α) : Bool := (t.get? key).isSome

/-- Puts a value at a key of an ascending list. -/
def insertEntry (key : α) (value : β) : List (α × β) → List (α × β)
  | [] => [(key, value)]
  | e :: es =>
    if key = e.1 then (key, value) :: es
    else if (compare key e.1).isLT then (key, value) :: e :: es
    else e :: insertEntry key value es

/-- Puts a value at a key, in place of the value that is there. -/
def insert (t : Table α β) (key : α) (value : β) : Table α β := ⟨insertEntry key value t.entries⟩

/-- Drops the keys that do not satisfy a condition. -/
def filterKeys (t : Table α β) (keep : α → Bool) : Table α β :=
  ⟨t.entries.filter fun e => keep e.1⟩

def erase (t : Table α β) (key : α) : Table α β := t.filterKeys fun k => k != key

/-- The map of the listed entries; of two with one key, the later one counts. -/
def ofList (entries : List (α × β)) : Table α β := entries.foldl (fun t e => t.insert e.1 e.2) empty

def keys (t : Table α β) : List α := t.entries.map Prod.fst

/-- The first entry, in the order of the keys, whose value satisfies a condition. -/
def findKey? (t : Table α β) (p : β → Bool) : Option α :=
  (t.entries.find? fun e => p e.2).map Prod.fst

end Table

end JvmPatch
