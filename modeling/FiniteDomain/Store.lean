import FiniteDomain.Breach
/-!
# Keyed stores

A growing sequence that is read and written through its own type of keys. Keys are handed out in
order from position zero. A look-up that the caller promised to be in range is checked, and
answers with a breach when it is not.
-/
namespace FiniteDomain

/-- A sequence of `α` whose positions are named by `κ`. -/
structure Store (κ α : Type) where
  items : Array α
deriving DecidableEq

namespace Store
variable {κ α : Type}

def empty : Store κ α := ⟨#[]⟩

instance : Inhabited (Store κ α) := ⟨empty⟩

def ofList (as : List α) : Store κ α := ⟨as.toArray⟩

def size (s : Store κ α) : Nat := s.items.size

def isEmpty (s : Store κ α) : Bool := s.items.isEmpty

def toList (s : Store κ α) : List α := s.items.toList

def push (s : Store κ α) (a : α) : Store κ α := ⟨s.items.push a⟩

@[simp] theorem size_empty : (empty : Store κ α).size = 0 := rfl

@[simp] theorem toList_empty : (empty : Store κ α).toList = [] := rfl

@[simp] theorem toList_ofList (as : List α) : (ofList as : Store κ α).toList = as := rfl

@[simp] theorem length_toList (s : Store κ α) : s.toList.length = s.size := by
  simp [toList, size]

@[simp] theorem toList_push (s : Store κ α) (a : α) : (s.push a).toList = s.toList ++ [a] := by
  simp [toList, push]

@[simp] theorem size_push (s : Store κ α) (a : α) : (s.push a).size = s.size + 1 := by
  simp [size, push]

variable [Key κ]

/-- The keys in use, in order. -/
def keys (s : Store κ α) : List κ := (List.range s.size).map Key.ofIndex

def nextKey (s : Store κ α) : κ := Key.ofIndex s.size

def get? (s : Store κ α) (k : κ) : Option α := s.items[Key.index k]?

def missing (s : Store κ α) (k : κ) : Breach := .outOfBounds s.size (Key.index k)

/-- The item at a key that the caller promises to be in use. -/
def fetch (s : Store κ α) (k : κ) : Except Breach α :=
  match s.get? k with
  | some a => .ok a
  | none => .error (s.missing k)

/-- Replaces the item at `k` by what `f` makes of it; a breach of `f` leaves the store alone. -/
def alter (s : Store κ α) (k : κ) (f : α → Except Breach α) : Except Breach (Store κ α) :=
  if h : Key.index k < s.items.size then
    match f s.items[Key.index k] with
    | .ok a => .ok ⟨s.items.set (Key.index k) a⟩
    | .error b => .error b
  else .error (s.missing k)

def set (s : Store κ α) (k : κ) (a : α) : Except Breach (Store κ α) := s.alter k fun _ => .ok a

/-- Replaces the item at `k`, if there is one. -/
def modify (s : Store κ α) (k : κ) (f : α → α) : Store κ α := ⟨s.items.modify (Key.index k) f⟩

/-- Grows the store with copies of `a` until `k` is in use. -/
def accommodate (s : Store κ α) (k : κ) (a : α) : Store κ α :=
  ⟨s.items ++ Array.replicate (Key.index k + 1 - s.items.size) a⟩

theorem get?_eq (s : Store κ α) (k : κ) : s.get? k = s.toList[Key.index k]? := by
  simp [get?, toList]

theorem get?_push (s : Store κ α) (a : α) (k : κ) :
    (s.push a).get? k = if Key.index k = s.size then some a else s.get? k :=
  Array.getElem?_push

theorem get?_eq_none_iff (s : Store κ α) (k : κ) : s.get? k = none ↔ s.size ≤ Key.index k := by
  simp [get?, size]

theorem fetch_eq_ok_iff (s : Store κ α) (k : κ) (a : α) : s.fetch k = .ok a ↔ s.get? k = some a := by
  cases h : s.get? k <;> simp [fetch, h]

@[simp] theorem size_modify (s : Store κ α) (k : κ) (f : α → α) : (s.modify k f).size = s.size := by
  simp [size, modify]

end Store

end FiniteDomain
