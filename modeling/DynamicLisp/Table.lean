/-! Tables from keys to entries, in the order in which the keys first came in. -/
namespace DynamicLisp

structure Table (κ α : Type) where
  entries : List (κ × α)
deriving Inhabited

namespace Table

variable {κ α : Type} [DecidableEq κ]

def empty : Table κ α := ⟨[]⟩

def find? (t : Table κ α) (x : κ) : Option α := t.entries.lookup x

/-- Replaces the entry of a key where it stands, or adds it at the end. -/
def setIn (x : κ) (a : α) : List (κ × α) → List (κ × α)
  | [] => [(x, a)]
  | (y, b) :: es => if x = y then (y, a) :: es else (y, b) :: setIn x a es

def set (t : Table κ α) (x : κ) (a : α) : Table κ α := ⟨setIn x a t.entries⟩

/-- Adds entries one after the other, so that the last one for a key remains. -/
def update (t : Table κ α) (es : List (κ × α)) : Table κ α :=
  es.foldl (fun t (x, a) => t.set x a) t

def erase (t : Table κ α) (x : κ) : Table κ α := ⟨t.entries.filter (·.1 != x)⟩

@[simp] theorem find?_empty (x : κ) : (empty : Table κ α).find? x = none := rfl

theorem lookup_setIn (x y : κ) (a : α) (es : List (κ × α)) :
    (setIn x a es).lookup y = if x = y then some a else es.lookup y := by
  induction es with
  | nil => grind [setIn]
  | cons e es ih => grind [setIn]

theorem find?_set (t : Table κ α) (x y : κ) (a : α) :
    (t.set x a).find? y = if x = y then some a else t.find? y :=
  lookup_setIn x y a t.entries

theorem lookup_filter_ne (x y : κ) (es : List (κ × α)) :
    (es.filter (·.1 != x)).lookup y = if x = y then none else es.lookup y := by
  induction es with
  | nil => grind
  | cons e es ih => grind

theorem find?_erase (t : Table κ α) (x y : κ) :
    (t.erase x).find? y = if x = y then none else t.find? y :=
  lookup_filter_ne x y t.entries

end Table

end DynamicLisp
