import DynamicLisp.Datum.Basic
import DynamicLisp.Table

/-! Environments: a stack of scopes above a base that stays, and the known struct types. -/
namespace DynamicLisp

abbrev Scope := Table String Datum

structure Environment where
  /-- The scopes above the base, the innermost first. -/
  inner : List Scope
  base : Scope
  /-- The field names of each struct type. -/
  structs : Table String (List String)
deriving Inhabited

namespace Environment

def empty : Environment := ⟨[], .empty, .empty⟩

/-- The number of scopes above the base. -/
def depth (e : Environment) : Nat := e.inner.length

/-- All scopes, the innermost first. -/
def scopes (e : Environment) : List Scope := e.inner ++ [e.base]

def innermost (e : Environment) : Scope := e.inner.headD e.base

def enter (e : Environment) : Environment := { e with inner := .empty :: e.inner }

/-- Drops the innermost scope. The base cannot be dropped. -/
def exit? (e : Environment) : Option Environment :=
  match e.inner with
  | [] => none
  | _ :: inner => some { e with inner := inner }

/-- Changes the innermost scope. -/
def modifyInnermost (f : Scope → Scope) (e : Environment) : Environment :=
  match e.inner with
  | [] => { e with base := f e.base }
  | s :: inner => { e with inner := f s :: inner }

def define (e : Environment) (x : String) (d : Datum) : Environment :=
  e.modifyInnermost (·.set x d)

def update (e : Environment) (bindings : List (String × Datum)) : Environment :=
  e.modifyInnermost (·.update bindings)

/-- Looks a name up in a list of scopes and then in the base. -/
def lookupIn (inner : List Scope) (base : Scope) (x : String) : Option Datum :=
  match inner.findSome? (·.find? x) with
  | some d => some d
  | none => base.find? x

/-- The value of a name in the innermost scope that has it. -/
def get? (e : Environment) (x : String) : Option Datum := lookupIn e.inner e.base x

/-- The same without the innermost scope, unless that is the base. -/
def getSuper? (e : Environment) (x : String) : Option Datum := lookupIn e.inner.tail e.base x

/-- Registers a struct type, in the place of an earlier one of its name. -/
def addStruct (e : Environment) (type : String) (fields : List String) : Environment :=
  { e with structs := e.structs.set type fields }

def fields? (e : Environment) (type : String) : Option (List String) := e.structs.find? type

variable (e : Environment) (x y : String) (d : Datum)

@[simp] theorem depth_enter : e.enter.depth = e.depth + 1 := rfl

@[simp] theorem exit?_enter : e.enter.exit? = some e := rfl

@[simp] theorem getSuper?_enter : e.enter.getSuper? x = e.get? x := rfl

@[simp] theorem depth_modifyInnermost (f : Scope → Scope) :
    (e.modifyInnermost f).depth = e.depth := by
  unfold modifyInnermost depth
  split <;> simp_all

theorem get?_enter : e.enter.get? x = e.get? x := by
  simp [get?, enter, lookupIn, List.findSome?_cons]

theorem get?_define : (e.define x d).get? y = if x = y then some d else e.get? y := by
  unfold get? define modifyInnermost
  split <;> rename_i h <;> by_cases hx : x = y <;>
    simp [lookupIn, List.findSome?_cons, Table.find?_set, h, hx]

end Environment

end DynamicLisp
