import DynamicLisp.Environment.Basic
import DynamicLisp.Host.Basic

/-! Computations that change the world and return a value or stop early. -/
namespace DynamicLisp

/-- Why a computation stops. -/
inductive Stop
  | error (e : LispError)
  | exit (code : Int)
  /-- The base scope was to be left. -/
  | noScope
  /-- An exact whole number beyond the greatest double was to become a number. -/
  | overflow
  /-- A comparison of two values comes back to itself. -/
  | endless
  /-- The host raised what no part of the program answers for. -/
  | fault (f : HostFault)
  /-- The computation goes deeper than its limit. -/
  | runaway
deriving DecidableEq, Inhabited

instance : MonadLift (Except LispError) (Except Stop) := ⟨Except.mapError .error⟩

instance : MonadLift (Except HostFault) (Except Stop) := ⟨Except.mapError .fault⟩

/-- Errors of the system are reported as failures of the program. Nothing else that the host raises
is. -/
def Stop.ofFault (report : FileError → LispError) : HostFault → Stop
  | .system e => .error (report e)
  | f => .fault f

structure World where
  environment : Environment
  host : Host
deriving Inhabited

/-- What becomes of the world is known however the computation ends. -/
def Action (α : Type) : Type := World → Except Stop α × World

namespace Action

variable {α β : Type}

@[always_inline, inline]
def pure (a : α) : Action α := fun w => (.ok a, w)

@[always_inline, inline]
def bind (x : Action α) (f : α → Action β) : Action β := fun w =>
  match x w with
  | (.ok a, w) => f a w
  | (.error s, w) => (.error s, w)

instance : Monad Action where
  pure := pure
  bind := bind

theorem pure_apply (a : α) (w : World) : (Pure.pure a : Action α) w = (.ok a, w) := rfl

theorem bind_apply (x : Action α) (f : α → Action β) (w : World) :
    (x >>= f) w = match x w with
      | (.ok a, w) => f a w
      | (.error s, w) => (.error s, w) := rfl

instance : LawfulMonad Action := by
  refine .mk' _ (fun x => ?_) (fun _ _ => rfl) (fun x f g => ?_) <;> funext w
  · simp only [Functor.map, bind]
    obtain ⟨_ | _, _⟩ := x w <;> rfl
  · simp only [bind_apply]
    obtain ⟨_ | _, _⟩ := x w <;> rfl

def stop (s : Stop) : Action α := fun w => (.error s, w)

def fail (e : LispError) : Action α := stop (.error e)

/-- Goes on with a result that may be a stop. -/
def ofExcept (r : Except Stop α) : Action α := fun w => (r, w)

instance : MonadLift (Except Stop) Action := ⟨ofExcept⟩

/-- Goes on with what the host gives for a file, where a program is told of the errors of the system. -/
def access (report : FileError → LispError) (r : Except HostFault α) : Action α :=
  ofExcept (r.mapError (Stop.ofFault report))

def environment : Action Environment := fun w => (.ok w.environment, w)

def host : Action Host := fun w => (.ok w.host, w)

def modifyEnvironment (f : Environment → Environment) : Action Unit := fun w =>
  (.ok (), { w with environment := f w.environment })

def modifyHost (f : Host → Host) : Action Unit := fun w => (.ok (), { w with host := f w.host })

def define (x : String) (d : Datum) : Action Unit := modifyEnvironment (·.define x d)

/-- Runs a computation in a scope of its own, which is dropped however the computation ends. -/
def inScope (body : Action α) : Action α := fun w =>
  let (r, w) := body { w with environment := w.environment.enter }
  match w.environment.exit? with
  | some e => (r, { w with environment := e })
  | none => (.error .noScope, w)

/-- Catches the failures of the program, but nothing else. -/
def catchError (x : Action α) : Action (Except LispError α) := fun w =>
  match x w with
  | (.ok a, w) => (.ok (.ok a), w)
  | (.error (.error e), w) => (.ok (.error e), w)
  | (.error s, w) => (.error s, w)

end Action

end DynamicLisp
