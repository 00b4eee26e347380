import YieldPlan.Error
import YieldPlan.OutputStream

/-! What a run shows while it works, as data. A `Traced` computation yields its events together with
its outcome, and keeps the events before a failure. -/

namespace YieldPlan

inductive Level where
  | warn | info | debug
  deriving DecidableEq, Repr, Inhabited

def Level.name : Level → String
  | .warn => "WARN"
  | .info => "INFO"
  | .debug => "DEBUG"

inductive Verbosity where
  | off | error | warn | info | debug | trace
  deriving DecidableEq, Repr, Inhabited

def Verbosity.name : Verbosity → String
  | .off => "OFF"
  | .error => "ERROR"
  | .warn => "WARN"
  | .info => "INFO"
  | .debug => "DEBUG"
  | .trace => "TRACE"

def Verbosity.all : List Verbosity := [.off, .error, .warn, .info, .debug, .trace]

def Verbosity.ofName? (s : String) : Option Verbosity :=
  Verbosity.all.find? fun v => v.name == s.map Char.toUpper

def Verbosity.admits : Verbosity → Level → Bool
  | .off, _ | .error, _ => false
  | .warn, l => l = .warn
  | .info, l => l ≠ .debug
  | .debug, _ | .trace, _ => true

/-- What a text is when it is written: lines, or one document and a line end. -/
inductive OutputKind where
  | lines | document
  deriving DecidableEq, Repr, Inhabited

inductive Event where
  | log (level : Level) (text : String)
  | output (kind : OutputKind) (stream : OutputStream) (text : String)
  deriving DecidableEq, Repr, Inhabited

def Verbosity.line? (v : Verbosity) : Event → Option String
  | .log level text => if v.admits level then some s!"{level.name} {text}" else none
  | .output .. => none

def Verbosity.shown (v : Verbosity) (events : List Event) : List String :=
  events.filterMap v.line?

structure Traced (α : Type) where
  events : List Event
  result : Checked α

namespace Traced

variable {α β : Type}

def pure (a : α) : Traced α := ⟨[], .ok a⟩

def bind (x : Traced α) (f : α → Traced β) : Traced β :=
  match x.result with
  | .ok a => let y := f a; ⟨x.events ++ y.events, y.result⟩
  | .error e => ⟨x.events, .error e⟩

instance : Monad Traced where
  pure := Traced.pure
  bind := Traced.bind

def ofChecked (r : Checked α) : Traced α := ⟨[], r⟩

instance : MonadLift Checked Traced := ⟨ofChecked⟩

def emit (events : List Event) : Traced Unit := ⟨events, .ok ()⟩

def log (level : Level) (text : String) : Traced Unit := emit [.log level text]

@[simp] theorem result_pure (a : α) : (Pure.pure a : Traced α).result = .ok a := rfl

@[simp] theorem events_pure (a : α) : (Pure.pure a : Traced α).events = [] := rfl

@[simp] theorem result_ofChecked (r : Checked α) : (ofChecked r).result = r := rfl

@[simp] theorem result_emit (events : List Event) : (emit events).result = .ok () := rfl

@[simp] theorem result_log (level : Level) (text : String) : (log level text).result = .ok () := rfl

@[simp] theorem result_bind (x : Traced α) (f : α → Traced β) :
    (x >>= f).result = x.result >>= fun a => (f a).result := by
  show (Traced.bind x f).result = Except.bind x.result _
  unfold Traced.bind
  cases x.result <;> rfl

end Traced

end YieldPlan
