import TandemScript.Config

/-!
# Events

What a run reports while it goes on, apart from its output. Events are kept as data; a log takes
those of its level and of the levels above.
-/

namespace TandemScript

/-- How much an event matters, the most important first. -/
inductive Level where
  | warn
  | debug
  | trace
  deriving DecidableEq, Repr

def Level.text : Level → String
  | .warn => "warn"
  | .debug => "debug"
  | .trace => "trace"

/-- How many levels matter more. -/
def Level.rank : Level → Nat
  | .warn => 0
  | .debug => 1
  | .trace => 2

/-- Something worth reporting. -/
inductive Event where
  | compiled (function : String) (params slots words : Nat)
  /-- A name of an enclosing function is read as a global one, `depth` functions further out. -/
  | notCaptured (name function : String) (depth : Nat) (line : UInt32)
  | nativeCall (function : String) (argc : Nat)
  | called (function stack : String)
  | returned (function stack : String)
  | closureCall (function : String) (argc depth : Nat)
  | depthLimit (depth : Nat)
  | heapExhausted (used capacity : Nat) (policy : HeapPolicy)
  | heapContents (heap : String)
  | heapGrown (capacity : Nat)
  deriving DecidableEq, Repr

namespace Event

def level : Event → Level
  | notCaptured .. | heapExhausted .. => .warn
  | compiled .. | nativeCall .. | depthLimit .. | heapGrown .. => .debug
  | called .. | returned .. | closureCall .. | heapContents .. => .trace

def message : Event → String
  | compiled .. => "compiled"
  | notCaptured .. =>
    "local of an enclosing function is not captured; resolving as global"
  | nativeCall .. => "native call"
  | called .. => "call"
  | returned .. => "return"
  | closureCall .. => "interpret call"
  | depthLimit .. => "call depth limit reached"
  | heapExhausted .. => "heap exhausted"
  | heapContents .. => "heap at exhaustion"
  | heapGrown .. => "heap grown"

/-- The details of an event, named. -/
def fields : Event → List (String × String)
  | compiled function params slots words =>
    [("function", function), ("params", toString params), ("slots", toString slots),
      ("words", toString words)]
  | notCaptured name function depth line =>
    [("name", name), ("function", function), ("depth", toString depth), ("line", toString line)]
  | nativeCall function argc => [("function", function), ("argc", toString argc)]
  | called function stack | returned function stack => [("function", function), ("stack", stack)]
  | closureCall function argc depth =>
    [("function", function), ("argc", toString argc), ("depth", toString depth)]
  | depthLimit depth => [("depth", toString depth)]
  | heapExhausted used capacity policy =>
    [("used", toString used), ("capacity", toString capacity), ("policy", policy.text)]
  | heapContents heap => [("heap", heap)]
  | heapGrown capacity => [("capacity", toString capacity)]

end Event

/-- The events reported so far, down to a level; without a level none are kept. -/
structure Log where
  level : Option Level := none
  events : Array Event := #[]
  deriving Inhabited

namespace Log

/-- Whether events of a level are kept. -/
def admits (log : Log) (level : Level) : Bool :=
  match log.level with
  | none => false
  | some least => level.rank ≤ least.rank

def add (log : Log) (event : Event) : Log :=
  if log.admits event.level then { log with events := log.events.push event } else log

end Log

end TandemScript
