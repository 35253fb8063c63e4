import Hornbook.Policy
import Hornbook.Predicate.Classification

/-!
# Events

What the library did, as its log tells it.  An event is recorded by its cause.  How it
reads in a log, which is a level, a message and named fields, follows from the cause.

A step that fails logs nothing, with one exception.  Looking up a name is logged before
the name is found or not.
-/

namespace Hornbook

/-- How much an event matters. -/
inductive Level where
  | trace
  | debug
  | warn
  deriving DecidableEq

/-- The word for a level. -/
def Level.word : Level → String
  | trace => "TRACE"
  | debug => "DEBUG"
  | warn => "WARN"

/-- Something worth a line in the log. -/
inductive Event where
  /-- A text that should name a policy does not. -/
  | policyIgnored (fault : UnknownPolicy)
  /-- A new predicate has a role that does not suit its node. -/
  | roleMismatch (predicate : String) (role : Role) (node : Program.NodeKind)
  | created (predicate : String) (role : Role) (arity : Nat) (node : Program.NodeKind)
  /-- A declaration got a predicate that was there before. -/
  | reused (predicate : String)
  | lookedUp (predicate : String)
  | versionAdded (predicate : String) (version : Nat)
  /-- All predicates of a registry were dropped. -/
  | reset (dropped : Nat)
  /-- A path was made into a trace. -/
  | traceBuilt (steps path : Nat)
  deriving DecidableEq

namespace Event

/-- How much an event matters. -/
def level : Event → Level
  | policyIgnored .. => .warn
  | roleMismatch .. => .warn
  | created .. => .debug
  | reused .. => .trace
  | lookedUp .. => .trace
  | versionAdded .. => .debug
  | reset .. => .debug
  | traceBuilt .. => .debug

/-- What an event says. -/
def message : Event → String
  | policyIgnored fault => "SOL_CHC_DUPLICATE_POLICY: " ++ fault.message
  | roleMismatch .. => "role does not match program node; predicate is unclassified"
  | created .. => "created predicate"
  | reused .. => "reusing identical predicate"
  | lookedUp .. => "lookup"
  | versionAdded .. => "new functor"
  | reset .. => "predicate registry reset"
  | traceBuilt .. => "built counterexample trace"

/-- The named fields of an event, in order. -/
def fields : Event → List (String × String)
  | policyIgnored _ => []
  | roleMismatch predicate role node =>
      [("predicate", predicate), ("role", role.word), ("node", node.word)]
  | created predicate role arity node =>
      [("predicate", predicate), ("role", role.word), ("arity", toString arity),
       ("node", node.word)]
  | reused predicate => [("predicate", predicate)]
  | lookedUp predicate => [("predicate", predicate)]
  | versionAdded predicate version => [("predicate", predicate), ("version", toString version)]
  | reset dropped => [("dropped", toString dropped)]
  | traceBuilt steps path => [("steps", toString steps), ("path", toString path)]

end Event

/-- The policy that a setting gives, and what is logged about it.  A missing setting and
a text that names no policy give the standard policy. -/
def DuplicatePolicy.ofSetting : Option String → DuplicatePolicy × List Event
  | none => (standard, [])
  | some s =>
      match ofText s with
      | .ok policy => (policy, [])
      | .error fault => (standard, [.policyIgnored fault])

/-- The policy that a variable gives, and what is logged about it.  A variable is set to
bytes.  Bytes that are no text are as good as no setting. -/
def DuplicatePolicy.ofVariable (value : Option ByteArray) : DuplicatePolicy × List Event :=
  ofSetting (value.bind String.fromUTF8?)

end Hornbook
