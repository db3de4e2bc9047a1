import TypeErasure.Construct
import TypeErasure.Piece

/-!
# Matches, patches and events

A `Match` is a construct found in a text. A `Patch` says what becomes of it: where it ends, and into
which segments it falls. A segment is a piece, or the text of an expression that has to be erased on
its own before it can take its place.

An `Event` records what happened at a place of the text as it was at that moment, that is with the
comments that earlier patches put into it.
-/

namespace TypeErasure

/-- A construct found in a text. Its range covers the bytes that gave it away; where the construct
ends is for its patch to say. -/
structure Match where
  kind : Construct
  span : Span
  deriving DecidableEq, Repr

namespace Match

/-- The offset at which the construct starts. -/
def start (m : Match) : Nat :=
  m.span.start

/-- The offset after the bytes that gave the construct away. -/
def stop (m : Match) : Nat :=
  m.span.stop

end Match

/-! ### Events -/

/-- How much an event matters. -/
inductive Level where
  | trace
  | debug
  | warn
  deriving DecidableEq, Repr

/-- The name of the level in logs. -/
def Level.name : Level → String
  | trace => "TRACE"
  | debug => "DEBUG"
  | warn => "WARN"

/-- What happens in the course of an erasure. -/
inductive Event where
  /-- The construct was replaced by `text`. -/
  | erased (kind : Construct) (span : Span) (text : Bytes)
  /-- The construct was left as it is. -/
  | kept (kind : Construct) (span : Span)
  /-- The walk through the fields of a class met a member that is no field. -/
  | walkStopped (offset : Nat)
  /-- A literal has no closing delimiter. -/
  | unterminated (kind : Construct) (offset : Nat)
  /-- The body of a declaration has no closing bracket. -/
  | neverClosed (kind : Construct) (offset : Nat)
  deriving DecidableEq, Repr

namespace Event

/-- The level of the event. -/
def level : Event → Level
  | erased .. => .debug
  | kept .. => .trace
  | walkStopped .. => .trace
  | unterminated .. => .warn
  | neverClosed .. => .warn

/-- The wording of the event. -/
def message : Event → String
  | erased .. => "erased"
  | kept .. => "kept"
  | walkStopped .. => "class member walk stopped"
  | unterminated .. => "unterminated literal runs to the end of the input"
  | neverClosed .. => "declaration body is never closed"

end Event

/-! ### Patches -/

/-- A part of a patched construct. -/
inductive Segment where
  /-- A piece whose fate is settled. -/
  | piece (p : Piece)
  /-- The text of an expression that is erased by a run of its own. -/
  | nested (text : Bytes)
  deriving DecidableEq, Repr

/-- The segment that keeps the bytes from `start` to `stop`. -/
def Segment.keep (b : Bytes) (start stop : Nat) : Segment :=
  .piece (.kept (b.slice start stop))

/-- The segment that comments out the bytes from `start` to `stop`. -/
def Segment.erase (b : Bytes) (start stop : Nat) : Segment :=
  .piece (.erased (b.slice start stop))

/-- What becomes of a construct: the offset at which it ends, its segments, and what there is to
report about it. -/
structure Patch where
  stop : Nat
  segments : List Segment
  notices : List Event := []
  deriving DecidableEq, Repr

/-- The patch that comments out the bytes from `start` to `stop`. -/
def Patch.erase (b : Bytes) (start stop : Nat) : Patch :=
  { stop, segments := [.erase b start stop] }

end TypeErasure
