import TypeErasure.Grammar

/-!
# Erasure

A run reads a text from left to right. In each round it takes the next construct, patches it, and
goes on behind the patch, so that what a patch wrote is never read as a construct. It is still
looked back at: the text that a round sees is the output so far followed by the source that is left.

A run is recorded as the list of its rounds. The pieces of the source, the output and the events are
read off that record:

* `Erasure.pieces` divides the source into kept and erased pieces;
* `Erasure.output` is the output text;
* `Erasure.events` lists what happened, in order.

`erase` is the run under given rules.
-/

namespace TypeErasure

/-- The record of one round. -/
structure Round where
  /-- The source between the round before and the construct. -/
  gap : Bytes
  /-- The construct. -/
  found : Match
  /-- The offset at which the construct ends. -/
  stop : Nat
  /-- The text of the construct. -/
  replaced : Bytes
  /-- The pieces into which the construct fell. -/
  pieces : List Piece
  /-- What happened in the course of patching it. -/
  notices : List Event
  deriving DecidableEq, Repr

namespace Round

/-- The text that stands in the output for the construct. -/
def replacement (r : Round) : Bytes :=
  Piece.outputOf r.pieces

/-- The event of the round itself. -/
def event (r : Round) : Event :=
  if r.replacement = r.replaced then .kept r.found.kind ⟨r.found.start, r.stop⟩
  else .erased r.found.kind ⟨r.found.start, r.stop⟩ r.replacement

end Round

/-- The record of a run: its rounds, and the source behind the last of them. -/
structure Erasure where
  rounds : List Round
  rest : Bytes
  deriving DecidableEq, Repr

namespace Erasure

/-- The source, divided into kept and erased pieces. -/
def pieces (e : Erasure) : List Piece :=
  (e.rounds.flatMap fun r => .kept r.gap :: r.pieces) ++ [.kept e.rest]

/-- The output of the run. -/
def output (e : Erasure) : Bytes :=
  Piece.outputOf e.pieces

/-- What happened, in order. The event of a round follows those of its inner runs. -/
def events (e : Erasure) : List Event :=
  e.rounds.flatMap fun r => r.notices ++ [r.event]

end Erasure

/-- A construct whose patch would not move the run on. -/
structure Stall where
  kind : Construct
  offset : Nat
  deriving DecidableEq, Repr

/-- The wording of the error. -/
def Stall.message (s : Stall) : String :=
  s!"{s.kind.name} handler at byte {s.offset} made no progress"

/-! ### Inner runs -/

/-- The pieces and events of a patch after its inner runs. -/
structure Filling where
  pieces : List Piece
  events : List Event
  deriving DecidableEq, Repr

/-- Replaces each nested text of a patch by what the inner run `run` makes of it, from left to
right. The first inner run that stalls decides. -/
def fill (run : Bytes → Except Stall Erasure) : List Segment → Except Stall Filling
  | [] => .ok ⟨[], []⟩
  | .piece p :: rest =>
    match fill run rest with
    | .error s => .error s
    | .ok f => .ok ⟨p :: f.pieces, f.events⟩
  | .nested text :: rest =>
    match run text with
    | .error s => .error s
    | .ok e =>
      match fill run rest with
      | .error s => .error s
      | .ok f => .ok ⟨e.pieces ++ f.pieces, e.events ++ f.events⟩

/-! ### The run -/

/-- **The run of a grammar** on the source `rest`, where `done` is the output so far. A patch moves
the run on if it ends behind its start and within the text, lies behind the output so far, and
writes something. -/
def Grammar.runFrom (g : Grammar) (done rest : Bytes) : Except Stall Erasure :=
  let text : Bytes := done ++ rest
  match g.next text done.size with
  | none => .ok ⟨[], rest⟩
  | some m =>
    let patch := g.patch text m
    let inner (nested : Bytes) : Except Stall Erasure :=
      if nested.size < rest.size then g.runFrom #[] nested else .error ⟨m.kind, m.start⟩
    match fill inner patch.segments with
    | .error s => .error s
    | .ok f =>
      let replacement := Piece.outputOf f.pieces
      if _h : done.size ≤ m.start ∧ m.start < patch.stop ∧ patch.stop ≤ text.size ∧
          0 < replacement.size then
        let gap := text.slice done.size m.start
        match g.runFrom (done ++ gap ++ replacement) (text.slice patch.stop text.size) with
        | .error s => .error s
        | .ok e =>
          .ok {
            rounds := {
              gap
              found := m
              stop := patch.stop
              replaced := text.slice m.start patch.stop
              pieces := f.pieces
              notices := f.events ++ patch.notices } :: e.rounds
            rest := e.rest }
      else .error ⟨m.kind, m.start⟩
termination_by rest.size
decreasing_by
  · assumption
  · simp only [text, patch, Array.size_append] at _h
    simp only [Bytes.slice, Array.size_extract, Array.size_append, Nat.min_self]
    omega

/-- The run of a grammar on a text. -/
def Grammar.run (g : Grammar) (text : Bytes) : Except Stall Erasure :=
  g.runFrom #[] text

/-- **The erasure of a text** under the given rules. -/
def erase (rules : Rules) (text : Bytes) : Except Stall Erasure :=
  rules.grammar.run text

end TypeErasure
