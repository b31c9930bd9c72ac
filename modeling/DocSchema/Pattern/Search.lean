import DocSchema.Pattern.Parser
import DocSchema.Pattern.Program

/-!
Searching a text for a pattern by backtracking. Alternatives are tried from left to right. A repetition
may begin its body twice at one position and no more, which ends repetitions of the empty text. What
an assertion about the following text captures is kept, even if the match later fails.
-/

set_option autoImplicit false

namespace DocSchema.Pattern

/-- The part of the text that a group matched last; `start` alone changes when the group is
entered. -/
structure Capture where
  start : Nat := 0
  stop : Nat := 0
  isSet : Bool := false

/-- What the groups matched, by the number of the group. -/
abbrev Captures := Array Capture

/-- For each repetition the position of its last rounds, and how many began there. -/
abbrev Rounds := Array (Nat × Nat)

structure Attempt where
  text : Array UInt8
  /-- The position at which the attempt began. -/
  origin : Nat
  /-- Whether the byte before the origin counts. -/
  hasBefore : Bool
  /-- The number of repetitions. -/
  repetitions : Nat

namespace Attempt

def isWordAt (a : Attempt) (pos : Nat) : Bool :=
  a.text[pos]?.any isWord

def isBoundary (a : Attempt) (pos : Nat) : Bool :=
  let before := (pos != a.origin || a.hasBefore) && 0 < pos && a.isWordAt (pos - 1)
  before != a.isWordAt pos

/-- The end of a repetition at `pos` of the text from `first` to `last`. -/
def endOfRepeat? (a : Attempt) (first last pos : Nat) : Option Nat :=
  let length := last - first
  if pos + length ≤ a.text.size
      ∧ (List.range length).all fun i => a.text[first + i]? == a.text[pos + i]? then
    some (pos + length)
  else none

def noRounds (a : Attempt) : Rounds :=
  Array.replicate a.repetitions (0, 0)

end Attempt

/-- The rounds after one more at `pos`, unless two have begun there. -/
def beginRound? (rounds : Rounds) (id pos : Nat) : Option Rounds :=
  match rounds[id]? with
  | some (last, count) =>
    if count = 0 ∨ last ≠ pos then some (rounds.modify id fun _ => (pos, 1))
    else if count < 2 then some (rounds.modify id fun _ => (pos, count + 1))
    else none
  | none => none

/-- The captures of an assertion put over those before it. -/
def keepCaptures (outer inner : Captures) : Captures :=
  outer.mapIdx fun i c => (inner[i]?.filter (·.isSet)).getD c

/-- The second outcome where the first one failed, with the captures that the first one left. -/
def orElse (first : Bool × Captures) (second : Captures → Bool × Captures) : Bool × Captures :=
  if first.1 then first else second first.2

/-- Matches the programs one behind the other from `pos` on. Gives the captures of the match, or
those that the failure left behind. -/
def run (a : Attempt) :
    (fuel : Nat) → (pos : Nat) → Rounds → Captures → List Program → Bool × Captures
  | 0, _, _, caps, _ => (false, caps)
  | _ + 1, _, _, caps, [] => (true, caps)
  | fuel + 1, pos, rounds, caps, p :: rest =>
    match p with
    | .empty => run a fuel pos rounds caps rest
    | .byte s =>
      if a.text[pos]?.any s.has then run a fuel (pos + 1) rounds caps rest else (false, caps)
    | .start =>
      if pos = a.origin ∧ !a.hasBefore then run a fuel pos rounds caps rest else (false, caps)
    | .stop => if pos = a.text.size then run a fuel pos rounds caps rest else (false, caps)
    | .boundary negated =>
      if a.isBoundary pos != negated then run a fuel pos rounds caps rest else (false, caps)
    | .reference group =>
      match caps[group]? with
      | some c =>
        match if c.isSet then a.endOfRepeat? c.start c.stop pos else none with
        | some next => run a fuel next rounds caps rest
        | none => (false, caps)
      | none => (false, caps)
    | .opening group =>
      match caps[group]? with
      | some old =>
        let (found, after) :=
          run a fuel pos rounds (caps.modify group fun c => { c with start := pos }) rest
        (found, if found then after else after.modify group fun c => { c with start := old.start })
      | none => (false, caps)
    | .closing group =>
      match caps[group]? with
      | some old =>
        let (found, after) :=
          run a fuel pos rounds (caps.modify group fun c => { c with stop := pos, isSet := true }) rest
        (found, if found then after else after.modify group fun _ => old)
      | none => (false, caps)
    | .look negated body =>
      let (found, inner) := run { a with origin := pos } fuel pos a.noRounds caps [body]
      let caps := if found then keepCaptures caps inner else caps
      if found != negated then run a fuel pos rounds caps rest else (false, caps)
    | .seq first second => run a fuel pos rounds caps (first :: second :: rest)
    | .alt first second =>
      orElse (run a fuel pos rounds caps (first :: rest)) fun caps =>
        run a fuel pos rounds caps (second :: rest)
    | .star id isLazy body =>
      let round (caps : Captures) :=
        match beginRound? rounds id pos with
        | some rounds => run a fuel pos rounds caps (body :: .star id isLazy body :: rest)
        | none => (false, caps)
      let skip (caps : Captures) := run a fuel pos rounds caps rest
      if isLazy then orElse (skip caps) round else orElse (round caps) skip
    | .plus id isLazy body => run a fuel pos rounds caps (body :: .star id isLazy body :: rest)
    | .opt id isLazy body =>
      let round (caps : Captures) :=
        match beginRound? rounds id pos with
        | some rounds => run a fuel pos rounds caps (body :: rest)
        | none => (false, caps)
      let skip (caps : Captures) := run a fuel pos rounds caps rest
      if isLazy then orElse (skip caps) round else orElse (round caps) skip

end Pattern

structure Pattern where
  program : Pattern.Program
  groups : Nat
  repetitions : Nat

namespace Pattern

/-- The pattern that a text spells, if the text is well formed and the pattern not too large. -/
def compile? (s : Bytes) : Option Pattern :=
  match Regex.parse? s with
  | some (r, groups) =>
    if r.fits then
      let (program, repetitions) := r.program.run 0
      some { program, groups, repetitions }
    else none
  | none => none

/-- Enough fuel for a text of `length` bytes: at each position every repetition begins at most two
rounds, each of which adds at most the whole program to what is left to match. -/
def fuel (p : Pattern) (length : Nat) : Nat :=
  (length + 1) * (2 * p.repetitions + 1) * (p.program.size + 1) * (p.program.lookDepth + 1) + 1

def matchesAt (p : Pattern) (text : Array UInt8) (origin : Nat) : Bool :=
  let a : Attempt := { text, origin, hasBefore := origin != 0, repetitions := p.repetitions }
  (run a (p.fuel text.size) origin a.noRounds (Array.replicate (p.groups + 1) {}) [p.program]).1

def isFoundIn (p : Pattern) (text : Bytes) : Bool :=
  let text := text.toArray
  (List.range (text.size + 1)).any (p.matchesAt text)

end Pattern

end DocSchema
