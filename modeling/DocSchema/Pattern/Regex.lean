import DocSchema.Pattern.ByteSet

set_option autoImplicit false

namespace DocSchema.Pattern

inductive Repetition where
  | star
  | plus
  | opt
  /-- At least `min` times, and at most `max` times if given. -/
  | counted (min : Nat) (max : Option Nat)
deriving DecidableEq

inductive Regex where
  /-- Matches the empty text. -/
  | empty
  /-- Matches one byte of the set. -/
  | byte (s : ByteSet)
  /-- Holds at the start of the text. -/
  | start
  /-- Holds at the end of the text. -/
  | stop
  /-- Holds where a word begins or ends, or elsewhere if negated. -/
  | boundary (negated : Bool)
  /-- Matches what the group matched last. -/
  | reference (group : Nat)
  | group (index : Nat) (body : Regex)
  /-- Holds where the body matches what follows, or where it does not if negated. -/
  | look (negated : Bool) (body : Regex)
  | seq (first second : Regex)
  | alt (first second : Regex)
  | repeated (r : Repetition) (lazy : Bool) (body : Regex)

/-- The numbers of states of an automaton for an expression: of those in use, and of all that were
made. A counted repetition leaves its pattern unused behind the copies. -/
structure StateCount where
  live : Nat
  total : Nat

namespace StateCount

def of (n : Nat) : StateCount :=
  ⟨n, n⟩

instance : Add StateCount :=
  ⟨fun a b => ⟨a.live + b.live, a.total + b.total⟩⟩

end StateCount

namespace Regex

def states : Regex → StateCount
  | .group _ body => .of 2 + body.states
  | .look _ body => .of 2 + body.states
  | .seq a b => a.states + b.states
  | .alt a b => .of 2 + a.states + b.states
  | .repeated .star _ body => .of 1 + body.states
  | .repeated .plus _ body => .of 1 + body.states
  | .repeated .opt _ body => .of 2 + body.states
  | .repeated (.counted min max) _ body =>
    let copy := body.states
    let tail :=
      match max with
      | none => copy.live + 1
      | some max => 1 + (max - min) * (copy.live + 1)
    let live := 1 + min * copy.live + tail
    ⟨live, copy.total + live⟩
  | _ => .of 1

/-- Whether the automaton stays within the limit of 100000 states, three of them for the whole. -/
def fits (r : Regex) : Bool :=
  r.states.total + 3 ≤ 100000

end Regex

end DocSchema.Pattern
