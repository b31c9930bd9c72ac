import DocSchema.Pattern.Regex

set_option autoImplicit false

namespace DocSchema.Pattern

/-- An expression in which only simple repetitions are left. -/
inductive Program where
  | empty
  | byte (s : ByteSet)
  | start
  | stop
  | boundary (negated : Bool)
  | reference (group : Nat)
  | opening (group : Nat)
  | closing (group : Nat)
  | look (negated : Bool) (body : Program)
  | seq (first second : Program)
  | alt (first second : Program)
  /-- Any number of times. -/
  | star (id : Nat) (lazy : Bool) (body : Program)
  /-- Once, then as under `star`. -/
  | plus (id : Nat) (lazy : Bool) (body : Program)
  /-- Once or not at all. -/
  | opt (id : Nat) (lazy : Bool) (body : Program)

def fresh : StateM Nat Nat :=
  modifyGet fun n => (n, n + 1)

/-- Copies of a program, one behind the other, before `rest`. -/
def copies (copy : StateM Nat Program) (rest : StateM Nat Program) : Nat → StateM Nat Program
  | 0 => rest
  | n + 1 => return .seq (← copy) (← copies copy rest n)

/-- Up to `n` copies of a program, each one only behind the one before. -/
def optionalCopies (isLazy : Bool) (copy : StateM Nat Program) : Nat → StateM Nat Program
  | 0 => pure .empty
  | n + 1 => do
    let id ← fresh
    let body ← copy
    return .opt id isLazy (.seq body (← optionalCopies isLazy copy n))

def Regex.program : Regex → StateM Nat Program
  | .empty => pure .empty
  | .byte s => pure (.byte s)
  | .start => pure .start
  | .stop => pure .stop
  | .boundary negated => pure (.boundary negated)
  | .reference n => pure (.reference n)
  | .group index body => return .seq (.opening index) (.seq (← body.program) (.closing index))
  | .look negated body => return .look negated (← body.program)
  | .seq a b => return .seq (← a.program) (← b.program)
  | .alt a b => return .alt (← a.program) (← b.program)
  | .repeated .star isLazy body => return .star (← fresh) isLazy (← body.program)
  | .repeated .plus isLazy body => return .plus (← fresh) isLazy (← body.program)
  | .repeated .opt isLazy body => return .opt (← fresh) isLazy (← body.program)
  | .repeated (.counted min none) isLazy body =>
    copies body.program (return .star (← fresh) isLazy (← body.program)) min
  | .repeated (.counted min (some max)) isLazy body =>
    copies body.program (optionalCopies isLazy body.program (max - min)) min

namespace Program

def size : Program → Nat
  | .look _ body => body.size + 1
  | .seq a b => a.size + b.size + 1
  | .alt a b => a.size + b.size + 1
  | .star _ _ body => body.size + 1
  | .plus _ _ body => body.size + 2
  | .opt _ _ body => body.size + 1
  | _ => 1

/-- How deep assertions about what follows are nested. -/
def lookDepth : Program → Nat
  | .look _ body => body.lookDepth + 1
  | .seq a b => max a.lookDepth b.lookDepth
  | .alt a b => max a.lookDepth b.lookDepth
  | .star _ _ body => body.lookDepth
  | .plus _ _ body => body.lookDepth
  | .opt _ _ body => body.lookDepth
  | _ => 0

end Program

end DocSchema.Pattern
