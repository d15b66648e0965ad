import TagMachine.Pattern.Basic

set_option autoImplicit false

/-! # Programs of patterns

A pattern is run as a program of instructions. Targets are relative to the instruction, so that
programs can be put together by appending them; a program that comes to its end has matched.
-/

namespace TagMachine.Pattern

open Text (CharSet)

/-- An instruction of a program. -/
inductive Inst where
  | take (s : CharSet)
  /-- Goes on at two places, of which the first is preferred. -/
  | fork (first second : Int)
  | jump (target : Int)
  /-- Goes on where a condition holds. -/
  | look (l : Look) (unicode : Bool)

abbrev Program := Array Inst

/-- A choice between going on and leaving. -/
def choice (greedy : Bool) (stay leave : Int) : Inst :=
  if greedy then .fork stay leave else .fork leave stay

/-- A program a number of times one after another. -/
def times (p : Program) : Nat → Program
  | 0 => #[]
  | n + 1 => times p n ++ p

/-- At most `n` runs of a program, each of which may be the last. -/
def upTo (greedy : Bool) (p : Program) : Nat → Program
  | 0 => #[]
  | n + 1 =>
    let rest := upTo greedy p n
    #[choice greedy 1 (p.size + rest.size + 1)] ++ p ++ rest

/-- Any number of runs of a program. A program that can match the empty text is run as an
optional repetition of at least one run, which keeps the order of preference. -/
def anyTimes (greedy nullable : Bool) (p : Program) : Program :=
  if nullable then
    #[choice greedy 1 (p.size + 2)] ++ p ++ #[choice greedy (-p.size) 1]
  else
    #[choice greedy 1 (p.size + 2)] ++ p ++ #[.jump (-p.size - 1)]

/-- The runs of a program that a repetition allows. -/
def repetition (min : Nat) (more : Option Nat) (greedy nullable : Bool) (p : Program) : Program :=
  match more with
  | some more => times p min ++ upTo greedy p more
  | none =>
    match min with
    | 0 => anyTimes greedy nullable p
    | k + 1 => times p k ++ p ++ #[choice greedy (-p.size) 1]

mutual

/-- The program of a pattern. -/
def Node.program : Node → Program
  | .empty => #[]
  | .set s => #[.take s]
  | .look l unicode => #[.look l unicode]
  | .rep min more greedy body => repetition min more greedy body.nullable body.program
  | .seq parts => sequence parts
  | .alt branches => alternatives branches

def Node.sequence : List Node → Program
  | [] => #[]
  | n :: rest => n.program ++ sequence rest

def Node.alternatives : List Node → Program
  | [] => #[.take .empty]
  | [n] => n.program
  | n :: m :: rest =>
    let p := n.program
    let q := alternatives (m :: rest)
    #[.fork 1 (p.size + 2)] ++ p ++ #[.jump (q.size + 1)] ++ q

end

end TagMachine.Pattern
