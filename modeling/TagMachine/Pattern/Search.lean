import TagMachine.Pattern.Program
import TagMachine.Pattern.Read

set_option autoImplicit false

/-! # Searching with patterns

All ways to run a program are followed at once, character by character, in the order of
preference. Of the matches found, the one that begins first counts, and of those the preferred
one.
-/

namespace TagMachine.Pattern

open Text (CharSet)

/-! ## Conditions -/

def isWord (unicode : Bool) (c : Char) : Bool :=
  if unicode then Text.wordSet.contains c else asciiWord.contains c

/-- Whether a condition holds between two characters, of which there is none at an end of the
text. -/
def Look.holds (l : Look) (unicode : Bool) (before after : Option Char) : Bool :=
  let wordBefore := before.any (isWord unicode)
  let wordAfter := after.any (isWord unicode)
  match l with
  | textStart => before.isNone
  | textEnd => after.isNone
  | lineStart => before.isNone || before == some '\n'
  | lineEnd => after.isNone || after == some '\n'
  | lineStartCr =>
    before.isNone || before == some '\n' || (before == some '\r' && after != some '\n')
  | lineEndCr =>
    after.isNone || after == some '\r' || (after == some '\n' && before != some '\r')
  | wordBoundary => wordBefore != wordAfter
  | notWordBoundary => wordBefore == wordAfter
  | wordStart => !wordBefore && wordAfter
  | wordEnd => wordBefore && !wordAfter
  | wordStartHalf => !wordBefore
  | wordEndHalf => !wordAfter

/-! ## Threads -/

/-- A way to run a program: the next instruction, and where in the text the run began. -/
structure Thread where
  pc : Nat
  start : Nat

/-- The threads at one place in the text, and the instructions that have one. -/
structure Threads where
  list : Array Thread := #[]
  seen : Array Bool

/-- The instruction at a distance from another. -/
def target (pc : Nat) (distance : Int) : Nat := (pc + distance).toNat

/-- Follows everything that takes no character, from the instructions of `todo` on. An
instruction is followed once, so that twice their number of steps are enough. -/
def follow (p : Program) (before after : Option Char) (start : Nat) :
    Nat → List Nat → Threads → Threads
  | 0, _, ts => ts
  | _ + 1, [], ts => ts
  | fuel + 1, pc :: todo, ts =>
    if ts.seen.getD pc true then follow p before after start fuel todo ts
    else
      let marked := { ts with seen := ts.seen.setIfInBounds pc true }
      match p[pc]? with
      | some (.fork first second) =>
        follow p before after start fuel (target pc first :: target pc second :: todo) marked
      | some (.jump distance) =>
        follow p before after start fuel (target pc distance :: todo) marked
      | some (.look l unicode) =>
        if l.holds unicode before after then
          follow p before after start fuel ((pc + 1) :: todo) marked
        else follow p before after start fuel todo marked
      | _ =>
        follow p before after start fuel todo
          { marked with list := marked.list.push ⟨pc, start⟩ }

def followAll (p : Program) (before after : Option Char) (threads : List Thread) (ts : Threads) :
    Threads :=
  threads.foldl (fun ts t => follow p before after t.start (2 * p.size + 3) [t.pc] ts) ts

/-- The threads that take the next character, up to the first that has matched, which is given
with where it began. -/
def advance (p : Program) (after : Option Char) (threads : List Thread) :
    List Thread × Option Nat :=
  match threads with
  | [] => ([], none)
  | t :: rest =>
    match p[t.pc]? with
    | none => ([], some t.start)
    | some (.take s) =>
      let (next, found) := advance p after rest
      if after.any s.contains then (⟨t.pc + 1, t.start⟩ :: next, found) else (next, found)
    | some _ => advance p after rest

/-- The first match from a place on: its start and its end. `before` is the character in front of
the place, `rest` the text from it on, `best` the match found so far. -/
def searchFrom (p : Program) (before : Option Char) (place : Nat) (threads : List Thread)
    (best : Option (Nat × Nat)) : List Char → Option (Nat × Nat)
  | [] =>
    let threads := if best.isNone then threads ++ [⟨0, place⟩] else threads
    let ts := followAll p before none threads { seen := Array.replicate (p.size + 1) false }
    match advance p none ts.list.toList with
    | (_, some start) => some (start, place)
    | (_, none) => best
  | c :: rest =>
    let threads := if best.isNone then threads ++ [⟨0, place⟩] else threads
    let ts := followAll p before (some c) threads { seen := Array.replicate (p.size + 1) false }
    let (next, found) := advance p (some c) ts.list.toList
    let best :=
      match found with
      | some start => some (start, place)
      | none => best
    if next.isEmpty && best.isSome then best
    else searchFrom p (some c) (place + 1) next best rest

def charBefore (text : List Char) (place : Nat) : Option Char :=
  if place = 0 then none else text[place - 1]?

/-- The first match in a text from a place on. -/
def find (p : Program) (text : List Char) (place : Nat) : Option (Nat × Nat) :=
  if text.length < place then none
  else searchFrom p (charBefore text place) place [] none (text.drop place)

/-- Whether a pattern matches somewhere in a text. -/
def isMatch (n : Node) (text : String) : Bool := (find n.program text.toList 0).isSome

/-! ## Replacement -/

/-- The matches in a text from a place on, none of which overlap. An empty match right behind the
match before it does not count. -/
def matchesFrom (p : Program) (text : List Char) (lastEnd : Option Nat) :
    Nat → Nat → List (Nat × Nat)
  | 0, _ => []
  | fuel + 1, place =>
    let found :=
      match find p text place with
      | some (s, e) => if s = e ∧ lastEnd = some e then find p text (place + 1) else some (s, e)
      | none => none
    match found with
    | none => []
    | some (s, e) => (s, e) :: matchesFrom p text (some e) fuel e

/-- The text with other text in place of its matches; `place` is where the rest begins. -/
def substitute (new : List Char) (place : Nat) (text : List Char) :
    List (Nat × Nat) → List Char
  | [] => text
  | (s, e) :: rest =>
    text.take (s - place) ++ new ++ substitute new e (text.drop (e - place)) rest

/-- The text with every match of a pattern replaced. -/
def replaceAll (n : Node) (text replacement : String) : String :=
  let cs := text.toList
  let spans := matchesFrom n.program cs none (cs.length + 1) 0
  String.ofList (substitute replacement.toList 0 cs spans)

end TagMachine.Pattern
