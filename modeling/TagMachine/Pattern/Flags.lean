set_option autoImplicit false

/-! # Flags of patterns -/

namespace TagMachine.Pattern

/-- The switches that change how the rest of a group is read. -/
structure Flags where
  ignoreCase : Bool := false
  multiLine : Bool := false
  dotNewline : Bool := false
  swapGreed : Bool := false
  unicode : Bool := true
  carriageReturn : Bool := false
  /-- Blanks and comments do not count. -/
  verbose : Bool := false
deriving DecidableEq

/-- The flags after the one with a given letter is switched, if there is one. -/
def Flags.switch (f : Flags) (letter : Char) (on : Bool) : Option Flags :=
  match letter with
  | 'i' => some { f with ignoreCase := on }
  | 'm' => some { f with multiLine := on }
  | 's' => some { f with dotNewline := on }
  | 'U' => some { f with swapGreed := on }
  | 'u' => some { f with unicode := on }
  | 'R' => some { f with carriageReturn := on }
  | 'x' => some { f with verbose := on }
  | _ => none

/-- The state of reading a list of flags. -/
structure FlagList where
  flags : Flags
  /-- The letters and the minus sign read so far. -/
  seen : List Char := []
  /-- Whether letters switch off. -/
  negated : Bool := false

/-- A list of flags up to its colon or closing parenthesis: the flags, whether there are any,
whether a colon ends the list, and the rest. -/
def readFlags (l : FlagList) : List Char → Option (Flags × Bool × Bool × List Char)
  | [] => none
  | c :: rest =>
    if c = ':' ∨ c = ')' then
      if l.seen.head? = some '-' then none
      else some (l.flags, !l.seen.isEmpty, c = ':', rest)
    else if l.seen.contains c then none
    else if c = '-' then readFlags { l with seen := c :: l.seen, negated := true } rest
    else
      match l.flags.switch c (!l.negated) with
      | some flags => readFlags { l with flags := flags, seen := c :: l.seen } rest
      | none => none

end TagMachine.Pattern
