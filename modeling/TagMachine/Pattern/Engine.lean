import TagMachine.Pattern.Search

set_option autoImplicit false

/-! # Engines for patterns

An engine reads patterns, refuses those that are too large, and finds matches. The standard engine
knows the classes of characters that its tables have, and it estimates the size of a compiled
pattern. Other engines may know more classes and count otherwise.
-/

namespace TagMachine.Pattern

structure Engine where
  vocabulary : Vocabulary
  /-- Whether a pattern that is well formed is small enough. -/
  admits : String → Bool
  /-- Whether the pattern matches somewhere in a text. -/
  isMatch : Node → String → Bool
  /-- The text with every match replaced by another text. -/
  replaceAll : Node → String → String → String

namespace Engine

/-- The tree of a pattern that is well formed and small enough. -/
def compile? (e : Engine) (pattern : String) : Option Node :=
  (@tree? e.vocabulary pattern).bind fun i => if e.admits pattern then some i.node else none

/-- The number of levels a pattern may have. -/
def heightLimit : Nat := 250

def standard : Engine where
  vocabulary := .standard
  admits pattern := (@tree? .standard pattern).any fun i =>
    i.height ≤ heightLimit && i.node.weight ≤ weightLimit
  isMatch := Pattern.isMatch
  replaceAll := Pattern.replaceAll

end Engine

end TagMachine.Pattern
