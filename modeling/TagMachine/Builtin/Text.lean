import TagMachine.Builtin.Arguments
import TagMachine.Pattern.Engine
import TagMachine.Text.Pieces

set_option autoImplicit false

/-! # Functions on texts

Positions and lengths count characters.
-/

namespace TagMachine.Builtin

def upper : Builtin := fun args => giveText (Text.toUpper (args.text "value"))

def lower : Builtin := fun args => giveText (Text.toLower (args.text "value"))

def trim : Builtin := fun args => giveText (Text.trim (args.text "value"))

def trimStart : Builtin := fun args => giveText (Text.trimStart (args.text "value"))

def trimEnd : Builtin := fun args => giveText (Text.trimEnd (args.text "value"))

/-- The characters from `start` up to `end`, as far as the text has them. -/
def substring : Builtin := fun args =>
  let chars := args.chars "value"
  let start := max (args.integer "start").toInt 0
  let stop := min (args.integer "end").toInt chars.length
  if stop ≤ start then giveText ""
  else giveChars ((chars.drop start.toNat).take (stop - start).toNat)

def replace : Builtin := fun args =>
  giveChars (Text.replace (args.chars "find") (args.chars "replacement") (args.chars "value"))

/-- The pieces between the places of a delimiter, or the characters if it is empty. -/
def split : Builtin := fun args =>
  giveList ((Text.split (args.chars "delimiter") (args.chars "value")).map fun piece =>
    .string (String.ofList piece))

/-- The texts of the elements with a delimiter between. -/
def join : Builtin := fun args =>
  giveText (String.intercalate (args.text "delimiter") ((args.items "list").map args.store.text))

def startsWith : Builtin := fun args =>
  giveBool ((args.chars "prefix").isPrefixOf (args.chars "value"))

def endsWith : Builtin := fun args =>
  giveBool ((args.chars "suffix").isSuffixOf (args.chars "value"))

/-- Whether the text has a part, which is given as `substring` or as `search`. -/
def contains : Builtin := fun args =>
  let part := if (args.value "substring").isNothing then args.value "search"
    else args.value "substring"
  match part with
  | .string part => giveBool (Text.occursIn part.toList (args.chars "value"))
  | _ => .error (.type .containsWithoutNeedle)

/-- The number of elements of `list` if it is a list, else of characters of `value`. -/
def length : Builtin := fun args =>
  giveInt (Int64.ofNat (
    match args.value "list" with
    | .list ref => (args.store.items ref).size
    | _ => (args.chars "value").length))

/-- The text that fills up, which is a space unless given. -/
def fill (args : Arguments) : List Char :=
  let given := args.chars "fill"
  if given.isEmpty then [' '] else given

/-- The text filled up to a width, which is 0 if it is negative. -/
def pad (left : Bool) : Builtin := fun args =>
  let width := (args.integer "width").toInt.toNat?.getD 0
  giveChars (Text.pad left width (fill args) (args.chars "value"))

def padLeft : Builtin := pad true

def padRight : Builtin := pad false

/-- The pattern that matches a whole text where the given one matches it. -/
def wholePattern (pattern : String) : String := "(?s)^(?:" ++ pattern ++ ")$"

/-- Whether the pattern matches the whole text, line ends included. -/
def regexMatch (engine : Pattern.Engine) : Builtin := fun args =>
  let pattern := args.text "pattern"
  match engine.compile? (wholePattern pattern) with
  | some node => giveBool (engine.isMatch node (args.text "value"))
  | none => .error (.domain (.invalidPattern pattern))

/-- The text with every match of the pattern replaced. -/
def regexReplace (engine : Pattern.Engine) : Builtin := fun args =>
  let pattern := args.text "pattern"
  match engine.compile? pattern with
  | some node => giveText (engine.replaceAll node (args.text "value") (args.text "replacement"))
  | none => .error (.domain (.invalidPattern pattern))

end TagMachine.Builtin
