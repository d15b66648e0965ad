set_option autoImplicit false

/-! # Parts of texts

Finding a text inside another, cutting and joining at a delimiter, replacing, and filling up to
a width. Places are found from left to right and do not overlap.
-/

namespace TagMachine.Text

/-- Whether `part` stands somewhere in the text. -/
def occursIn (part : List Char) : List Char → Bool
  | [] => part.isEmpty
  | c :: rest => part.isPrefixOf (c :: rest) || occursIn part rest

/-- The pieces of a text between the places of `d`. The first `skip` characters belong to a place
already found, and `piece` is what was read since then, last character first. -/
def piecesFrom (d : List Char) : Nat → List Char → List Char → List (List Char)
  | _, piece, [] => [piece.reverse]
  | skip + 1, piece, _ :: rest => piecesFrom d skip piece rest
  | 0, piece, c :: rest =>
    if d.isPrefixOf (c :: rest) then piece.reverse :: piecesFrom d (d.length - 1) [] rest
    else piecesFrom d 0 (c :: piece) rest

/-- The pieces of a text between the places of a delimiter. The empty delimiter cuts between all
characters. -/
def split (d text : List Char) : List (List Char) :=
  if d.isEmpty then text.map fun c => [c] else piecesFrom d 0 [] text

/-- The text with `new` in the places of `d`; the first `skip` characters belong to a place
already found. -/
def replaceFrom (d new : List Char) : Nat → List Char → List Char
  | _, [] => []
  | skip + 1, _ :: rest => replaceFrom d new skip rest
  | 0, c :: rest =>
    if d.isPrefixOf (c :: rest) then new ++ replaceFrom d new (d.length - 1) rest
    else c :: replaceFrom d new 0 rest

/-- The text with `new` in the places of `d`; the empty text has no places. -/
def replace (d new text : List Char) : List Char :=
  if d.isEmpty then text else replaceFrom d new 0 text

/-- The first `count` characters of `rest`, and of `text` over and over when `rest` is used up. -/
def cycleFrom (text : List Char) : List Char → Nat → List Char
  | _, 0 => []
  | c :: rest, count + 1 => c :: cycleFrom text rest count
  | [], count + 1 =>
    match text with
    | [] => []
    | c :: rest => c :: cycleFrom text rest count

/-- The first `count` characters of a text repeated without end. -/
def cycle (text : List Char) (count : Nat) : List Char := cycleFrom text text count

/-- The quotient, rounded up. -/
def divCeil (n k : Nat) : Nat := if 0 < n % k then n / k + 1 else n / k

/-- The characters to fill up with. The repeated fill is cut at its end on the right, and at its
beginning on the left. -/
def padding (left : Bool) (needed : Nat) (fill : List Char) : List Char :=
  let total := divCeil needed fill.length * fill.length
  let repeated := cycle fill total
  if left then repeated.drop (total - needed) else repeated.take needed

def pad (left : Bool) (width : Nat) (fill text : List Char) : List Char :=
  if width ≤ text.length then text
  else
    let added := padding left (width - text.length) fill
    if left then added ++ text else text ++ added

end TagMachine.Text
