import TagMachine.Proofs.Json.Scalars
import TagMachine.Proofs.Store.Trees

set_option autoImplicit false

/-! # Reading what was written: trees

A tree without floats whose records have distinct keys is read back from its text, unless it is
nested deeper than the reader goes: 127 containers, one inside the other. From the 128th on the text
is refused (`Json.read_write`).

Lists and records are written and read in one manner: elements between brackets, with commas between
them. `Json.Brackets` says what the two have in common, and `Json.Brackets.readsBack` is proved of
both at once.
-/

namespace TagMachine

namespace Datum

variable {n : Nat}

/-- The trees directly inside a tree. -/
def children : Datum → List Datum
  | .list items => items
  | .record fields => fields.map Prod.snd
  | _ => []

/-- A property of a tree and of all trees inside it. -/
inductive Every (p : Datum → Prop) : Datum → Prop
  | intro {d : Datum} (here : p d) (inside : ∀ e ∈ d.children, Every p e) : Every p d

/-- What a tree must be at its root to be read back from its text: no float, and a record only with
distinct keys. -/
def Faithful : Datum → Prop
  | .float _ => False
  | .record fields => (fields.map Prod.fst).Nodup
  | _ => True

mutual

/-- The greatest number of containers that lie one inside the other. -/
def depth : Datum → Nat
  | .list items => depthItems items + 1
  | .record fields => depthFields fields + 1
  | _ => 0

def depthItems : List Datum → Nat
  | [] => 0
  | d :: rest => max d.depth (depthItems rest)

def depthFields : List (String × Datum) → Nat
  | [] => 0
  | (_, d) :: rest => max d.depth (depthFields rest)

end

theorem depthItems_le (items : List Datum) : depthItems items ≤ n ↔ ∀ d ∈ items, d.depth ≤ n := by
  induction items with
  | nil => simp [depthItems]
  | cons d rest ih => simp [depthItems, ih]

theorem depthFields_le (fields : List (String × Datum)) :
    depthFields fields ≤ n ↔ ∀ f ∈ fields, f.2.depth ≤ n := by
  induction fields with
  | nil => simp [depthFields]
  | cons f rest ih =>
    obtain ⟨key, d⟩ := f
    simp [depthFields, ih]

theorem depth_list_le (items : List Datum) :
    (Datum.list items).depth ≤ n + 1 ↔ ∀ d ∈ items, d.depth ≤ n := by
  rw [depth, Nat.add_le_add_iff_right, depthItems_le]

theorem depth_record_le (fields : List (String × Datum)) :
    (Datum.record fields).depth ≤ n + 1 ↔ ∀ f ∈ fields, f.2.depth ≤ n := by
  rw [depth, Nat.add_le_add_iff_right, depthFields_le]

end Datum

namespace Json

variable {d : Datum}

/-! ## Texts as characters -/

section Texts

variable {α : Type}

def text (d : Datum) : List Char := (write d).toList

def fieldText (f : String × Datum) : List Char :=
  '"' :: (f.1.toList.flatMap escapeChar ++ '"' :: ':' :: text f.2)

/-- The texts of elements that follow others, each behind a comma. -/
def further (word : α → List Char) (items : List α) : List Char :=
  items.flatMap fun a => ',' :: word a

/-- The texts of elements with commas between them. -/
def joined (word : α → List Char) : List α → List Char
  | [] => []
  | a :: rest => word a ++ further word rest

theorem further_cons (word : α → List Char) (a : α) (rest : List α) (cs : List Char) :
    further word (a :: rest) ++ cs = ',' :: (word a ++ (further word rest ++ cs)) := by
  simp [further]

/-- The comma that separates an element from those before it. -/
def comma (done : List α) : List Char := if done.isEmpty then [] else [',']

/-- The elements that follow those that are done. -/
def following (word : α → List Char) (done items : List α) : List Char :=
  if done.isEmpty then joined word items else further word items

theorem following_cons (word : α → List Char) (done : List α) (a : α) (items : List α) :
    following word done (a :: items) =
      comma done ++ (word a ++ following word (a :: done) items) := by
  cases done <;> simp [following, comma, joined, further]

theorem intercalate_eq_joined (word : α → List Char) (items : List α) :
    [','].intercalate (items.map word) = joined word items := by
  induction items with
  | nil => rfl
  | cons a items ih =>
    cases items with
    | nil => simp [joined, further]
    | cons b rest =>
      have hcons : [','].intercalate ((a :: b :: rest).map word) =
          word a ++ ',' :: [','].intercalate ((b :: rest).map word) := by
        simp [List.intercalate]
      rw [hcons, ih]
      simp [joined, further]

theorem map_toList_writeItems (items : List Datum) :
    (writeItems items).map String.toList = items.map text := by
  induction items with
  | nil => rfl
  | cons d rest ih => simp [writeItems, ih, text]

theorem map_toList_writeFields (fields : List (String × Datum)) :
    (writeFields fields).map String.toList = fields.map fieldText := by
  induction fields with
  | nil => rfl
  | cons f rest ih =>
    obtain ⟨key, d⟩ := f
    simp [writeFields, ih, text, fieldText, toList_writeString]

theorem text_list (items : List Datum) :
    text (.list items) = '[' :: (joined text items ++ [']']) := by
  have hcomma : (String.intercalate "," (writeItems items)).toList = joined text items := by
    rw [String.toList_intercalate, map_toList_writeItems]
    exact intercalate_eq_joined ..
  show ("[" ++ String.intercalate "," (writeItems items) ++ "]").toList = _
  rw [String.toList_append, String.toList_append, hcomma]
  rfl

theorem text_record (fields : List (String × Datum)) :
    text (.record fields) = '\x7b' :: (joined fieldText fields ++ ['\x7d']) := by
  have hcomma : (String.intercalate "," (writeFields fields)).toList = joined fieldText fields := by
    rw [String.toList_intercalate, map_toList_writeFields]
    exact intercalate_eq_joined ..
  show ("\x7b" ++ String.intercalate "," (writeFields fields) ++ "\x7d").toList = _
  rw [String.toList_append, String.toList_append, hcomma]
  rfl

end Texts

/-- The text of a tree that is no float starts with a character that tells it from white space and
from the end of a list. -/
theorem exists_head (hd : d.Faithful) : ∃ c cs, text d = c :: cs ∧ isBlank c = false ∧ c ≠ ']' := by
  cases d with
  | string s => exact ⟨_, _, toList_writeString s, rfl, by decide⟩
  | integer n =>
    have htext : text (.integer n) = _ := toList_integerText n
    by_cases hneg : n.toInt < 0
    · rw [if_pos hneg] at htext
      exact ⟨_, _, htext, rfl, by decide⟩
    · rw [if_neg hneg] at htext
      obtain ⟨c, cs, hdigits, hc⟩ := Text.exists_toDigits n.toInt.natAbs
      exact ⟨c, cs, htext.trans hdigits, not_isBlank_of_isDigit hc, ne_of_isDigit hc (by decide)⟩
  | float x => cases hd
  | boolean b => cases b <;> exact ⟨_, _, rfl, rfl, by decide⟩
  | nothing => exact ⟨_, _, rfl, rfl, by decide⟩
  | list items => exact ⟨_, _, text_list items, rfl, by decide⟩
  | record fields => exact ⟨_, _, text_record fields, rfl, by decide⟩

/-! ## Answers of the reader -/

/-- What reading the text of a tree gives: the tree where it fits, and else the fault that
containers are nested too deep. -/
inductive Answer (fits : Prop) (d : Datum) (rest : List Char) : Parsed Datum → Prop
  | tree (h : fits) : Answer fits d rest (.ok (d, rest))
  | tooDeep (h : ¬ fits) {f : Failure} (hf : f.fault = .tooDeep) : Answer fits d rest (.error f)

theorem Answer.congr {p q : Prop} {rest : List Char} {x : Parsed Datum}
    (h : Answer p d rest x) (hpq : p ↔ q) : Answer q d rest x := by
  cases h with
  | tree hp => exact .tree (hpq.1 hp)
  | tooDeep hp hf => exact .tooDeep (fun hq => hp (hpq.2 hq)) hf

/-- Goes on with the tree that was read and the rest of the text. -/
def andThen (x : Parsed Datum) (next : Datum → List Char → Parsed Datum) : Parsed Datum :=
  match x with
  | .error e => .error e
  | .ok (d, rest) => next d rest

theorem Answer.andThen {p q : Prop} {e : Datum} {rest rest' : List Char} {x : Parsed Datum}
    {next : Datum → List Char → Parsed Datum} (h : Answer p d rest x)
    (hnext : Answer q e rest' (next d rest)) : Answer (p ∧ q) e rest' (Json.andThen x next) := by
  cases h with
  | tree hp => exact hnext.congr ⟨fun hq => ⟨hp, hq⟩, And.right⟩
  | tooDeep hp hf => exact .tooDeep (fun h => hp h.1) hf

/-- The text of a tree is read back by a reader that may open `n` containers. -/
def ReadsBack (d : Datum) : Prop := ∀ fuel n rest, (text d).length ≤ fuel → Closes rest →
  Answer (d.depth ≤ n) d rest (readValue fuel (n + 1) (text d ++ rest))

theorem skipBlank_cons {c : Char} (h : isBlank c = false) (cs : List Char) :
    skipBlank (c :: cs) = c :: cs := by
  unfold skipBlank
  rw [List.dropWhile_cons, h]
  rfl

/-! ## Brackets -/

/-- How the elements of a container are written and read. An element is a tree, perhaps with a name
in front of it; `inner` is the tree and `put` an element with another tree. -/
structure Brackets (α : Type) where
  opening : Char
  closing : Char
  /-- The text of an element. -/
  word : α → List Char
  inner : α → Datum
  put : α → Datum → α
  /-- The elements that are told from the closing bracket. -/
  good : α → Prop
  /-- Reads elements after those that are done, up to the closing bracket. -/
  read : Nat → Nat → List α → List Char → Parsed Datum
  /-- What the reader makes of the elements. -/
  make : List α → Datum
  /-- The fuel that the reader takes for one element. -/
  steps : Nat
  put_inner : ∀ a, put a (inner a) = a
  closes : closing = ',' ∨ closing = ']' ∨ closing = '\x7d'
  length_word : ∀ a, good a → (text (inner a)).length + steps ≤ (word a).length + 1 ∧
    steps ≤ (word a).length
  read_opening : ∀ fuel depth cs, readValue (fuel + 1) depth (opening :: cs) =
    if depth ≤ 1 then failOn .tooDeep (opening :: cs) else read fuel (depth - 1) [] cs
  read_closing : ∀ fuel depth done rest,
    read (fuel + 1) depth done (closing :: rest) = .ok (make done.reverse, rest)
  read_next : ∀ fuel depth done a cs, good a →
    read (fuel + steps) depth done (comma done ++ (word a ++ cs)) =
      andThen (readValue fuel depth (text (inner a) ++ cs)) fun d rest =>
        read fuel depth (put a d :: done) rest

namespace Brackets

variable {α : Type} (b : Brackets α) {items : List α}

theorem closes_further (items : List α) (rest : List Char) :
    Closes (further b.word items ++ b.closing :: rest) := by
  cases items with
  | nil => exact closes_cons b.closes _
  | cons a items =>
    rw [further_cons]
    exact closes_cons (.inl rfl) _

/-- The elements that are left, and the closing bracket. -/
theorem answer_following (hitems : ∀ a ∈ items, b.good a ∧ ReadsBack (b.inner a)) (fuel n : Nat)
    (done : List α) (rest : List Char) (hfuel : (following b.word done items).length + 1 ≤ fuel) :
    Answer (∀ a ∈ items, (b.inner a).depth ≤ n) (b.make (done.reverse ++ items)) rest
      (b.read fuel (n + 1) done (following b.word done items ++ b.closing :: rest)) := by
  induction items generalizing fuel done with
  | nil =>
    obtain ⟨fuel, rfl⟩ : ∃ k, fuel = k + 1 := ⟨fuel - 1, by omega⟩
    rw [List.append_nil, show following b.word done [] = [] from ite_self _, List.nil_append,
      b.read_closing]
    exact .tree nofun
  | cons a items ih =>
    obtain ⟨⟨hgood, hback⟩, hitems⟩ := List.forall_mem_cons.1 hitems
    have hword := b.length_word a hgood
    rw [following_cons, List.length_append, List.length_append] at hfuel
    obtain ⟨fuel, rfl⟩ : ∃ k, fuel = k + b.steps := ⟨fuel - b.steps, by omega⟩
    rw [following_cons, List.append_assoc, List.append_assoc, b.read_next _ _ _ _ _ hgood]
    have hvalue := hback fuel n _ (by omega) (b.closes_further items rest)
    have hmore := ih hitems fuel (a :: done) (by omega)
    refine (hvalue.andThen ?_).congr
      (List.forall_mem_cons (p := fun a => (b.inner a).depth ≤ n)).symm
    rw [List.reverse_cons, List.append_assoc] at hmore
    rw [b.put_inner]
    exact hmore

/-- A container is read back if its elements are. -/
theorem readsBack {d : Datum}
    (htext : text d = b.opening :: (joined b.word items ++ [b.closing])) (hmake : b.make items = d)
    (hpos : 0 < d.depth) (hdepth : ∀ n, d.depth ≤ n + 1 ↔ ∀ a ∈ items, (b.inner a).depth ≤ n)
    (hitems : ∀ a ∈ items, b.good a ∧ ReadsBack (b.inner a)) : ReadsBack d := by
  intro fuel n rest hfuel hrest
  rw [htext, List.length_cons, List.length_append, List.length_singleton] at hfuel
  obtain ⟨fuel, rfl⟩ : ∃ k, fuel = k + 1 := ⟨fuel - 1, by omega⟩
  rw [htext, List.cons_append, List.append_assoc, List.singleton_append, b.read_opening]
  cases n with
  | zero =>
    -- no container may be opened
    rw [if_pos le_rfl]
    exact .tooDeep (by omega) rfl
  | succ n =>
    rw [if_neg (by omega)]
    have hlength : (joined b.word items).length + 1 ≤ fuel := by omega
    have hanswer := b.answer_following hitems fuel n [] rest hlength
    rw [List.reverse_nil, List.nil_append, hmake] at hanswer
    exact hanswer.congr (hdepth n).symm

end Brackets

/-! ## Lists -/

theorem readItems_next (hd : ∃ c cs, text d = c :: cs ∧ isBlank c = false ∧ c ≠ ']')
    (fuel depth : Nat) (done : List Datum) (cs : List Char) :
    readItems (fuel + 1) depth done (comma done ++ (text d ++ cs)) =
      andThen (readValue fuel depth (text d ++ cs)) fun d rest =>
        readItems fuel depth (d :: done) rest := by
  obtain ⟨c, t, ht, hblank, hbracket⟩ := hd
  rw [ht, List.cons_append]
  cases done with
  | nil =>
    show readItems (fuel + 1) depth [] (c :: (t ++ cs)) = _
    rw [readItems, skipBlank_cons hblank]
    split
    · rename_i heq
      cases heq
    · rename_i heq
      exact absurd (List.cons.inj heq).1 hbracket
    · rename_i heq
      obtain ⟨rfl, rfl⟩ := List.cons.inj heq
      rfl
  | cons e done =>
    -- behind the comma there is an item, not the closing bracket
    show readItems (fuel + 1) depth (e :: done) (',' :: c :: (t ++ cs)) = _
    rw [readItems, skipBlank_cons (c := ',') (by decide)]
    split
    · rename_i heq
      cases heq
    · rename_i heq
      exact absurd (List.cons.inj heq).1 (by decide)
    · rename_i heq
      obtain ⟨rfl, rfl⟩ := List.cons.inj heq
      rw [List.isEmpty_cons, if_neg Bool.false_ne_true, if_pos rfl, skipBlank_cons hblank]
      split
      · rename_i heq
        cases heq
      · rename_i heq
        exact absurd (List.cons.inj heq).1 hbracket
      · rfl

/-- The items of a list. -/
def Brackets.list : Brackets Datum where
  opening := '['
  closing := ']'
  word := text
  inner := id
  put _ d := d
  good := Datum.Faithful
  read := readItems
  make := .list
  steps := 1
  put_inner _ := rfl
  closes := .inr (.inl rfl)
  length_word d hd := by
    obtain ⟨c, cs, hhead, -⟩ := exists_head hd
    refine ⟨le_rfl, ?_⟩
    rw [hhead, List.length_cons]
    omega
  read_opening fuel depth cs := by
    rw [readValue, skipBlank_cons (by decide)]
    rfl
  read_closing fuel depth done rest := by
    rw [readItems]
    rfl
  read_next fuel depth done _ cs hd := readItems_next (exists_head hd) fuel depth done cs

/-! ## Records -/

theorem readField_write (fuel depth : Nat) (done : List (String × Datum)) (key : String)
    (cs : List Char) :
    readField (fuel + 1) depth done (key.toList.flatMap escapeChar ++ '"' :: ':' :: cs) =
      andThen (readValue fuel depth cs) fun d rest =>
        readFields fuel depth ((key, d) :: done) rest := by
  rw [readField, readString_write]
  show (match skipBlank (':' :: cs) with | _ => _) = _
  rw [skipBlank_cons (by decide)]
  rfl

theorem fieldText_append (f : String × Datum) (cs : List Char) :
    fieldText f ++ cs =
      '"' :: (f.1.toList.flatMap escapeChar ++ '"' :: ':' :: (text f.2 ++ cs)) := by
  simp [fieldText]

theorem length_fieldText (f : String × Datum) : (text f.2).length + 3 ≤ (fieldText f).length := by
  simp only [fieldText, List.length_cons, List.length_append]
  omega

theorem readFields_next (fuel depth : Nat) (done : List (String × Datum)) (f : String × Datum)
    (cs : List Char) : readFields (fuel + 2) depth done (comma done ++ (fieldText f ++ cs)) =
      andThen (readValue fuel depth (text f.2 ++ cs)) fun d rest =>
        readFields fuel depth ((f.1, d) :: done) rest := by
  rw [fieldText_append]
  cases done with
  | nil | cons e done =>
    rw [readFields]
    exact readField_write ..

/-- The fields of a record. Where a key comes again the record has fewer fields than were
written. -/
def Brackets.record : Brackets (String × Datum) where
  opening := '\x7b'
  closing := '\x7d'
  word := fieldText
  inner := Prod.snd
  put f d := (f.1, d)
  good _ := True
  read := readFields
  make fields := .record (collectFields fields)
  steps := 2
  put_inner _ := rfl
  closes := .inr (.inr rfl)
  length_word f _ := by
    have hlength := length_fieldText f
    omega
  read_opening fuel depth cs := by
    rw [readValue, skipBlank_cons (by decide)]
    rfl
  read_closing fuel depth done rest := by
    rw [readFields]
    rfl
  read_next fuel depth done f cs _ := readFields_next fuel depth done f cs

/-! ## Values that are no containers -/

theorem readsBack_scalar (hd : d.Faithful) (hdepth : d.depth = 0)
    (hread : ∀ fuel depth rest, Closes rest →
      readValue (fuel + 1) depth (text d ++ rest) = .ok (d, rest)) : ReadsBack d := by
  intro fuel n rest hfuel hrest
  obtain ⟨c, cs, hhead, -⟩ := exists_head hd
  obtain ⟨fuel, rfl⟩ : ∃ k, fuel = k + 1 := by
    rw [hhead, List.length_cons] at hfuel
    exact ⟨fuel - 1, by omega⟩
  rw [hread fuel (n + 1) rest hrest]
  exact .tree (by omega)

theorem readValue_quote (fuel depth : Nat) (cs : List Char) :
    readValue (fuel + 1) depth ('"' :: cs) =
      (readString cs).map fun p => (Datum.string p.1, p.2) := by
  rw [readValue, skipBlank_cons (by decide)]
  split
  case h_1 heq => cases heq
  case h_6 heq =>
    obtain ⟨-, rfl⟩ := List.cons.inj heq
    cases readString cs <;> rfl
  case h_9 hquote _ _ heq => exact absurd (List.cons.inj heq).1.symm hquote
  all_goals
    rename_i heq
    exact absurd (List.cons.inj heq).1 (by decide)

theorem readsBack_string (s : String) : ReadsBack (.string s) := by
  refine readsBack_scalar trivial rfl fun fuel depth rest _ => ?_
  have htext : text (.string s) ++ rest = '"' :: (s.toList.flatMap escapeChar ++ '"' :: rest) := by
    show (writeString s).toList ++ rest = _
    rw [toList_writeString]
    simp
  rw [htext, readValue_quote, readString_write]
  rfl

theorem readValue_minus (fuel depth : Nat) (cs : List Char) :
    readValue (fuel + 1) depth ('-' :: cs) = readNumber true cs := by
  rw [readValue, skipBlank_cons (by decide)]
  rfl

theorem readValue_digit {c : Char} (hc : c.isDigit = true) (fuel depth : Nat) (cs : List Char) :
    readValue (fuel + 1) depth (c :: cs) = readNumber false (c :: cs) := by
  rw [readValue, skipBlank_cons (not_isBlank_of_isDigit hc)]
  split
  case h_1 heq => cases heq
  case h_9 heq =>
    obtain ⟨rfl, rfl⟩ := List.cons.inj heq
    rw [if_pos hc]
  -- no other character that a value starts with is a digit
  all_goals
    rename_i heq
    exact absurd (List.cons.inj heq).1 (ne_of_isDigit hc (by decide))

theorem readsBack_integer (n : Int64) : ReadsBack (.integer n) := by
  refine readsBack_scalar trivial rfl fun fuel depth rest hrest => ?_
  have hlt := natAbs_toInt_lt n
  have htext : text (.integer n) = _ := toList_integerText n
  by_cases hneg : n.toInt < 0
  · rw [htext, if_pos hneg, List.cons_append, readValue_minus, readNumber_toDigits true hlt hrest,
      wholeNumber_of_neg hneg]
  · have hnumber := readNumber_toDigits false hlt hrest
    rw [wholeNumber_of_nonneg (Int.not_lt.1 hneg)] at hnumber
    obtain ⟨c, cs, hdigits, hc⟩ := Text.exists_toDigits n.toInt.natAbs
    rw [hdigits, List.cons_append] at hnumber
    rw [htext, if_neg hneg, hdigits, List.cons_append, readValue_digit hc, hnumber]

theorem readsBack_boolean (b : Bool) : ReadsBack (.boolean b) := by
  refine readsBack_scalar trivial rfl fun fuel depth rest _ => ?_
  cases b with
  | true =>
    show readValue (fuel + 1) depth ('t' :: 'r' :: 'u' :: 'e' :: rest) = _
    rw [readValue, skipBlank_cons (by decide)]
    rfl
  | false =>
    show readValue (fuel + 1) depth ('f' :: 'a' :: 'l' :: 's' :: 'e' :: rest) = _
    rw [readValue, skipBlank_cons (by decide)]
    rfl

theorem readsBack_nothing : ReadsBack .nothing := by
  refine readsBack_scalar trivial rfl fun fuel depth rest _ => ?_
  show readValue (fuel + 1) depth ('n' :: 'u' :: 'l' :: 'l' :: rest) = _
  rw [readValue, skipBlank_cons (by decide)]
  rfl

/-! ## Whole texts -/

theorem readsBack_of_every (h : d.Every Datum.Faithful) : ReadsBack d := by
  induction h with
  | @intro d here inside ih =>
    cases d with
    | string s => exact readsBack_string s
    | integer n => exact readsBack_integer n
    | float x => cases here
    | boolean b => exact readsBack_boolean b
    | nothing => exact readsBack_nothing
    | list items =>
      refine Brackets.list.readsBack (text_list items) rfl
        (Nat.succ_pos _) (fun n => Datum.depth_list_le items) fun d hd => ⟨?_, ih d hd⟩
      cases inside d hd with
      | intro here _ => exact here
    | record fields =>
      have hcollect : Datum.record (collectFields fields) = .record fields :=
        congrArg Datum.record (collectFields_of_nodup here)
      exact Brackets.record.readsBack (text_record fields) hcollect
        (Nat.succ_pos _) (fun n => Datum.depth_record_le fields) fun f hf =>
        ⟨trivial, ih f.2 (List.mem_map_of_mem hf)⟩

/-- A faithful tree is read back from its text if it is at most 127 containers deep, and else its
text is refused. -/
theorem read_write (h : d.Every Datum.Faithful) :
    (d.depth ≤ 127 → read (write d) = .ok d) ∧
      (128 ≤ d.depth → ∃ e, read (write d) = .error e ∧ e.fault = .tooDeep) := by
  have hanswer := readsBack_of_every h (3 * (text d).length + 1) 127 [] (by omega) closes_nil
  rw [List.append_nil] at hanswer
  unfold read readAll
  rw [show (write d).toList = text d from rfl]
  generalize readValue (3 * (text d).length + 1) (127 + 1) (text d) = x at hanswer ⊢
  cases hanswer with
  | tree hfits => exact ⟨fun _ => rfl, fun hdeep => by omega⟩
  | tooDeep hfits hf => exact ⟨fun hdepth => absurd hdepth hfits, fun _ => ⟨_, rfl, hf⟩⟩

end Json

end TagMachine
