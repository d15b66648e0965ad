import TagMachine.Pattern.Read
import TagMachine.Proofs.Pattern.Locality

set_option autoImplicit false

/-! # Symbols and classes inside a longer pattern

The readers of single symbols are `Local`, except for one: behind the letter of a word boundary an
opening brace needs another character to tell a name from a count (`readBoundary?`). Classes in
brackets are read by readers that are `Local` without exception, since no boundary stands in a
class.
-/

namespace TagMachine.Pattern

variable {c : Char} {cs r : List Char}

open Text (CharSet)

variable (f : Flags)

/-! ## Characters by number -/

theorem local_hexDigits (n count : Nat) : Local (hexDigits? f n count) := by
  induction count generalizing n with
  | zero => exact (local_pure n).congr fun cs => rfl
  | succ count ih =>
    refine Local.head rfl (S := fun c => (Text.hexValue? c).elim (fun _ => none) fun d =>
      andThen (skipping f) fun _ => hexDigits? f (16 * n + d) count) (fun c t => ?_) fun c => ?_
    · rw [hexDigits?]
      cases Text.hexValue? c <;> rfl
    · cases Text.hexValue? c with
      | none => exact local_fail
      | some d => exact (local_skipping f).andThen fun _ => ih _

/-- A digit, or the closing brace if there is a number. -/
def hexStep (s : Nat × Bool) (c : Char) : Option ((Nat × Bool) ⊕ Nat) :=
  if c = '\x7d' then if s.2 then some (.inr s.1) else none
  else (Text.hexValue? c).map fun d => .inl (16 * s.1 + d, true)

theorem local_bracedHex (s : Nat × Bool) : Local fun cs =>
    bracedHex? f (cs.length + 1) s.1 s.2 cs := by
  refine Local.fueled (fun k s => bracedHex? f k s.1 s.2) (fun s =>
    taking f (hexStep s)) (fun k s cs => ?_)
    (fun s => local_taking f _) length_lt_of_taking s
  simp only [looping, andThen, taking, first, hexStep]
  conv_lhs => unfold bracedHex?
  cases skip f cs with
  | nil => rfl
  | cons c rest =>
    by_cases hc : c = '\x7d'
    · simp only [if_pos hc]
      cases s.2 <;> rfl
    · simp only [if_neg hc]
      cases Text.hexValue? c <;> rfl

/-- The text up to a closing brace, a character at a time. -/
def nameStep (done : List Char) (c : Char) : Option (List Char ⊕ List Char) :=
  some (if c = '\x7d' then .inr done.reverse else .inl (c :: done))

theorem local_bracedName (done : List Char) : Local fun cs =>
    bracedName? f (cs.length + 1) done cs := by
  refine Local.fueled (bracedName? f) (fun s => taking f (nameStep s)) (fun k s cs => ?_)
    (fun s => local_taking f _) length_lt_of_taking done
  simp only [looping, andThen, taking, first, nameStep]
  conv_lhs => unfold bracedName?
  cases skip f cs with
  | nil => rfl
  | cons c rest =>
    by_cases hc : c = '\x7d'
    · simp only [if_pos hc]
      rfl
    · simp only [if_neg hc]
      rfl

/-- A character given by its number. -/
theorem local_readCode (count : Nat) : Local (readCode? f (count + 1)) := by
  have hbraced := ((local_bracedHex f (0, false)).thenMap charOf?).andThen fun c =>
    (local_skipping f).thenMap fun _ => some c
  have hplain := (local_hexDigits f 0 (count + 1)).thenMap charOf?
  refine ((local_skipping f).andThen fun _ =>
    hbraced.onHead (c := '\x7b') hplain (by decide)).congr fun cs => ?_
  rw [andThen_skipping]
  unfold readCode?
  split
  · next h =>
      rw [h]
      rfl
  · next rest h =>
      rw [h, onHead_cons]
      simp only [andThen, thenMap]
      cases bracedHex? f (rest.length + 1) 0 false rest with
      | none => rfl
      | some p =>
        obtain ⟨n, r⟩ := p
        simp only [Option.bind_some]
        cases charOf? n <;> rfl
  · next hnil hbrace =>
      rw [onHead_of_ne fun t => hbrace t]
      simp only [andThen, thenMap]
      cases hexDigits? f 0 (count + 1) (skip f cs) <;> rfl

/-! ## Properties -/

theorem local_readProperty (negated : Bool) : Local (readProperty? f negated) := by
  cases hunicode : f.unicode with
  | false => exact local_fail.congr fun cs => by rw [readProperty?, hunicode]; rfl
  | true =>
    have hbraced := (local_bracedName f []).thenMap fun name =>
      (classByName? name).map (foldAndNegate f negated)
    have hplain : Local (andThen (first fun c => Text.namedSet? [c]) fun s =>
        thenMap (skipping f) fun _ => some (foldAndNegate f negated s)) :=
      (local_first _).andThen fun s => (local_skipping f).thenMap _
    refine ((local_skipping f).andThen fun _ => local_fail.onHead (c := '\\')
      (hbraced.onHead (c := '\x7b') hplain (by decide)) (by decide)).congr fun cs => ?_
    rw [andThen_skipping, readProperty?, hunicode]
    simp only [Bool.not_true, Bool.false_eq_true, if_false]
    split
    · next h =>
        rw [h]
        rfl
    · next rest h =>
        rw [h, onHead_cons]
    · next rest h =>
        rw [h, onHead_of_ne (by simp), onHead_cons]
        simp only [andThen, thenMap]
        cases bracedName? f (rest.length + 1) [] rest with
        | none => rfl
        | some p =>
          obtain ⟨name, r⟩ := p
          simp only [Option.bind_some]
          cases classByName? name <;> rfl
    · next c rest hslash hbrace h =>
        rw [h, onHead_of_ne fun t ht => hslash (List.cons.inj ht).1,
          onHead_of_ne fun t ht => hbrace (List.cons.inj ht).1]
        simp only [andThen, thenMap, first]
        cases Text.namedSet? [c] <;> rfl

/-! ## Escapes -/

/-- The letters behind which more follows. -/
theorem isEscapable_of_mem : ∀ c ∈ ['b', 'x', 'u', 'U', 'p', 'P'], isEscapable c = false := by
  simp only [List.forall_mem_cons, isEscapable, isMeta, String.contains_char_eq]
  exact ⟨by decide, by decide, by decide, by decide, by decide, by decide, fun c h => by cases h⟩

/-- Behind the letter of an escape stands nothing more, a number or a property, except for word
boundaries. -/
theorem readEscape_cons (hc : c ≠ 'b') :
    (∃ o : Option Symbol, ∀ rest, readEscape? f (c :: rest) = o.map (·, rest)) ∨
    (∃ count, ∀ rest, readEscape? f (c :: rest) =
      (readCode? f (count + 1) rest).map fun p => (.literal p.1 true, p.2)) ∨
    ∃ negated, ∀ rest, readEscape? f (c :: rest) =
      (readProperty? f negated rest).map fun p => (.set p.1, p.2) := by
  have hletter := isEscapable_of_mem
  by_cases hx : c = 'x'
  · refine .inr (.inl ⟨1, fun rest => ?_⟩)
    rw [hx, readEscape?, hletter 'x' (by decide)]
    rfl
  by_cases hu : c = 'u'
  · refine .inr (.inl ⟨3, fun rest => ?_⟩)
    rw [hu, readEscape?, hletter 'u' (by decide)]
    rfl
  by_cases hU : c = 'U'
  · refine .inr (.inl ⟨7, fun rest => ?_⟩)
    rw [hU, readEscape?, hletter 'U' (by decide)]
    rfl
  by_cases hp : c = 'p'
  · refine .inr (.inr ⟨false, fun rest => ?_⟩)
    rw [hp, readEscape?, hletter 'p' (by decide)]
    rfl
  by_cases hP : c = 'P'
  · refine .inr (.inr ⟨true, fun rest => ?_⟩)
    rw [hP, readEscape?, hletter 'P' (by decide)]
    rfl
  refine .inl ⟨(readEscape? f [c]).map Prod.fst, fun rest => ?_⟩
  unfold readEscape?
  by_cases hescapable : isEscapable c = true
  · simp only [if_pos hescapable]
    rfl
  simp only [if_neg hescapable]
  split <;> simp_all

theorem local_escape (hc : c ≠ 'b') : Local fun rest => readEscape? f (c :: rest) := by
  obtain ⟨o, ho⟩ | ⟨count, hcode⟩ | ⟨negated, hproperty⟩ := readEscape_cons f hc
  · exact (local_option o).congr ho
  · exact ((local_readCode f count).map fun c => .literal c true).congr hcode
  · exact ((local_readProperty f negated).map .set).congr hproperty

theorem readEscape_boundary (rest : List Char) :
    readEscape? f ('b' :: rest) = (readBoundary? f rest).map fun p => (.look p.1, p.2) := by
  rw [readEscape?, isEscapable_of_mem 'b' (by decide)]
  rfl

/-! ## Runs of characters -/

/-- A character of a kind, or the end of a run of them. -/
def runStep (kind : Char → Bool) (done : List Char) (cs : List Char) :
    Option ((List Char ⊕ List Char) × List Char) :=
  match cs with
  | [] => some (.inr done.reverse, [])
  | c :: rest =>
    if kind c then some (.inl (c :: done), skip f rest) else some (.inr done.reverse, cs)

theorem runStep_suffix {kind : Char → Bool} {done : List Char} {x : List Char ⊕ List Char}
    (h : runStep f kind done cs = some (x, r)) : r <:+ cs := by
  unfold runStep at h
  split at h
  · cases h
    exact List.suffix_rfl
  · split_ifs at h
    · cases h
      exact (skip_suffix f _).trans (List.suffix_cons _ _)
    · cases h
      exact List.suffix_rfl

theorem local_runStep {kind : Char → Bool} (hkind : kind ')' = false) (done : List Char) :
    Local (runStep f kind done) := by
  refine ⟨runStep_suffix f, fun cs => ?_⟩
  cases cs with
  | nil =>
    refine .clean rfl fun t => ?_
    rw [List.nil_append, runStep, hkind]
    rfl
  | cons c rest =>
    by_cases hc : kind c = true
    · have hstep : ∀ t, runStep f kind done (c :: t) =
          thenMap (skipping f) (fun _ => some (.inl (c :: done))) t := fun t => if_pos hc
      exact (((local_skipping f).thenMap _).cut rest).congr (hstep rest) fun t => hstep _
    · have hstep : ∀ t, runStep f kind done (c :: t) = some (.inr done.reverse, c :: t) :=
        fun t => if_neg hc
      exact .clean (hstep rest) fun t => hstep _

/-- A loop that takes characters of a kind, but no closing parenthesis, and gives them. -/
theorem local_run (kind : Char → Bool) (hkind : kind ')' = false)
    {G : Nat → List Char → List Char → List Char × List Char}
    (hnil : ∀ k done, G k done [] = (done.reverse, []))
    (hcons : ∀ k done c rest, G (k + 1) done (c :: rest) =
      if kind c then G k (c :: done) (skip f rest) else (done.reverse, c :: rest))
    (done : List Char) :
    Local fun cs => some (G cs.length done cs) := by
  refine Local.fueled_of_nil (fun k done cs =>
    some (G k done cs)) (runStep f kind) (fun k done cs => ?_)
    (local_runStep f hkind) (fun {done cs done' r} h => ?_) (fun k done => ?_) done
  · cases cs with
    | nil =>
      rw [hnil]
      rfl
    | cons c rest =>
      simp only [looping, andThen, runStep, hcons]
      cases kind c <;> rfl
  · cases cs with
    | nil => cases h
    | cons c rest =>
      simp only [runStep] at h
      split_ifs at h
      · cases h
        exact Nat.lt_succ_of_le (skip_suffix f rest).length_le
      · cases h
  · rw [hnil, hnil]

/-! ## Word boundaries -/

/-- The condition of a word boundary with a name. -/
def boundaryLook? (name : List Char) : Option Look :=
  if name = "start".toList then some .wordStart
  else if name = "end".toList then some .wordEnd
  else if name = "start-half".toList then some .wordStartHalf
  else if name = "end-half".toList then some .wordEndHalf
  else none

/-- The name of a word boundary up to its closing brace. -/
def namedBoundary : Reader Look :=
  andThen (fun cs => some (boundaryName f cs.length [] cs)) fun name =>
    onHead '\x7d' (fun cs => (boundaryLook? name).map (·, cs)) fun _ => none

theorem local_namedBoundary : Local (namedBoundary f) := by
  have hrun : Local fun cs => some (boundaryName f cs.length [] cs) := by
    refine local_run f (fun c => c.isAlpha || c == '-') (by decide) (fun k done => ?_)
      (fun k done c rest => by rw [boundaryName]) []
    cases k <;> rfl
  exact hrun.andThen fun name => (local_option (boundaryLook? name)).onHead local_fail (by decide)

/-- An opening brace with nothing behind it that counts. -/
def Unclosed (r : List Char) : Prop := ∃ inside, r = '\x7b' :: inside ∧ skip f inside = []

/-- Behind an opening brace the next character that counts tells a name from a count. -/
theorem readBoundary_brace {inside rest : List Char} (h : skip f inside = c :: rest) :
    readBoundary? f ('\x7b' :: inside) =
      if c.isAlpha || c == '-' then namedBoundary f (c :: rest)
      else some (.wordBoundary, '\x7b' :: inside) := by
  simp only [readBoundary?, h]
  cases hc : c.isAlpha || c == '-' with
  | false => rfl
  | true =>
    simp only [Bool.not_true, Bool.false_eq_true, if_false, if_true, namedBoundary, andThen,
      Option.bind_some, List.length_cons]
    cases boundaryName f (rest.length + 1) [] (c :: rest) with
    | mk name rest =>
      split
      · next heq =>
          cases heq
          rw [onHead_cons, boundaryLook?]
          split_ifs <;> rfl
      · next hbrace => rw [onHead_of_ne fun t ht => hbrace name t (congrArg (Prod.mk name) ht)]

theorem readBoundary_brace_nil {inside : List Char} (h : skip f inside = []) :
    readBoundary? f ('\x7b' :: inside) = none := by
  simp only [readBoundary?, h]

theorem readBoundary_of_ne (h : ∀ t, cs ≠ '\x7b' :: t) :
    readBoundary? f cs = some (.wordBoundary, cs) := by
  unfold readBoundary?
  split
  · next t => exact absurd rfl (h t)
  · rfl

theorem readBoundary_suffix {l : Look} (h : readBoundary? f cs = some (l, r)) : r <:+ cs := by
  by_cases hbrace : ∃ inside, cs = '\x7b' :: inside
  · obtain ⟨inside, rfl⟩ := hbrace
    cases hskip : skip f inside with
    | nil =>
      rw [readBoundary_brace_nil f hskip] at h
      cases h
    | cons c rest =>
      rw [readBoundary_brace f hskip] at h
      split_ifs at h
      · have hsuffix := skip_suffix f inside
        rw [hskip] at hsuffix
        exact ((local_namedBoundary f).suffix h).trans (hsuffix.trans (List.suffix_cons _ _))
      · cases h
        exact List.suffix_rfl
  · push Not at hbrace
    rw [readBoundary_of_ne f hbrace] at h
    cases h
    exact List.suffix_rfl

theorem cut_readBoundary (cs : List Char) : Cut (fun _ => Unclosed f) (readBoundary? f) cs := by
  by_cases hbrace : ∃ inside, cs = '\x7b' :: inside
  · obtain ⟨inside, rfl⟩ := hbrace
    -- what the reader makes of a brace that has nothing behind it on its own
    have hunclosed (hnil : skip f inside = []) (hrest : ∀ t,
      skip f (inside ++ ')' :: t) = ')' :: t ∨
        skip f (inside ++ ')' :: t) <:+ t) :
        Cut (fun _ => Unclosed f) (readBoundary? f) ('\x7b' :: inside) := by
      refine .short (readBoundary_brace_nil f hnil) fun t l r hread => ?_
      rw [List.cons_append] at hread
      cases hskip : skip f (inside ++ ')' :: t) with
      | nil =>
        rw [readBoundary_brace_nil f hskip] at hread
        cases hread
      | cons c rest =>
        rw [readBoundary_brace f hskip] at hread
        split_ifs at hread with hc
        · rcases hrest t with hparen | hsuffix
          · rw [hskip] at hparen
            cases hparen
            exact absurd hc (by decide)
          · rw [hskip] at hsuffix
            exact .inl (((local_namedBoundary f).suffix hread).trans hsuffix)
        · cases hread
          exact .inr ⟨'\x7b' :: inside, ⟨inside, rfl, hnil⟩, rfl⟩
    rcases skip_cut f inside with hbefore | ⟨hnil, -, hbeyond⟩
    · cases hskip : skip f inside with
      | nil => exact hunclosed hskip fun t => .inl (by rw [hbefore, hskip]; rfl)
      | cons c rest =>
        rw [hskip] at hbefore
        have halone := readBoundary_brace f hskip
        have hcut := fun t => readBoundary_brace f (hbefore t)
        cases hc : c.isAlpha || c == '-' with
        | false =>
          simp only [hc, Bool.false_eq_true, if_false] at halone hcut
          exact .clean halone hcut
        | true =>
          simp only [hc, if_true] at halone hcut
          exact ((local_namedBoundary f).cut_of (c :: rest)).congr halone hcut
    · exact hunclosed hnil fun t => .inr (hbeyond t)
  · push Not at hbrace
    refine .clean (readBoundary_of_ne f hbrace) fun t => readBoundary_of_ne f fun t' ht => ?_
    cases cs with
    | nil => cases ht
    | cons c rest => exact hbrace rest (by rw [(List.cons.inj ht).1])

theorem readEscape_suffix {rest : List Char} {symbol : Symbol}
    (h : readEscape? f rest = some (symbol, r)) : r <:+ rest := by
  cases rest with
  | nil => cases h
  | cons c rest =>
    by_cases hc : c = 'b'
    · subst hc
      rw [readEscape_boundary] at h
      obtain ⟨⟨l, r'⟩, hread, heq⟩ := Option.map_eq_some_iff.1 h
      cases heq
      exact (readBoundary_suffix f hread).trans (List.suffix_cons _ _)
    · exact ((local_escape f hc).suffix h).trans (List.suffix_cons _ _)

theorem cut_readEscape (cs : List Char) : Cut (fun _ => Unclosed f) (readEscape? f) cs := by
  cases cs with
  | nil =>
    refine .short rfl fun t symbol r hread => .inl ?_
    exact (local_escape f (c := ')') (by decide)).suffix hread
  | cons c rest =>
    by_cases hc : c = 'b'
    · subst hc
      have hmap : Cut (fun _ => Unclosed f)
          (fun cs => (readBoundary? f cs).map fun p => (Symbol.look p.1, p.2)) rest :=
        (cut_readBoundary f rest).map Symbol.look fun _ _ h => h
      exact hmap.congr (readEscape_boundary f rest) fun t => readEscape_boundary f _
    · exact ((local_escape f hc).cut_of rest).congr rfl fun t => rfl

/-! ## Single parts -/

/-- A class behind its opening bracket as a reader. -/
def bracketed [Vocabulary] (cs : List Char) : Option ((Text.CharSet × Nat) × List Char) :=
  (Vocabulary.bracket f cs).map fun p => ((p.1, p.2.1), p.2.2)

/-- Symbols are read from the front, and what is behind a closing parenthesis does not matter unless
that is taken. Only behind a word boundary it may be that a brace with nothing behind it is left. -/
class LawfulVocabulary (v : Vocabulary) : Prop where
  escape_suffix : ∀ (f : Flags) {cs : List Char} {symbol r},
    v.escape f cs = some (symbol, r) → r <:+ cs
  cut_escape : ∀ (f : Flags) (cs : List Char), Cut (fun _ => Unclosed f) (v.escape f) cs
  local_bracketed : ∀ f : Flags, Local (bracketed f)

export LawfulVocabulary (escape_suffix cut_escape local_bracketed)

section Parts

variable [v : Vocabulary]

theorem readPrimitive_cons {c : Char} (hc : c ≠ '\\') :
    ∃ o : Option Item, ∀ rest, readPrimitive? f (c :: rest) = o.map (·, rest) := by
  refine ⟨(readPrimitive? f [c]).map Prod.fst, fun rest => ?_⟩
  unfold readPrimitive?
  split <;> simp_all [Function.comp_def]

theorem readPrimitive_escape (rest : List Char) :
    readPrimitive? f ('\\' :: rest) = thenMap (v.escape f) (symbolItem? f) rest := by
  simp only [readPrimitive?, thenMap, andThen]
  cases v.escape f rest <;> rfl

variable [LawfulVocabulary v]

/-- A part takes a character. -/
theorem readPrimitive_suffix {c : Char} {rest r : List Char} {i : Item}
    (h : readPrimitive? f (c :: rest) = some (i, r)) : r <:+ rest := by
  by_cases hc : c = '\\'
  · subst hc
    rw [readPrimitive_escape] at h
    obtain ⟨symbol, hread, -⟩ := thenMap_eq_some.1 h
    exact escape_suffix f hread
  · obtain ⟨o, ho⟩ := readPrimitive_cons f hc
    obtain ⟨i', -, heq⟩ := Option.map_eq_some_iff.1 ((ho rest).symm.trans h)
    cases heq
    exact List.suffix_rfl

theorem cut_readPrimitive (c : Char) (rest : List Char) :
    Cut (fun _ => Unclosed f) (readPrimitive? f) (c :: rest) := by
  by_cases hc : c = '\\'
  · subst hc
    have hescape : Cut (fun _ => Unclosed f) (v.escape f) rest := cut_escape f rest
    have hitem := hescape.thenMap (symbolItem? f) fun _ _ _ _ h => h
    exact hitem.congr (readPrimitive_escape f rest) fun t => readPrimitive_escape f _
  · obtain ⟨o, ho⟩ := readPrimitive_cons f hc
    exact ((local_option o).cut_of rest).congr (ho rest) fun t => ho _

end Parts

/-! ## Repetitions -/

theorem local_readLazy : Local fun cs => some (readLazy cs) := by
  refine ((local_pure true).onHead (c := '?') (local_pure false) (by decide)).congr fun cs => ?_
  unfold readLazy
  split
  · rw [onHead_cons]
  · next h => rw [onHead_of_ne h]

/-- Blanks, which do not count before or behind a number. -/
theorem local_dropBlank : Local fun cs : List Char => some ((), cs.dropWhile Text.isBlank) where
  suffix h := by
    obtain ⟨-, rfl⟩ := Prod.mk.inj (Option.some.inj h)
    exact List.dropWhile_suffix _
  cut cs := by
    refine .clean rfl fun t => ?_
    rw [List.dropWhile_append]
    split_ifs with hnil
    · rw [List.isEmpty_iff.1 hnil]
      rfl
    · rfl

theorem local_countDigits (done : List Char) : Local fun cs =>
    some (countDigits f cs.length done cs) := by
  refine local_run f Char.isDigit (by decide) (fun k done => ?_)
    (fun k done c rest => by rw [countDigits]) done
  cases k <;> rfl

/-- The number that decimal digits stand for, if it fits 32 bits. -/
def countOf (digits : List Char) : Option Nat :=
  let n := digits.foldl (fun n c => 10 * n + (c.toNat - '0'.toNat)) 0
  if digits.isEmpty || Nat.pow 2 32 ≤ n then none else some n

theorem local_readCount : Local fun cs => some (readCount f cs) := by
  exact (local_dropBlank.andThen fun _ => (local_countDigits f []).andThen fun digits =>
    local_dropBlank.andThen fun _ => (local_skipping f).thenMap fun _ =>
      some (countOf digits)).congr fun cs => rfl

/-- The upper count of a repetition, which must not be less than the lower one, and the closing
brace. -/
def upperCount (min : Nat) : Reader (Nat × Option Nat) :=
  andThen (fun cs => some (readCount f cs)) fun max => onHead '\x7d'
    (fun cs => (max.filter (min ≤ ·)).map fun max => ((min, some max), cs)) fun _ => none

/-- What follows the lower count of a repetition. -/
def countsAfter (min : Nat) : Reader (Nat × Option Nat) :=
  onHead '\x7d' (fun cs => some ((min, some min), cs)) (onHead ','
    (andThen (skipping f) fun _ =>
      onHead '\x7d' (fun cs => some ((min, none), cs)) (upperCount f min))
    fun _ => none)

theorem local_upperCount (min : Nat) : Local (upperCount f min) := by
  refine (local_readCount f).andThen fun max => Local.onHead ?_ local_fail (by decide)
  cases max.filter (min ≤ ·) with
  | none => exact local_fail
  | some max => exact local_pure _

theorem local_countsAfter (min : Nat) : Local (countsAfter f min) := by
  refine (local_pure _).onHead (.onHead ?_ local_fail (by decide)) (by decide)
  exact (local_skipping f).andThen fun _ =>
    (local_pure _).onHead (local_upperCount f min) (by decide)

/-- The counts of a repetition as a reader. -/
def counts (cs : List Char) : Option ((Nat × Option Nat) × List Char) :=
  (readCounts? f cs).map fun p => ((p.1, p.2.1), p.2.2)

theorem upperCount_eq (min : Nat) (max : Option Nat) (rest cs : List Char)
    (h : readCount f cs = (max, rest)) :
    upperCount f min cs = onHead '\x7d'
      (fun cs => (max.filter (min ≤ ·)).map fun max => ((min, some max), cs)) (fun _ =>
        none) rest := by
  rw [upperCount, andThen_of_some (congrArg some h)]

theorem counts_eq (cs : List Char) : counts f cs = andThen (skipping f) (fun _ =>
    andThen (fun cs => some (readCount f cs)) fun min =>
      min.elim (fun _ => none) (countsAfter f)) cs := by
  rw [andThen_skipping, counts, readCounts?, andThen]
  cases readCount f (skip f cs) with
  | mk min rest =>
    cases min with
    | none => rfl
    | some min =>
      simp only [Option.bind_some, Option.elim_some, countsAfter]
      split
      · next heq =>
          cases heq
          rw [onHead_cons]
          rfl
      · next rest' heq =>
          cases heq
          rw [onHead_of_ne (by simp), onHead_cons, andThen_skipping]
          split
          · next hskip =>
              rw [hskip, onHead_cons]
              rfl
          · next hbrace =>
              rw [onHead_of_ne hbrace]
              cases hcount : readCount f (skip f rest') with
              | mk max rest =>
                rw [upperCount_eq f min max rest _ hcount]
                split
                · next max _ heq =>
                    cases heq
                    rw [onHead_cons]
                    by_cases hle : min ≤ max
                    · simp [hle]
                    · simp [hle, Nat.lt_of_not_le hle]
                · next hmax =>
                    cases max with
                    | none =>
                      unfold onHead
                      split_ifs <;> rfl
                    | some max =>
                      rw [onHead_of_ne fun t ht => hmax max t (by rw [ht])]
                      rfl
      · next hbrace hcomma =>
          rw [onHead_of_ne fun t ht => hbrace min t (by rw [ht]),
            onHead_of_ne fun t ht => hcomma min t (by rw [ht])]
          rfl

theorem local_counts : Local (counts f) := by
  refine ((local_skipping f).andThen fun _ => (local_readCount f).andThen
    (S := fun min => min.elim (fun _ => none) (countsAfter f)) fun min => ?_).congr (counts_eq f)
  cases min with
  | none => exact local_fail
  | some min => exact local_countsAfter f min

/-- Counts do not begin at the end. -/
theorem counts_of_skip_nil (h : skip f cs = []) : counts f cs = none := by
  rw [counts, readCounts?, h]
  have hcount : readCount f [] = (none, []) := by
    rw [readCount]
    simp [countDigits, skip_nil]
  rw [hcount]
  rfl

/-! ## Names and openings of groups -/

/-- The characters up to a certain one, which is taken too. -/
def scanTo (c : Char) : List Char → Option (List Char × List Char)
  | [] => none
  | d :: t => if d = c then some ([], t) else (scanTo c t).map fun p => (d :: p.1, p.2)

theorem scanTo_suffix {name : List Char} (h : scanTo c cs = some (name, r)) : r <:+ cs := by
  induction cs generalizing name with
  | nil => cases h
  | cons d t ih =>
    unfold scanTo at h
    split_ifs at h with hd
    · cases h
      exact List.suffix_cons d _
    · obtain ⟨⟨name', r'⟩, hread, heq⟩ := Option.map_eq_some_iff.1 h
      cases heq
      exact (ih hread).trans (List.suffix_cons d t)

theorem local_scanTo (c : Char) (hc : c ≠ ')') : Local (scanTo c) := by
  refine ⟨scanTo_suffix, fun cs => ?_⟩
  induction cs with
  | nil =>
    refine .short rfl fun t name r h => .inl ?_
    rw [List.nil_append, scanTo, if_neg hc.symm] at h
    obtain ⟨⟨name', r'⟩, hread, heq⟩ := Option.map_eq_some_iff.1 h
    cases heq
    exact scanTo_suffix hread
  | cons d cs ih =>
    by_cases hd : d = c
    · exact .clean (if_pos hd) fun t => if_pos hd
    · have hcons : ∀ t,
          scanTo c (d :: t) = andThen (scanTo c) (fun name r => some (d :: name, r)) t := by
        intro t
        rw [scanTo, if_neg hd, andThen]
        cases scanTo c t <;> rfl
      refine Cut.congr ?_ (hcons cs) fun t => hcons _
      exact ih.andThen (fun name r _ => (local_pure _).cut r) (fun name => (local_pure _).suffix)
        fun _ _ h => h.elim

theorem span_eq_scanTo (c : Char) (cs : List Char) : cs.span (· != c) =
    ((scanTo c cs).elim (cs, []) fun p => (p.1, c :: p.2)) := by
  rw [List.span_eq_takeWhile_dropWhile]
  induction cs with
  | nil => rfl
  | cons d t ih =>
    obtain ⟨htake, hdrop⟩ := Prod.mk.inj ih
    rw [scanTo, List.takeWhile_cons, List.dropWhile_cons, htake, hdrop]
    by_cases hd : d = c
    · simp [hd]
    · simp only [bne_iff_ne, ne_eq, hd, not_false_eq_true, if_true, if_false]
      cases scanTo c t <;> rfl

/-- The name of a group, if its characters can stand in one. -/
def groupName? : List Char → Option String
  | [] => none
  | c :: more =>
    if isNameChar true c && more.all (isNameChar false) then some (String.ofList (c :: more))
    else none

theorem local_readName : Local readName? := by
  refine ((local_scanTo '>' (by decide)).thenMap groupName?).congr fun cs => ?_
  rw [readName?, span_eq_scanTo, thenMap, andThen]
  cases scanTo '>' cs with
  | none => cases cs <;> rfl
  | some p =>
    obtain ⟨name, rest⟩ := p
    cases name with
    | nil => rfl
    | cons c more =>
      simp only [Option.elim_some, Option.bind_some, groupName?]
      split_ifs <;> rfl

/-- A list of flags, one character at a time. -/
def flagStep (l : FlagList) (c : Char) : Option (FlagList ⊕ (Flags × Bool × Bool)) :=
  if c = ':' ∨ c = ')' then
    if l.seen.head? = some '-' then none else some (.inr (l.flags, !l.seen.isEmpty, c = ':'))
  else if l.seen.contains c then none
  else if c = '-' then some (.inl { l with seen := c :: l.seen, negated := true })
  else (l.flags.switch c (!l.negated)).map fun flags =>
    .inl { l with flags := flags, seen := c :: l.seen }

def flagList (l : FlagList) (cs : List Char) : Option ((Flags × Bool × Bool) × List Char) :=
  (readFlags l cs).map fun p => ((p.1, p.2.1, p.2.2.1), p.2.2.2)

theorem flagList_eq (l : FlagList) (cs : List Char) :
    flagList l cs = looping (fun l => first (flagStep l)) flagList l cs := by
  cases cs with
  | nil => rfl
  | cons c rest =>
    simp only [looping, andThen, first, flagStep]
    conv_lhs => unfold flagList readFlags
    split_ifs
    · rfl
    · rfl
    · rfl
    · rfl
    · cases l.flags.switch c (!l.negated) <;> rfl

theorem local_flagList (l : FlagList) : Local (flagList l) := by
  refine Local.loop flagList_eq (fun l => local_first _) (fun {l cs l' r} h => ?_) l
  cases cs with
  | nil => cases h
  | cons c rest =>
    obtain ⟨x, -, heq⟩ := Option.map_eq_some_iff.1 h
    cases heq
    exact Nat.lt_succ_self _

/-- What begins with an opening parenthesis: flags for the rest of the enclosing group, or a group
with the flags it begins with and its capture. -/
abbrev Opened : Type := Flags × Option Capture

/-- The beginning of a group as a reader. -/
def opening (cs : List Char) : Option (Opened × List Char) :=
  (readOpening? f cs).map fun
    | .flags inner rest => ((inner, none), rest)
    | .group inner capture rest => ((inner, some capture), rest)

/-- What a list of flags begins. -/
def openedBy? (p : Flags × Bool × Bool) : Option Opened :=
  if p.2.2 then some (p.1, some .none) else if p.2.1 then some (p.1, none) else none

theorem local_opening : Local (opening f) := by
  have hname : Local (thenMap readName? fun name => some (f, some (Capture.named name))) :=
    local_readName.thenMap _
  have hflags : Local (thenMap (flagList { flags := f }) openedBy?) := (local_flagList _).thenMap _
  have hfail : Local fun _ => (none : Option (Opened × List Char)) := local_fail
  have hangle : Local _ := hfail.onHead (c := '=')
    (hfail.onHead (c := '!') hname (by decide)) (by decide)
  have hquestion : Local _ := hfail.onHead (c := '=') (hfail.onHead (c := '!')
    ((hname.onHead (c := '<') hfail (by decide)).onHead (c := 'P')
      (hangle.onHead (c := '<') hflags (by decide)) (by decide)) (by decide)) (by decide)
  refine ((local_skipping f).andThen fun _ =>
    hquestion.onHead (c := '?') (local_pure (f, some .unnamed)) (by decide)).congr fun cs => ?_
  rw [andThen_skipping, opening, readOpening?]
  split
  · next h => rw [h]; simp [onHead]
  · next h => rw [h]; simp [onHead]
  · next h => rw [h]; simp [onHead]
  · next h => rw [h]; simp [onHead]
  · next rest h =>
      rw [h]
      simp only [onHead_cons]
      rw [onHead_of_ne (by simp), onHead_of_ne (by simp), onHead_cons, onHead_cons,
        thenMap, andThen]
      cases readName? rest <;> rfl
  · next rest hequals hbang h =>
      rw [h, onHead_cons, onHead_of_ne (by simp), onHead_of_ne (by simp), onHead_of_ne (by simp),
        onHead_cons, onHead_of_ne hequals, onHead_of_ne hbang, thenMap, andThen]
      beta_reduce
      cases readName? rest <;> rfl
  · next rest hequals hbang _ _ hname hangle h =>
      rw [h, onHead_cons, onHead_of_ne hequals, onHead_of_ne hbang]
      by_cases hP : ∃ t, rest = 'P' :: t
      · obtain ⟨t, rfl⟩ := hP
        rw [onHead_cons, onHead_of_ne fun t' ht => hname t' (by rw [ht])]
        rfl
      · push Not at hP
        rw [onHead_of_ne hP, onHead_of_ne hangle, thenMap, andThen, flagList]
        cases readFlags { flags := f } rest with
        | none => rfl
        | some p =>
          obtain ⟨inner, any, colon, rest⟩ := p
          cases colon <;> cases any <;> rfl
  · next hquestion =>
      rw [onHead_of_ne hquestion]
      rfl

end TagMachine.Pattern
