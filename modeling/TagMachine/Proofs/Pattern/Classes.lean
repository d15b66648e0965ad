import TagMachine.Proofs.Pattern.Symbols

set_option autoImplicit false

/-! # Classes in brackets inside a longer pattern

A class in brackets is read by a loop over its parts, which may be classes in brackets themselves.
No condition stands in a class, so word boundaries do not disturb here; but a character is read
together with a hyphen that follows, and a look behind the hyphen may need more than there is.
-/

namespace TagMachine.Pattern

open Text (CharSet)

variable (f : Flags) {cs r : List Char} {c : Char}

/-! ## Characters and ranges -/

/-- A symbol that can stand in a class. -/
def plain? : Symbol → Option Symbol
  | .look _ => none
  | symbol => some symbol

def classSymbol : Reader Symbol := thenMap (readSymbol? f) plain?

theorem local_classSymbol : Local (classSymbol f) := by
  have hescape : Local (thenMap (readEscape? f) plain?) := by
    refine Local.head rfl (S := fun d => if d = 'b' then fun _ => none else
      thenMap (fun cs => readEscape? f (d :: cs)) plain?) (fun d t => ?_) fun d => ?_
    · split_ifs with hd
      · subst hd
        rw [thenMap, andThen, readEscape_boundary]
        cases readBoundary? f t <;> rfl
      · rfl
    · split_ifs with hd
      · exact local_fail
      · exact (local_escape f hd).thenMap plain?
  refine Local.head rfl (S := fun c => if c = '\\' then thenMap (readEscape? f) plain? else
    fun cs => some (.literal c false, cs)) (fun c t => ?_) fun c => ?_
  · split_ifs with hc
    · subst hc
      rfl
    · rw [classSymbol, thenMap, andThen, readSymbol?]
      · rfl
      · exact hc
  · split_ifs
    · exact hescape
    · exact local_pure _

/-- The set of a symbol that stands alone. -/
def soleSet? : Symbol → Option CharSet
  | .literal c _ => if allowedIn f c then some (CharSet.single c) else none
  | .set s => some s
  | .look _ => none

/-- The set of a range between two symbols. -/
def rangeSet? : Symbol → Symbol → Option CharSet
  | .literal low _, .literal high _ =>
    if low ≤ high && allowedIn f low && allowedIn f high
    then some (CharSet.range low.toNat high.toNat) else none
  | _, _ => none

/-- The end of a range behind its hyphen. -/
def rangeTail (symbol : Symbol) : Reader CharSet := thenMap (classSymbol f) (rangeSet? f symbol)

/-- What follows the first symbol of a part. -/
def itemTail (symbol : Symbol) (cs : List Char) : Option (CharSet × List Char) :=
  match cs with
  | [] => none
  | c :: more =>
    if c = '-' then
      match skip f more with
      | [] => none
      | d :: rest =>
        if d = ']' ∨ d = '-' then (soleSet? f symbol).map (·, cs)
        else rangeTail f symbol (d :: rest)
    else (soleSet? f symbol).map (·, cs)

section ItemTail

variable {symbol : Symbol} {more : List Char}

theorem itemTail_of_ne {c : Char} (hc : c ≠ '-') :
    itemTail f symbol (c :: more) = (soleSet? f symbol).map (·, c :: more) := if_neg hc

theorem itemTail_hyphen_nil (h : skip f more = []) : itemTail f symbol ('-' :: more) = none := by
  rw [itemTail, if_pos rfl, h]

theorem itemTail_hyphen_end {d : Char} {rest : List Char} (h : skip f more = d :: rest)
    (hd : d = ']' ∨ d = '-') :
    itemTail f symbol ('-' :: more) = (soleSet? f symbol).map (·, '-' :: more) := by
  rw [itemTail, if_pos rfl, h]
  exact if_pos hd

theorem itemTail_range {d : Char} {rest : List Char} (h : skip f more = d :: rest)
    (hd : ¬ (d = ']' ∨ d = '-')) :
    itemTail f symbol ('-' :: more) = rangeTail f symbol (d :: rest) := by
  rw [itemTail, if_pos rfl, h]
  exact if_neg hd

end ItemTail

/-- A condition stands nowhere in a class. -/
theorem classSymbol_bind {β : Type} {S : Symbol → Reader β} (hlook : ∀ l cs, S (.look l) cs = none)
    (cs : List Char) : andThen (classSymbol f) S cs = (readSymbol? f cs).bind fun p =>
      S p.1 p.2 := by
  simp only [classSymbol, thenMap, andThen]
  cases readSymbol? f cs with
  | none => rfl
  | some p =>
    obtain ⟨symbol, rest⟩ := p
    cases symbol with
    | look l => exact (hlook l rest).symm
    | literal c byte => rfl
    | set s => rfl

theorem itemTail_look (l : Look) (cs : List Char) : itemTail f (.look l) cs = none := by
  have hrange : ∀ cs, rangeTail f (.look l) cs = none := fun cs => by
    simp only [rangeTail, thenMap, andThen, rangeSet?]
    cases classSymbol f cs <;> rfl
  cases cs with
  | nil => rfl
  | cons c more =>
    by_cases hc : c = '-'
    · subst hc
      cases h : skip f more with
      | nil => exact itemTail_hyphen_nil f h
      | cons d rest =>
        by_cases hd : d = ']' ∨ d = '-'
        · exact itemTail_hyphen_end f h hd
        · exact (itemTail_range f h hd).trans (hrange _)
    · exact itemTail_of_ne f hc

/-- A part of a class is a symbol and what follows it. -/
theorem readClassItem_eq (cs : List Char) : readClassItem? f cs =
    andThen (classSymbol f) (fun symbol => andThen (skipping f) fun _ => itemTail f symbol) cs := by
  rw [classSymbol_bind f fun l cs => itemTail_look f l (skip f cs)]
  unfold readClassItem?
  cases readSymbol? f cs with
  | none => rfl
  | some p =>
    obtain ⟨symbol, rest⟩ := p
    simp only [Option.bind_some, andThen_skipping]
    split
    · next h => rw [h]; rfl
    · next more h =>
        rw [h]
        split
        · next h =>
            rw [itemTail_hyphen_end f h (.inl rfl)]
            cases symbol <;> grind [soleSet?]
        · next h =>
            rw [itemTail_hyphen_end f h (.inr rfl)]
            cases symbol <;> grind [soleSet?]
        · next h => rw [itemTail_hyphen_nil f h]
        · next hclose hhyphen hnil =>
            obtain ⟨d, m, h⟩ := List.exists_cons_of_ne_nil hnil
            rw [itemTail_range f h]
            · rw [h, rangeTail, thenMap, classSymbol_bind f fun l cs => ?_]
              · cases readSymbol? f (d :: m) with
                | none => cases symbol <;> rfl
                | some p =>
                  obtain ⟨high, rest⟩ := p
                  cases symbol <;> cases high <;> grind [rangeSet?]
              · cases symbol <;> rfl
            · rintro (rfl | rfl)
              · exact hclose m h
              · exact hhyphen m h
    · next hnil hhyphen =>
        obtain ⟨c, m, h⟩ := List.exists_cons_of_ne_nil hnil
        rw [h, itemTail_of_ne f fun hc => hhyphen m (hc ▸ h)]
        cases symbol <;> grind [soleSet?]

theorem local_rangeTail (symbol : Symbol) : Local (rangeTail f symbol) :=
  (local_classSymbol f).thenMap _

/-- A hyphen with nothing behind it that counts, or nothing at all. -/
def Hanging (r : List Char) : Prop := r = [] ∨ ∃ more, r = '-' :: more ∧ skip f more = []

theorem itemTail_suffix {symbol : Symbol} {s : CharSet}
    (h : itemTail f symbol cs = some (s, r)) : r <:+ cs := by
  have hsole : ∀ cs' : List Char, (soleSet? f symbol).map (·, cs') = some (s, r) → r = cs' := by
    intro cs' h
    obtain ⟨s', -, heq⟩ := Option.map_eq_some_iff.1 h
    cases heq
    rfl
  cases cs with
  | nil => cases h
  | cons c more =>
    by_cases hc : c = '-'
    · subst hc
      cases hskip : skip f more with
      | nil =>
        rw [itemTail_hyphen_nil f hskip] at h
        cases h
      | cons d rest =>
        by_cases hd : d = ']' ∨ d = '-'
        · rw [itemTail_hyphen_end f hskip hd] at h
          exact hsole _ h ▸ List.suffix_rfl
        · rw [itemTail_range f hskip hd] at h
          have hsuffix := skip_suffix f more
          rw [hskip] at hsuffix
          exact ((local_rangeTail f symbol).suffix h).trans (hsuffix.trans (List.suffix_cons _ _))
    · rw [itemTail_of_ne f hc] at h
      exact hsole _ h ▸ List.suffix_rfl

theorem cut_itemTail (symbol : Symbol) (cs : List Char) :
    Cut (fun _ => Hanging f) (itemTail f symbol) cs := by
  have hsole := local_option (soleSet? f symbol)
  have hrange := local_rangeTail f symbol
  cases cs with
  | nil =>
    refine .short rfl fun t s r hread => ?_
    rw [List.nil_append, itemTail_of_ne f (by decide)] at hread
    obtain ⟨s', -, heq⟩ := Option.map_eq_some_iff.1 hread
    cases heq
    exact .inr ⟨[], .inl rfl, rfl⟩
  | cons c more =>
    by_cases hc : c = '-'
    · subst hc
      rcases skip_cut f more with hbefore | ⟨hnil, -, hbeyond⟩
      · cases hskip : skip f more with
        | nil =>
          rw [hskip] at hbefore
          refine .short (itemTail_hyphen_nil f hskip) fun t s r hread => ?_
          rw [List.cons_append, itemTail_range f (hbefore t) (by decide)] at hread
          exact .inl (((hrange.cut []).beyond_of_none rfl hread).resolve_right fun ⟨_, h, _⟩ => h)
        | cons d m =>
          rw [hskip] at hbefore
          by_cases hd : d = ']' ∨ d = '-'
          · exact (hsole.cut_of ('-' :: more)).congr (itemTail_hyphen_end f hskip hd)
              fun t => itemTail_hyphen_end f (hbefore t) hd
          · exact (hrange.cut_of (d :: m)).congr (itemTail_range f hskip hd)
              fun t => itemTail_range f (hbefore t) hd
      · refine .short (itemTail_hyphen_nil f hnil) fun t s r hread => ?_
        rw [List.cons_append] at hread
        cases hrest : skip f (more ++ ')' :: t) with
        | nil =>
          rw [itemTail_hyphen_nil f hrest] at hread
          cases hread
        | cons d rest =>
          by_cases hd : d = ']' ∨ d = '-'
          · rw [itemTail_hyphen_end f hrest hd] at hread
            obtain ⟨s', -, heq⟩ := Option.map_eq_some_iff.1 hread
            cases heq
            exact .inr ⟨'-' :: more, .inr ⟨more, rfl, hnil⟩, rfl⟩
          · rw [itemTail_range f hrest hd] at hread
            exact .inl ((hrange.suffix hread).trans (hrest ▸ hbeyond t))
    · exact (hsole.cut_of (c :: more)).congr (itemTail_of_ne f hc) fun t => itemTail_of_ne f hc

theorem cut_readClassItem (cs : List Char) : Cut (fun _ => Hanging f) (readClassItem? f) cs := by
  have htail : ∀ symbol {cs s r},
      andThen (skipping f) (fun _ => itemTail f symbol) cs = some (s, r) → r <:+ cs :=
    fun symbol cs s r h => (itemTail_suffix f h).trans (skip_suffix f cs)
  refine Cut.congr ?_ (readClassItem_eq f cs) fun t => readClassItem_eq f _
  refine ((local_classSymbol f).cut cs).andThen (fun symbol r _ => ?_) htail fun _ _ h => h.elim
  exact (cut_skipping f r).andThen (fun _ r _ => cut_itemTail f symbol r) (fun _ =>
    itemTail_suffix f)
    fun _ _ h => h.elim

/-- A part of a class takes a character. -/
theorem readClassItem_suffix {rest : List Char} {s : CharSet}
    (h : readClassItem? f (c :: rest) = some (s, r)) : r <:+ rest := by
  rw [readClassItem_eq] at h
  obtain ⟨symbol, m, hread, htail⟩ := andThen_eq_some.1 h
  refine ((itemTail_suffix f htail).trans (skip_suffix f m)).trans ?_
  obtain ⟨symbol', hsymbol, -⟩ := thenMap_eq_some.1 hread
  by_cases hc : c = '\\'
  · subst hc
    exact readEscape_suffix f hsymbol
  · rw [readSymbol?] at hsymbol
    · cases hsymbol
      exact List.suffix_rfl
    · exact hc

/-! ## Classes with names -/

/-- The name of a class between colons. -/
def asciiTail (negated : Bool) : Reader CharSet :=
  andThen (scanTo ':') fun name => onHead ']' (fun cs =>
    (asciiClasses.lookup (String.ofList name)).map fun ranges =>
      (foldAndNegate f negated (CharSet.ofRanges ranges), cs)) fun _ => none

section AsciiTail

variable {negated : Bool} {name : List Char}

theorem asciiTail_of_none (h : scanTo ':' cs = none) : asciiTail f negated cs = none :=
  andThen_of_none h

theorem asciiTail_close (h : scanTo ':' cs = some (name, ']' :: r)) : asciiTail f negated cs =
    (asciiClasses.lookup (String.ofList name)).map fun ranges =>
      (foldAndNegate f negated (CharSet.ofRanges ranges), r) := by
  rw [asciiTail, andThen_of_some h, onHead_cons]

theorem asciiTail_of_ne (h : scanTo ':' cs = some (name, r)) (hr : ∀ r', r ≠ ']' :: r') :
    asciiTail f negated cs = none := by
  rw [asciiTail, andThen_of_some h, onHead_of_ne hr]

end AsciiTail

theorem readAsciiClass_eq (cs : List Char) : readAsciiClass? f cs =
    onHead ':' (onHead '^' (asciiTail f true) (asciiTail f false)) (fun _ => none) cs := by
  unfold readAsciiClass?
  split
  · next rest =>
      rw [onHead_cons]
      split
      next p negated more hpair =>
      have hhead : onHead '^' (asciiTail f true) (asciiTail f false) rest =
          asciiTail f negated more := by
        split at hpair
        · cases hpair
          rw [onHead_cons]
        · next hcaret =>
            cases hpair
            rw [onHead_of_ne hcaret]
      rw [hhead, span_eq_scanTo]
      cases h : scanTo ':' more with
      | none => exact (asciiTail_of_none f h).symm
      | some p =>
        obtain ⟨name, r⟩ := p
        simp only [Option.elim_some]
        split
        · next heq =>
            cases heq
            exact (asciiTail_close f h).symm
        · next hne => exact (asciiTail_of_ne f h fun r' hr => hne name r' (by rw [hr])).symm
  · next hcolon => rw [onHead_of_ne hcolon]

theorem local_asciiTail (negated : Bool) : Local (asciiTail f negated) := by
  refine (local_scanTo ':' (by decide)).andThen fun name => Local.onHead ?_ local_fail (by decide)
  cases asciiClasses.lookup (String.ofList name) with
  | none => exact local_fail
  | some ranges => exact local_pure _

theorem local_readAsciiClass : Local (readAsciiClass? f) :=
  (((local_asciiTail f true).onHead (local_asciiTail f false) (by decide)).onHead local_fail
    (by decide)).congr (readAsciiClass_eq f)

theorem scanTo_eq {name : List Char} (h : scanTo c cs = some (name, r)) : cs = name ++ c :: r := by
  induction cs generalizing name with
  | nil => cases h
  | cons d t ih =>
    unfold scanTo at h
    split_ifs at h with hd
    · cases h
      rw [hd]
      rfl
    · obtain ⟨⟨name', r'⟩, hread, heq⟩ := Option.map_eq_some_iff.1 h
      cases heq
      rw [ih hread]
      rfl

/-- No closing parenthesis stands in the name of a class. -/
theorem asciiTail_taken {negated : Bool} {s : CharSet}
    (h : asciiTail f negated cs = some (s, r)) : ∃ taken, cs = taken ++ r ∧ ')' ∉ taken := by
  obtain ⟨name, rest, hname, hclose⟩ := andThen_eq_some.1 h
  by_cases hr : ∃ r', rest = ']' :: r'
  · obtain ⟨r', rfl⟩ := hr
    rw [onHead_cons] at hclose
    obtain ⟨ranges, hlookup, heq⟩ := Option.map_eq_some_iff.1 hclose
    cases heq
    rw [List.lookup_eq_findSome?] at hlookup
    obtain ⟨p, hp, hfound⟩ := List.exists_of_findSome?_eq_some hlookup
    split_ifs at hfound with heq
    have hnone : ∀ p ∈ asciiClasses, ')' ∉ p.1.toList := by decide
    have hname' : ')' ∉ name := by
      have := hnone p hp
      rwa [← eq_of_beq heq, String.toList_ofList] at this
    refine ⟨name ++ [':', ']'], by rw [scanTo_eq hname]; simp, ?_⟩
    simp [hname']
  · push Not at hr
    rw [onHead_of_ne hr] at hclose
    cases hclose

theorem readAsciiClass_taken {s : CharSet} (h : readAsciiClass? f cs = some (s, r)) :
    ∃ taken, cs = taken ++ r ∧ ')' ∉ taken := by
  rw [readAsciiClass_eq] at h
  obtain ⟨rest, rfl, hcolon⟩ | hnone := onHead_cases h
  · obtain ⟨more, rfl, hcaret⟩ | hplain := onHead_cases hcolon
    · obtain ⟨taken, rfl, hnot⟩ := asciiTail_taken f hcaret
      exact ⟨':' :: '^' :: taken, rfl, by simp [hnot]⟩
    · obtain ⟨taken, rfl, hnot⟩ := asciiTail_taken f hplain
      exact ⟨':' :: taken, rfl, by simp [hnot]⟩
  · cases hnone

/-- A text that begins no class with a name begins none with a closing parenthesis behind it. -/
theorem readAsciiClass_none (h : readAsciiClass? f cs = none) (t : List Char) :
    readAsciiClass? f (cs ++ ')' :: t) = none := by
  refine Option.eq_none_iff_forall_ne_some.2 fun p hread => ?_
  obtain ⟨s, r⟩ := p
  have hsuffix := ((local_readAsciiClass f).cut cs).beyond_of_none h hread
  obtain ⟨u, rfl⟩ := hsuffix.resolve_right fun ⟨_, h, _⟩ => h
  obtain ⟨taken, htaken, hnot⟩ := readAsciiClass_taken f hread
  refine hnot ?_
  have heq : cs ++ ')' :: u = taken := List.append_cancel_right (by rw [← htaken]; simp)
  simp [← heq]

/-! ## The beginning of a class -/

/-- A hyphen at the start of a class, or the end of them. -/
def hyphenStep (p : Parts) : Reader (Parts ⊕ Parts) :=
  onHead '-' (thenMap (skipping f) fun _ => some (.inl (p.add (CharSet.single '-') 0)))
    fun cs => some (.inr p, cs)

theorem local_hyphenStep (p : Parts) : Local (hyphenStep f p) :=
  ((local_skipping f).thenMap _).onHead (local_pure _) (by decide)

theorem local_leadingHyphens (p : Parts) : Local fun cs =>
    some (leadingHyphens f cs.length p cs) := by
  refine Local.fueled_of_nil (fun k p cs =>
    some (leadingHyphens f k p cs)) (hyphenStep f) (fun k p cs => ?_)
    (local_hyphenStep f) (fun {p cs p' r} h => ?_) (fun k p => ?_) p
  · simp only [looping, andThen, hyphenStep]
    conv_lhs => unfold leadingHyphens
    split
    · next heq =>
        cases heq
        rw [onHead_cons]
        rfl
    · next hhyphen =>
        rw [onHead_of_ne fun t ht => hhyphen k t rfl ht]
        rfl
  · obtain ⟨t, rfl, hread⟩ | hend := onHead_cases h
    · cases hread
      exact Nat.lt_succ_of_le (skip_suffix f t).length_le
    · cases hend
  · cases k <;> rfl

/-- What is known of a class while its parts are read. -/
structure ClassState where
  negated : Bool
  pending : Option Pending := none
  parts : Parts

/-- A closing bracket stands for itself where it is the first part. -/
def firstBracket (negated : Bool) (p : Parts) : Reader ClassState :=
  if p.count = 0 then
    onHead ']' (thenMap (skipping f) fun _ =>
      some { negated, parts := p.add (CharSet.single ']') 0 })
      fun cs => some ({ negated, parts := p }, cs)
  else fun cs => some ({ negated, parts := p }, cs)

/-- The beginning of a class behind its opening bracket. -/
def classStart : Reader ClassState :=
  andThen (skipping f) fun _ => andThen (onHead '^' (thenMap (skipping f) fun _ => some true)
    fun cs => some (false, cs)) fun negated =>
      andThen (fun cs => some (leadingHyphens f cs.length {} cs)) (firstBracket f negated)

theorem local_classStart : Local (classStart f) := by
  refine (local_skipping f).andThen fun _ => (((local_skipping f).thenMap _).onHead (local_pure _)
    (by decide)).andThen fun negated => (local_leadingHyphens f {}).andThen fun p => ?_
  unfold firstBracket
  split_ifs
  · exact ((local_skipping f).thenMap _).onHead (local_pure _) (by decide)
  · exact local_pure _

theorem readParts_nil (k : Nat) (negated : Bool) (pending : Option Pending) (parts : Parts) :
    readParts? k f negated pending parts [] = none := by
  cases k with
  | zero => rw [readParts?]
  | succ k => rw [readParts?, skip_nil]

/-- A class is its beginning and its parts. -/
theorem readBracket_succ (k : Nat) (cs : List Char) : readBracket? (k + 1) f cs =
    (classStart f cs).bind fun p => readParts? k f p.1.negated p.1.pending p.1.parts p.2 := by
  rw [readBracket?, classStart, andThen_skipping]
  split
  next negated rest hcaret =>
  have hstart : onHead '^' (thenMap (skipping f) fun _ => some true) (fun cs => some (false, cs))
      (skip f cs) = some (negated, rest) := by
    split at hcaret
    · next h =>
        cases hcaret
        rw [h, onHead_cons]
        rfl
    · next h =>
        cases hcaret
        rw [onHead_of_ne h]
  rw [andThen_of_some hstart]
  split
  next parts m hhyphens =>
  rw [andThen_of_some (congrArg some hhyphens)]
  split
  next p parts' m' hbracket =>
  have hfirst : firstBracket f negated parts m = some ({ negated, parts := parts' }, m') := by
    rw [firstBracket]
    split at hbracket
    · next hcount =>
        cases hbracket
        rw [if_pos hcount, onHead_cons]
        rfl
    · next hne =>
        cases hbracket
        split_ifs with hcount
        · rw [onHead_of_ne fun t ht => hne t hcount ht]
        · rfl
  rw [hfirst, Option.bind_some]
  split_ifs with hempty
  · rw [List.isEmpty_iff.1 hempty, readParts_nil]
  · rfl

/-! ## The parts of a class -/

section Parts

variable (N : ClassState → Reader (CharSet × Nat)) (s : ClassState)

def ClassState.add (t : CharSet) (height : Nat) : ClassState :=
  { s with parts := s.parts.add t height }

/-- The class so far, to the left of an operator. -/
def ClassState.operate (op : SetOp) : ClassState :=
  { s with
    pending := some ⟨op, (s.parts.close f s.pending).1, (s.parts.close f s.pending).2⟩
    parts := {} }

def ClassState.result : CharSet × Nat :=
  (foldAndNegate f s.negated (s.parts.close f s.pending).1, (s.parts.close f s.pending).2 + 1)

/-- The operator that a character stands for where it stands twice. -/
def operatorOf? (c : Char) : Option SetOp :=
  if c = '&' then some .inter else if c = '-' then some .diff else if c =
    '~' then some .symmDiff else none

/-- The operator at the beginning of a list. -/
def doubled? (c : Char) (rest : List Char) : Option SetOp :=
  if rest.head? = some c then operatorOf? c else none

/-- A part in brackets of its own, behind its opening bracket. -/
def innerClass (cs : List Char) : Option ((ClassState ⊕ (CharSet × Nat)) × List Char) :=
  match readAsciiClass? f cs with
  | some (t, rest) => some (.inl (s.add t 0), rest)
  | none => (andThen (classStart f) N cs).map fun p => (.inl (s.add p.1.1 p.1.2), p.2)

/-- A part of a class, an operator or its end. -/
def partTail (cs : List Char) : Option ((ClassState ⊕ (CharSet × Nat)) × List Char) :=
  match cs with
  | [] => none
  | c :: rest =>
    if c = '[' then innerClass f N s rest
    else if c = ']' then some (.inr (s.result f), rest)
    else
      match doubled? c rest with
      | some op => some (.inl (s.operate f op), rest.tail)
      | none => (readClassItem? f cs).map fun p => (.inl (s.add p.1 0), p.2)

def partStep : Reader (ClassState ⊕ (CharSet × Nat)) := andThen (skipping f) fun _ => partTail f N s

end Parts

variable {s : ClassState}

def classParts (k : Nat) (s : ClassState) (cs : List Char) : Option ((CharSet × Nat) × List Char) :=
  (readParts? k f s.negated s.pending s.parts cs).map fun p => ((p.1, p.2.1), p.2.2)

theorem classParts_zero (s : ClassState) (cs : List Char) : classParts f 0 s cs = none := by
  rw [classParts, readParts?]
  rfl

/-- A class as a reader. -/
def bracket (k : Nat) (cs : List Char) : Option ((CharSet × Nat) × List Char) :=
  (readBracket? k f cs).map fun p => ((p.1, p.2.1), p.2.2)

theorem bracket_eq (k : Nat) (cs : List Char) :
    bracket f k cs = andThen (classStart f) (classParts f (k - 1)) cs := by
  cases k with
  | zero =>
    rw [bracket, readBracket?, andThen]
    cases classStart f cs with
    | none => rfl
    | some p => exact (classParts_zero f p.1 p.2).symm
  | succ k =>
    rw [bracket, readBracket_succ, andThen]
    cases classStart f cs <;> rfl

theorem classParts_succ (k : Nat) (s : ClassState) (cs : List Char) : classParts f (k + 1) s cs =
    looping (partStep f (classParts f (k + 1 - 2))) (classParts f k) s cs := by
  have hbracket := bracket_eq f k
  rw [classParts, readParts?, looping, partStep, andThen, andThen_skipping]
  split
  · next h => rw [h]; rfl
  · next rest h =>
      rw [h, partTail, if_pos rfl, innerClass, show k + 1 - 2 = k - 1 from by omega,
        ← hbracket, bracket]
      cases readAsciiClass? f rest with
      | some p => rfl
      | none => cases readBracket? k f rest <;> rfl
  · next rest h => rw [h]; rfl
  · next rest h => rw [h]; rfl
  · next rest h => rw [h]; rfl
  · next rest h => rw [h]; rfl
  · next hnil hopen hclose hand hminus htilde =>
      obtain ⟨c, rest, h⟩ := List.exists_cons_of_ne_nil hnil
      have hdoubled : doubled? c rest = none := by
        cases rest with
        | nil => rfl
        | cons d rest =>
          unfold doubled? operatorOf?
          split_ifs with hhead hc₁ hc₂ hc₃
          · subst hc₁
            exact absurd (Option.some.inj hhead ▸ h) (hand rest)
          · subst hc₂
            exact absurd (Option.some.inj hhead ▸ h) (hminus rest)
          · subst hc₃
            exact absurd (Option.some.inj hhead ▸ h) (htilde rest)
          · rfl
          · rfl
      have hc : c ≠ '[' ∧ c ≠ ']' := ⟨fun hc => hopen rest (hc ▸ h), fun hc => hclose rest (hc ▸ h)⟩
      rw [h, partTail, if_neg hc.1, if_neg hc.2, hdoubled]
      cases readClassItem? f (c :: rest) <;> rfl

/-- A part takes a character. -/
theorem partTail_suffix {N : ClassState → Reader (CharSet × Nat)}
    (hN : ∀ {s cs a r}, N s cs = some (a, r) → r <:+ cs) {rest : List Char}
    {x : ClassState ⊕ (CharSet × Nat)} (h : partTail f N s (c :: rest) = some (x, r)) :
    r <:+ rest := by
  unfold partTail at h
  simp only at h
  split_ifs at h
  · unfold innerClass at h
    split at h
    · next hascii =>
        cases h
        exact (local_readAsciiClass f).suffix hascii
    · obtain ⟨⟨a, r'⟩, hinner, heq⟩ := Option.map_eq_some_iff.1 h
      cases heq
      obtain ⟨s', m, hstart, hparts⟩ := andThen_eq_some.1 hinner
      exact (hN hparts).trans ((local_classStart f).suffix hstart)
  · cases h
    exact List.suffix_rfl
  · split at h
    · cases h
      exact List.tail_suffix rest
    · obtain ⟨⟨a, r'⟩, hitem, heq⟩ := Option.map_eq_some_iff.1 h
      cases heq
      exact readClassItem_suffix f hitem

theorem partStep_suffix {N : ClassState → Reader (CharSet × Nat)}
    (hN : ∀ {s cs a r}, N s cs = some (a, r) → r <:+ cs)
    {x : ClassState ⊕ (CharSet × Nat)} (h : partStep f N s cs = some (x, r)) :
    r <:+ cs ∧ r.length < cs.length := by
  rw [partStep, andThen_skipping] at h
  have hskip := skip_suffix f cs
  cases hm : skip f cs with
  | nil =>
    rw [hm] at h
    cases h
  | cons c rest =>
    rw [hm] at h hskip
    have hrest := partTail_suffix f hN h
    exact ⟨(hrest.trans (List.suffix_cons c rest)).trans hskip,
      Nat.lt_of_lt_of_le (Nat.lt_succ_of_le hrest.length_le) hskip.length_le⟩

theorem nested_partStep : Nested (partStep f) where
  congr {N N' s cs} h := by
    rw [partStep, partStep, andThen_skipping, andThen_skipping]
    have hskip := (skip_suffix f cs).length_le
    cases hm : skip f cs with
    | nil => rfl
    | cons c rest =>
      rw [hm, List.length_cons] at hskip
      have hinner : andThen (classStart f) N rest = andThen (classStart f) N' rest := by
        unfold andThen
        cases hstart : classStart f rest with
        | none => rfl
        | some p =>
          have hle := ((local_classStart f).suffix hstart).length_le
          exact h p.1 p.2 (by omega)
      simp only [partTail, innerClass, hinner]
  suffix hN _ _ _ _ h := (partStep_suffix f hN h).1
  advances hN _ _ _ _ h := (partStep_suffix f hN h).2

/-- The parts of a class, with rounds enough. -/
def allParts (s : ClassState) (cs : List Char) : Option ((CharSet × Nat) × List Char) :=
  classParts f (2 * cs.length + 1) s cs

theorem allParts_eq (s : ClassState) (cs : List Char) :
    allParts f s cs = looping (partStep f (allParts f)) (allParts f) s cs :=
  (nested_partStep f).eq_looping (by decide) (classParts_zero f) (classParts_succ f) (fun _ _ =>
    rfl) s cs

theorem allParts_suffix {a : CharSet × Nat}
    (h : allParts f s cs = some (a, r)) : r <:+ cs :=
  (nested_partStep f).suffix_of_fuel (by decide) (classParts_zero f) (classParts_succ f) h

/-- Parts do not end with a hyphen that hangs. -/
theorem allParts_of_hanging (h : Hanging f r) (s : ClassState) : allParts f s r = none := by
  rw [allParts_eq, looping, andThen_of_none]
  rw [partStep, andThen_skipping]
  obtain rfl | ⟨more, rfl, hskip⟩ := h
  · rw [skip_nil]
    rfl
  · have hhead : doubled? '-' more = none := by
      cases more with
      | nil => rfl
      | cons d rest =>
        unfold doubled?
        split_ifs with hd
        · cases hd
          rw [skip_of_visible f rfl (by decide)] at hskip
          cases hskip
        · rfl
    have hitem : readClassItem? f ('-' :: more) = none := by
      have hsymbol : readSymbol? f ('-' :: more) = some (.literal '-' false, more) := rfl
      rw [readClassItem_eq, classSymbol_bind f fun l cs => itemTail_look f l (skip f cs), hsymbol,
        Option.bind_some, andThen_skipping, hskip]
      rfl
    rw [skip_of_visible f rfl (by decide), partTail]
    simp only [hhead, hitem]
    rfl

/-- A class behind its opening bracket, with rounds enough. -/
def allBracket (cs : List Char) : Option ((CharSet × Nat) × List Char) :=
  bracket f (2 * cs.length + 2) cs

theorem allBracket_eq (cs : List Char) :
    allBracket f cs = andThen (classStart f) (allParts f) cs := by
  rw [allBracket, bracket_eq, andThen, andThen]
  cases hstart : classStart f cs with
  | none => rfl
  | some p =>
    have hle := ((local_classStart f).suffix hstart).length_le
    exact (nested_partStep f).fuel_irrelevant (by decide) (classParts_zero f) (classParts_succ f)
      (by omega) (by omega)

theorem cut_innerClass
    (hshorter : ∀ s' cs', cs'.length ≤ cs.length → Cut (fun _ _ => False) (allParts f s') cs') :
    Cut (fun _ _ => False) (innerClass f (allParts f) s) cs := by
  cases hascii : readAsciiClass? f cs with
  | none =>
    have hinner : Cut (fun _ _ => False) (andThen (classStart f) (allParts f)) cs :=
      ((local_classStart f).cut cs).andThen
        (fun s' r hstart => hshorter s' r ((local_classStart f).suffix hstart).length_le)
        (fun s' => allParts_suffix f) fun _ _ h => h.elim
    refine Cut.congr (hinner.map (fun a => .inl (s.add a.1 a.2)) fun _ _ h => h.elim) ?_ fun t => ?_
    · rw [innerClass, hascii]
    · rw [innerClass, readAsciiClass_none f hascii t]
  | some p =>
    cases (local_readAsciiClass f).cut cs with
    | @clean a r alone before =>
      exact .clean (a := .inl (s.add a 0)) (r := r) (by rw [innerClass, alone])
        fun t => by rw [innerClass, before t]
    | commented alone before =>
      obtain ⟨taken, heq, hnot⟩ := readAsciiClass_taken f (before [] List.not_mem_nil)
      rw [List.append_nil] at heq
      exact absurd (heq ▸ List.mem_append_right cs (List.mem_cons_self ..)) hnot
    | short alone => cases hascii.symm.trans alone

theorem doubled_append (c : Char) (rest t : List Char) :
    doubled? c (rest ++ ')' :: t) = doubled? c rest := by
  cases rest with
  | nil =>
    by_cases hc : c = ')'
    · subst hc
      rfl
    · exact if_neg fun h => hc (Option.some.inj h).symm
  | cons d rest => rfl

theorem cut_partTail
    (hshorter : ∀ s' cs', cs'.length < cs.length → Cut (fun _ _ => False) (allParts f s') cs') :
    Cut (Stuck (allParts f) cs) (partTail f (allParts f) s) cs := by
  cases cs with
  | nil =>
    refine .short rfl fun t x r hread => .inl ?_
    exact partTail_suffix f (fun h => allParts_suffix f h) hread
  | cons c rest =>
    by_cases hopen : c = '['
    · subst hopen
      refine Cut.congr ((cut_innerClass f fun s' cs' hle => ?_).imp fun _ _ _ _ h =>
        h.elim) rfl fun t => rfl
      exact hshorter s' cs' (Nat.lt_succ_of_le hle)
    by_cases hclose : c = ']'
    · subst hclose
      exact .clean rfl fun t => rfl
    have htail : ∀ rest, partTail f (allParts f) s (c :: rest) = (doubled? c rest).elim
        ((readClassItem? f (c :: rest)).map fun p => (.inl (s.add p.1 0), p.2))
        fun op => some (.inl (s.operate f op), rest.tail) := fun rest => by
      rw [partTail]
      simp only [if_neg hopen, if_neg hclose]
      cases doubled? c rest <;> rfl
    cases hdoubled : doubled? c rest with
    | some op =>
      refine .clean (a := .inl (s.operate f op)) (r := rest.tail) (by rw [htail, hdoubled]; rfl)
        fun t => ?_
      rw [List.cons_append, htail, doubled_append, hdoubled]
      cases rest with
      | nil => cases hdoubled
      | cons d rest => rfl
    | none =>
      have hitem := (cut_readClassItem f (c :: rest)).shrink fun {cs t r} hread => by
        cases cs with
        | nil => cases hread
        | cons d cs => exact Nat.lt_succ_of_le (readClassItem_suffix f hread).length_le
      refine Cut.congr (hitem.map (fun t => .inl (s.add t 0)) fun t r h => ?_) ?_ fun t => ?_
      · exact ⟨h.1, s.add t 0, rfl, allParts_of_hanging f h.2 _⟩
      · rw [htail, hdoubled]
        rfl
      · rw [List.cons_append, htail, doubled_append, hdoubled]
        rfl

theorem local_allParts (s : ClassState) : Local (allParts f s) := by
  refine Local.loop_of_cut (allParts_eq f) (fun h =>
    ((nested_partStep f).suffix (allParts_suffix f) h))
    ((nested_partStep f).advances (allParts_suffix f)) (fun s cs hshorter => ?_) s
  refine (cut_skipping f cs).andThen (fun _ r hskip => ?_)
    (fun _ cs' x r h => ?_) fun _ _ h => h.elim
  · have hle := ((local_skipping f).suffix hskip).length_le
    refine (cut_partTail f fun s' cs' hlt => hshorter s' cs' (by omega)).imp fun _ x r' _ h => ?_
    exact ⟨Nat.lt_of_lt_of_le h.1 hle, h.2⟩
  · cases cs' with
    | nil => cases h
    | cons c rest =>
      exact (partTail_suffix f (fun h => allParts_suffix f h) h).trans (List.suffix_cons c rest)

theorem local_allBracket : Local (allBracket f) :=
  ((local_classStart f).andThen fun s => local_allParts f s).congr (allBracket_eq f)

instance lawfulVocabulary_standard : LawfulVocabulary .standard where
  escape_suffix f _ _ _ := readEscape_suffix f
  cut_escape f := cut_readEscape f
  local_bracketed f := local_allBracket f

end TagMachine.Pattern
