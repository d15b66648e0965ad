import TagMachine.Proofs.Builtin.Number
import TagMachine.Proofs.Pattern.Groups
import TagMachine.Proofs.Pattern.Search

set_option autoImplicit false

/-! # Matching a whole text

The pattern that matches a whole text is put together from texts, so what it means depends on where
the reader finds the end of the given pattern in it. This holds for every engine that reads symbols
from the front and finds matches where there are some (`Engine.Lawful`).
-/

namespace TagMachine.Pattern

/-! ## The pattern put together -/

/-- The flags under which a dot stands for any character. -/
def dotAll : Flags := { dotNewline := true }

/-- The place behind the group that the pattern for a whole text begins with. -/
def behind (a : Item × List String) : Place where
  items := [groupItem .none a.1, ⟨.look .textStart true, 0, true⟩, ⟨.empty, 0, false⟩]
  flags := dotAll
  names := a.2

/-- The tree that matches a whole text where another matches it. -/
def anchored (n : Node) : Node := .seq [.empty, .look .textStart true, n, .look .textEnd true]

/-- Between the ends of a text lies the whole of it. -/
theorem matches_anchored {n : Node} (text : List Char) :
    (∃ i ≤ text.length, ∃ j, (anchored n).Matches text i j) ↔ n.Matches text 0 text.length := by
  constructor
  · rintro ⟨i, hi, j, i', hempty, m, ⟨hstart, hm⟩, k, hmatch, k', ⟨hend, -⟩, -⟩
    obtain rfl : i = i' := hempty
    obtain rfl : i = 0 := by
      by_contra hne
      have hbefore : (charBefore text i).isNone = true := hstart
      rw [charBefore, if_neg hne, Option.isNone_iff_eq_none, List.getElem?_eq_none_iff] at hbefore
      omega
    have hk : text.length ≤ k := List.getElem?_eq_none_iff.1 (Option.isNone_iff_eq_none.1 hend)
    rw [hm] at hmatch
    rwa [Nat.le_antisymm (hmatch.le (Nat.zero_le _)) hk] at hmatch
  · intro hmatch
    refine ⟨0, Nat.zero_le _, text.length, 0, rfl, 0, ⟨rfl, rfl⟩, _, hmatch, _, ⟨?_, rfl⟩, rfl⟩
    exact Option.isNone_iff_eq_none.2 (List.getElem?_eq_none_iff.2 le_rfl)

section Reading

variable [v : Vocabulary] {q : Item × State} {pattern : String}

/-- A pattern read on its own, where a dot stands for any character. -/
def alone? (pattern : String) : Option (Item × State) :=
  readBranches? (pattern.toList.length + 1) false [] [] ⟨pattern.toList, dotAll, []⟩

/-- What is read behind a group of the first part of a pattern that was closed by the pattern
itself. -/
def readOn? (front : Item × State) (rest : String) : Option (Item × State) :=
  readBranches? (rest.toList.length + 1) false [] (behind (front.1, front.2.names)).items
    ⟨rest.toList, dotAll, front.2.names⟩

theorem allTop_eq_alone (pattern : String) :
    allTop { flags := dotAll } pattern.toList = (alone? pattern).map fun q =>
      (q.1, q.2.names) := rfl

theorem allTop_append_paren (pattern : String) :
    allTop { flags := dotAll } (pattern.toList ++ [')']) =
      (alone? (pattern ++ ")")).map fun q => (q.1, q.2.names) := by
  rw [← allTop_eq_alone, String.toList_append]
  rfl

theorem tree_eq (pattern : String) :
    tree? pattern = (allTop { flags := {} } pattern.toList).map Prod.fst := by
  rw [tree?, allTop, Option.map_map]
  rfl

variable [LawfulVocabulary v]

/-- The group goes as far as the reader finds its end. -/
theorem allTop_wholePattern (pattern : String) :
    allTop { flags := {} } (Builtin.wholePattern pattern).toList =
      (allGroups { flags := dotAll } (pattern.toList ++ [')', '$'])).bind fun q =>
        allTop (behind q.1) q.2 := by
  have hcs : (Builtin.wholePattern pattern).toList =
      '(' :: '?' :: 's' :: ')' :: '^' :: '(' :: '?' :: ':' :: (pattern.toList ++ [')', '$']) := by
    simp [Builtin.wholePattern, String.toList_append]
  have hflags : ∀ rest, token allGroups { flags := {} } ('(' :: '?' :: 's' :: ')' :: rest) =
      some ({ items := [⟨.empty, 0, false⟩], flags := dotAll }, rest) := fun rest => rfl
  have hstart : ∀ rest,
      token allGroups { items := [⟨.empty, 0, false⟩], flags := dotAll } ('^' :: rest) =
      some ({ items := [⟨.look .textStart true, 0, true⟩, ⟨.empty, 0, false⟩], flags := dotAll },
        rest) :=
    fun rest => rfl
  have hgroup : ∀ rest, token allGroups
      { items := [⟨.look .textStart true, 0, true⟩, ⟨.empty, 0, false⟩], flags := dotAll }
        ('(' :: '?' :: ':' :: rest) =
      (allGroups { flags := dotAll } rest).bind fun q => some (behind q.1, q.2) := fun rest => rfl
  rw [hcs, allTop_token rfl (by decide), hflags, Option.bind_some,
    allTop_token rfl (by decide), hstart, Option.bind_some, allTop_token rfl (by decide), hgroup]
  cases allGroups { flags := dotAll } (pattern.toList ++ [')', '$']) <;> rfl

theorem allTop_behind (a : Item × List String) :
    allTop (behind a) ['$'] = some (⟨anchored a.1.node, a.1.height + 2, true⟩, a.2) := by
  have hend : token allGroups (behind a) ['$'] =
      some ((behind a).push ⟨.look .textEnd true, 0, true⟩, []) := rfl
  rw [allTop_token rfl (by decide), hend, Option.bind_some, allTop_nil (skip_nil _)]
  simp [Place.result, Place.close, Place.push, behind, groupItem, joinBranches, joinItems, anchored]

/-! ## Where the given pattern ends -/

/-- A group that the given pattern closes holds its first part, and the rest is read behind it. -/
theorem allGroups_front {front : String} (h : alone? front = some q)
    (hparen : alone? (front ++ ")") = none) (t : List Char) :
    allGroups { flags := dotAll } (front.toList ++ ')' :: t) = some ((q.1, q.2.names), t) := by
  refine allGroups_of_allTop ?_ ?_ t
  · rw [allTop_eq_alone, h, Option.map_some]
  · rw [allTop_append_paren, hparen, Option.map_none]

/-- The pattern for a whole text, where the given pattern ends before the parenthesis behind it. -/
theorem tree_wholePattern (h : alone? pattern = some q)
    (hparen : alone? (pattern ++ ")") = none) :
    tree? (Builtin.wholePattern pattern) = some ⟨anchored q.1.node, q.1.height + 2, true⟩ := by
  rw [tree_eq, allTop_wholePattern, allGroups_front h hparen, Option.bind_some, allTop_behind]
  rfl

/-- A comment at the end of the given pattern takes up what is behind it. -/
theorem tree_wholePattern_commented (h : alone? pattern = some q)
    (hparen : (alone? (pattern ++ ")")).isSome) : tree? (Builtin.wholePattern pattern) = none := by
  have halone : allTop { flags := dotAll } pattern.toList = some (q.1, q.2.names) := by
    rw [allTop_eq_alone, h, Option.map_some]
  rw [tree_eq, allTop_wholePattern]
  cases ending { flags := dotAll } pattern.toList with
  | clean _ _ stray =>
    have hnone := stray []
    rw [allTop_append_paren, Option.map_eq_none_iff] at hnone
    rw [hnone] at hparen
    cases hparen
  | commented _ unclosed =>
    rw [unclosed ['$'] (by decide)]
    rfl
  | short hnone => cases hnone.symm.trans halone
  | stray hnone => cases hnone.symm.trans halone

/-- A pattern that is not well formed is so inside the parentheses too, unless it closes them
itself. -/
theorem tree_wholePattern_none (h : alone? pattern = none)
    (hstray : ∀ front back q, pattern = front ++ ")" ++ back → alone? front = some q →
      alone? (front ++ ")") = none → readOn? q (back ++ ")$") = none) :
    tree? (Builtin.wholePattern pattern) = none := by
  have halone : allTop { flags := dotAll } pattern.toList = none := by
    rw [allTop_eq_alone, h, Option.map_none]
  rw [tree_eq, allTop_wholePattern]
  cases ending { flags := dotAll } pattern.toList with
  | clean hsome => cases halone.symm.trans hsome
  | commented hsome => cases halone.symm.trans hsome
  | short _ unclosed =>
    rw [unclosed ['$'] (by decide) (by decide)]
    rfl
  | @stray front back _ split ended stray =>
    obtain ⟨front, rfl⟩ : ∃ s : String, s.toList = front := ⟨_, String.toList_ofList⟩
    obtain ⟨back, rfl⟩ : ∃ s : String, s.toList = back := ⟨_, String.toList_ofList⟩
    rw [allTop_append_paren, Option.map_eq_none_iff] at stray
    rw [allTop_eq_alone, Option.isSome_map, Option.isSome_iff_exists] at ended
    obtain ⟨q, hq⟩ := ended
    have hpattern : pattern = front ++ ")" ++ back := String.toList_inj.1 (by simp [split])
    have hrest := hstray front back q hpattern hq stray
    have hread : allTop (behind (q.1, q.2.names)) (back.toList ++ [')', '$']) = none := by
      have hcs : (back ++ ")$").toList = back.toList ++ [')', '$'] := by simp
      rw [← hcs, allTop]
      exact congrArg (Option.map _) hrest
    rw [split, List.append_assoc, List.cons_append, allGroups_front hq stray,
      Option.bind_some, hread]
    rfl

end Reading

/-! ## Engines -/

namespace Engine

/-- Symbols are read from the front, and a match is found where there is one. -/
structure Lawful (e : Engine) : Prop where
  vocabulary : LawfulVocabulary e.vocabulary
  isMatch_iff : ∀ (n : Node) (text : String),
    e.isMatch n text = true ↔ ∃ i ≤ text.toList.length, ∃ j, n.Matches text.toList i j

theorem lawful_standard : standard.Lawful where
  vocabulary := lawfulVocabulary_standard
  isMatch_iff := Pattern.isMatch_iff

variable (e : Engine)

/-- A pattern as the engine reads it on its own, where a dot stands for any character. -/
def alone? (pattern : String) : Option (Item × State) := @Pattern.alone? e.vocabulary pattern

/-- What the engine reads behind a group that the given pattern has closed itself. -/
def readOn? (front : Item × State) (rest : String) : Option (Item × State) :=
  @Pattern.readOn? e.vocabulary front rest

variable {e} {pattern : String} {q : Item × State} (he : e.Lawful)
include he

theorem compile?_whole (h : e.alone? pattern = some q) (hparen : e.alone? (pattern ++ ")") = none) :
    e.compile? (Builtin.wholePattern pattern) =
      if e.admits (Builtin.wholePattern pattern) then some (anchored q.1.node) else none := by
  let := e.vocabulary
  have := he.vocabulary
  rw [compile?, tree_wholePattern h hparen, Option.bind_some]

theorem compile?_commented (h : e.alone? pattern = some q)
    (hparen : (e.alone? (pattern ++ ")")).isSome) :
    e.compile? (Builtin.wholePattern pattern) = none := by
  let := e.vocabulary
  have := he.vocabulary
  rw [compile?, tree_wholePattern_commented h hparen, Option.bind_none]

theorem compile?_none (h : e.alone? pattern = none)
    (hstray : ∀ front back q, pattern = front ++ ")" ++ back → e.alone? front = some q →
      e.alone? (front ++ ")") = none → e.readOn? q (back ++ ")$") = none) :
    e.compile? (Builtin.wholePattern pattern) = none := by
  let := e.vocabulary
  have := he.vocabulary
  rw [compile?, tree_wholePattern_none h hstray, Option.bind_none]

end Engine

end TagMachine.Pattern

namespace TagMachine.Builtin

open Pattern
open Procedure (argumentsIn)

section Call

variable {e : Engine} {given : Arguments} {s : Store} {pattern : String}

/-- What a call of the function gives. -/
def matchCall (e : Engine) (given : Arguments) (s : Store) : Except Error (Value × Store) :=
  (regexMatch e given).map s.build

/-- The function of the standard table is that of the standard engine. -/
theorem standard_call (context : CallContext) (args : RecordRef) (s : Store) :
    FunctionTable.standard.call 0x10 context args s =
      matchCall .standard (argumentsIn context args s) s := by
  have hentry : find? 0x10 = some ⟨0x10, "regex-match", regexMatch .standard⟩ := rfl
  exact call_eq_map hentry

theorem matchCall_of_compile (hpattern : given.text "pattern" = pattern) {n : Node}
    (h : e.compile? (wholePattern pattern) = some n) :
    matchCall e given s = .ok (.boolean (e.isMatch n (given.text "value")), s) := by
  simp only [matchCall, regexMatch, hpattern, h]
  rfl

theorem matchCall_of_none (hpattern : given.text "pattern" = pattern)
    (h : e.compile? (wholePattern pattern) = none) :
    matchCall e given s = .error (.domain (.invalidPattern pattern)) := by
  simp only [matchCall, regexMatch, hpattern, h]
  rfl

end Call

/-- Arguments of the function in a store of their own. -/
def matchArguments (pattern value : String) : Store :=
  withArguments [("pattern", .string pattern), ("value", .string value)]

end TagMachine.Builtin
