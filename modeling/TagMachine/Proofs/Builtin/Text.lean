import TagMachine.Proofs.Builtin.Calls
import TagMachine.Proofs.Text.Pieces

set_option autoImplicit false

/-! # Cutting, joining and filling up by calls

What the functions `split`, `join`, `replace`, `substring`, `slice`, `pad-left` and `pad-right`
return, whatever call their arguments come from: a list that one call has made can be given to the
next. The laws of `Text` then hold between them. Joining undoes cutting, replacing is cutting and
joining, a part of a text is the same part of the list of its characters, and filling up on the left
is filling up on the right in a mirror.
-/

namespace TagMachine.Builtin

/-- Cutting the text `s` at `d` returns the list `xs`. -/
def Splits (s d : String) (xs : List Value) : Prop :=
  ∀ c : Call, c.given.text "value" = s → c.given.text "delimiter" = d → c.ReturnsList 0x08 xs

/-- Joining the list `xs` with `d` returns the text `s`. -/
def Joins (xs : List Value) (d s : String) : Prop :=
  ∀ c : Call, c.given.items "list" = xs → c.given.text "delimiter" = d → c.ReturnsText 0x09 s

/-- Replacing `find` by `new` in the text `s` returns the text `r`. -/
def Replaces (s find new r : String) : Prop :=
  ∀ c : Call, c.given.text "value" = s → c.given.text "find" = find →
    c.given.text "replacement" = new →
    c.ReturnsText 0x07 r

/-- The part of the text `s` from `a` to `b` is returned as `r`. -/
def CutsText (s : String) (a b : Int64) (r : String) : Prop :=
  ∀ c : Call, c.given.text "value" = s → c.given.integer "start" = a → c.given.integer "end" = b →
    c.ReturnsText 0x06 r

/-- The part of the list `xs` from `a` to `b` is returned as `ys`. -/
def CutsList (xs : List Value) (a b : Int64) (ys : List Value) : Prop :=
  ∀ c : Call, c.given.items "list" = xs → c.given.integer "start" = a → c.given.integer "end" = b →
    c.ReturnsList 0x37 ys

/-! ## Results -/

def pieces (d s : String) : List String := (Text.split d.toList s.toList).map String.ofList

theorem splits_pieces (s d : String) : Splits s d ((pieces d s).map .string) := by
  rintro c rfl rfl
  refine Call.returnsList_of_give rfl ?_
  rw [pieces, List.map_map]
  rfl

theorem store_text_string (st : Store) (s : String) : st.text (.string s) = s := by
  simp [Store.text, Store.datum?, Store.datumWithin, Datum.render]

theorem joins_intercalate (parts : List String) (d : String) :
    Joins (parts.map .string) d (d.intercalate parts) := by
  rintro c hparts rfl
  have htexts : (c.given.items "list").map c.given.store.text = parts := by
    rw [hparts, List.map_map]
    exact List.map_id'' (store_text_string _) parts
  refine Call.returnsText_of_give rfl ?_
  exact congrArg (fun texts => giveText ((c.given.text "delimiter").intercalate texts)) htexts

theorem replaces_replace (s find new : String) :
    Replaces s find new (String.ofList (Text.replace find.toList new.toList s.toList)) := by
  rintro c rfl rfl rfl
  exact Call.returnsText_of_give rfl rfl

theorem cutsText_cut (s : String) (a b : Int64) :
    CutsText s a b (String.ofList (Text.cut a.toInt.toNat b.toInt.toNat s.toList)) := by
  rintro c rfl rfl rfl
  refine Call.returnsText_of_give rfl ?_
  rw [← Text.take_drop_eq_cut]
  exact (apply_ite giveChars ..).symm

theorem cutsList_cut (xs : List Value) (a b : Int64) :
    CutsList xs a b (Text.cut a.toInt.toNat b.toInt.toNat xs) := by
  rintro c rfl rfl rfl
  refine Call.returnsList_of_give rfl ?_
  rw [← Text.extract_eq_cut]
  rfl

/-! ## Cutting, joining and replacing -/

theorem intercalate_map_ofList (d : String) (parts : List (List Char)) :
    d.intercalate (parts.map String.ofList) = String.ofList (d.toList.intercalate parts) := by
  rw [← String.toList_inj, String.toList_intercalate, String.toList_ofList, List.map_map]
  exact congrArg _ (List.map_id'' (fun _ => String.toList_ofList) parts)

theorem intercalate_pieces (d s : String) : d.intercalate (pieces d s) = s := by
  rw [pieces, intercalate_map_ofList, Text.intercalate_split, String.ofList_toList]

theorem pieces_intercalate {d : Char} {parts : List String} (hne : parts ≠ [])
    (hparts : ∀ part ∈ parts, d ∉ part.toList) :
    pieces (String.singleton d) ((String.singleton d).intercalate parts) = parts := by
  have hchars : ∀ part ∈ parts.map String.toList, d ∉ part := by simpa using hparts
  rw [pieces, String.toList_intercalate, String.toList_singleton,
    Text.split_intercalate (by simpa using hne) hchars, List.map_map]
  exact List.map_id'' (fun _ => String.ofList_toList) parts

/-- Joining undoes cutting at any delimiter; cutting at a character undoes joining parts without it,
if there are any; and to replace a text is to cut at it and join with the new one. -/
theorem split_join_replace :
    (∀ s d : String, ∃ xs, Splits s d xs ∧ Joins xs d s) ∧
    (∀ (d : Char) (parts : List String), parts ≠ [] → (∀ part ∈ parts, d ∉ part.toList) →
      ∃ s, Joins (parts.map .string) (String.singleton d) s ∧
        Splits s (String.singleton d) (parts.map .string)) ∧
    ∀ s find new : String, find ≠ "" →
      ∃ xs r, Splits s find xs ∧ Joins xs new r ∧ Replaces s find new r := by
  refine ⟨fun s d => ⟨_, splits_pieces s d, ?_⟩, fun d parts hne hparts => ⟨_,
    joins_intercalate parts _, ?_⟩,
    fun s find new hfind => ⟨_, _, splits_pieces s find, joins_intercalate _ new, ?_⟩⟩
  · have hjoin := joins_intercalate (pieces d s) d
    rwa [intercalate_pieces] at hjoin
  · have hsplit := splits_pieces ((String.singleton d).intercalate parts) (String.singleton d)
    rwa [pieces_intercalate hne hparts] at hsplit
  · have hchars : find.toList ≠ [] := by simpa using hfind
    rw [pieces, intercalate_map_ofList, ← Text.replace_eq_intercalate hchars]
    exact replaces_replace s find new

/-- A delimiter that overlaps itself, and characters of several bytes. -/
theorem split_join_replace_overlapping :
    (∃ xs, (Call.passing [] [("value", .string "aaaéaa"),
      ("delimiter", .string "aa")]).ReturnsList 0x08 xs ∧
      (Call.passing xs [("delimiter", .string "aa")]).ReturnsText 0x09 "aaaéaa") ∧
    (∃ s, (Call.passing [.string "", .string "a", .string ""]
      [("delimiter", .string "é")]).ReturnsText 0x09 s ∧
      (Call.passing [] [("value", .string s), ("delimiter", .string "é")]).ReturnsList 0x08
        [.string "", .string "a", .string ""]) ∧
    ∃ xs r, (Call.passing [] [("value", .string "aaaéaa"),
      ("delimiter", .string "aa")]).ReturnsList 0x08 xs ∧
      (Call.passing xs [("delimiter", .string "ñ")]).ReturnsText 0x09 r ∧
      (Call.passing [] [("value", .string "aaaéaa"), ("find", .string "aa"),
        ("replacement", .string "ñ")]).ReturnsText 0x07 r := by
  obtain ⟨hundo, hback, hreplace⟩ := split_join_replace
  refine ⟨?_, ?_, ?_⟩
  · obtain ⟨xs, hsplit, hjoin⟩ := hundo "aaaéaa" "aa"
    exact ⟨xs, hsplit _ rfl rfl, hjoin _ rfl rfl⟩
  · obtain ⟨s, hjoin, hsplit⟩ := hback 'é' ["", "a", ""] (by decide) (by decide)
    exact ⟨s, hjoin _ rfl rfl, hsplit _ rfl rfl⟩
  · obtain ⟨xs, r, hsplit, hjoin, hr⟩ := hreplace "aaaéaa" "aa" "ñ" (by decide)
    exact ⟨xs, r, hsplit _ rfl rfl, hjoin _ rfl rfl, hr _ rfl rfl rfl⟩

/-! ## Parts of texts and lists -/

theorem pieces_empty (s : String) : pieces "" s = s.toList.map fun c => String.ofList [c] := by
  simp [pieces, Text.split]

/-- Characters joined with nothing between them. -/
theorem intercalate_characters (cs : List Char) :
    "".intercalate (cs.map fun c => String.ofList [c]) = String.ofList cs := by
  have hmap : (cs.map fun c => String.ofList [c]) = (cs.map fun c => [c]).map String.ofList := by
    simp
  rw [hmap, intercalate_map_ofList, String.toList_empty, Text.intercalate_nil_left]
  exact congrArg _ ((List.flatMap_def ..).symm.trans (List.flatMap_singleton' cs))

/-- The bounds may be any integers: a part has the characters or elements at the positions from the
first bound on and before the second, those there are. It is the same part for a text and for the
list of its characters, and the parts up to any position and from it to the end make up the
whole. -/
theorem substring_slice_positions :
    (∀ (s : String) (a b : Int64), ∃ xs ys r, Splits s "" xs ∧ CutsList xs a b ys ∧ Joins ys "" r ∧
      CutsText s a b r ∧ r.toList =
        Text.between (max a.toInt 0) (min b.toInt s.length) s.toList) ∧
    (∀ (xs : List Value) (a b : Int64),
      CutsList xs a b (Text.between (max a.toInt 0) (min b.toInt xs.length) xs)) ∧
    (∀ (s : String) (k n : Int64), s.length ≤ n.toInt →
      ∃ before after, CutsText s 0 k before ∧ CutsText s k n after ∧ before ++ after = s) ∧
    ∀ (xs : List Value) (k n : Int64), xs.length ≤ n.toInt →
      ∃ before after, CutsList xs 0 k before ∧ CutsList xs k n after ∧ before ++ after = xs := by
  refine ⟨fun s a b => ?_, fun xs a b => ?_, fun s k n hn => ?_, fun xs k n hn => ?_⟩
  · refine ⟨_, _, _, splits_pieces s "", cutsList_cut _ a b, ?_, cutsText_cut s a b, ?_⟩
    · rw [pieces_empty, Text.cut_map, Text.cut_map, ← intercalate_characters]
      exact joins_intercalate _ ""
    · rw [String.toList_ofList, Text.cut_eq_between, String.length_toList]
  · rw [← Text.cut_eq_between]
    exact cutsList_cut xs a b
  · refine ⟨_, _, cutsText_cut s 0 k, cutsText_cut s k n, ?_⟩
    have hlength : s.toList.length ≤ n.toInt.toNat := by rw [String.length_toList]; omega
    rw [← String.ofList_append]
    exact (congrArg _ (Text.cut_append_cut s.toList k.toInt.toNat hlength)).trans
      String.ofList_toList
  · exact ⟨_, _, cutsList_cut xs 0 k, cutsList_cut xs k n,
      Text.cut_append_cut xs k.toInt.toNat (by omega)⟩

/-- Bounds out of range and a place between two characters of several bytes. -/
theorem substring_slice_extreme :
    (∃ xs ys r,
      (Call.passing [] [("value", .string "né€x"), ("delimiter", .string "")]).ReturnsList 0x08 xs ∧
      (Call.passing xs [("start", .integer Int64.minValue),
        ("end", .integer 2)]).ReturnsList 0x37 ys ∧
      (Call.passing ys [("delimiter", .string "")]).ReturnsText 0x09 r ∧
      (Call.passing [] [("value", .string "né€x"), ("start", .integer Int64.minValue),
        ("end", .integer 2)]).ReturnsText 0x06 r ∧ r = "né") ∧
    (Call.passing [.nothing, .integer 7] [("start", .integer 1),
      ("end", .integer Int64.maxValue)]).ReturnsList 0x37 [.integer 7] ∧
    (∃ before after,
      (Call.passing [] [("value", .string "né€x"), ("end", .integer 2)]).ReturnsText 0x06 before ∧
      (Call.passing [] [("value", .string "né€x"), ("start", .integer 2),
        ("end", .integer 4)]).ReturnsText 0x06 after ∧ before ++ after = "né€x") ∧
    ∃ before after,
      (Call.passing [.nothing, .integer 7] [("end", .integer 1)]).ReturnsList 0x37 before ∧
      (Call.passing [.nothing, .integer 7] [("start", .integer 1), ("end", .integer 2)]).ReturnsList
        0x37 after ∧ before ++ after = [.nothing, .integer 7] := by
  obtain ⟨hsame, hlist, htexts, hlists⟩ := substring_slice_positions
  refine ⟨?_, hlist [.nothing, .integer 7] 1 Int64.maxValue _ rfl rfl rfl, ?_, ?_⟩
  · obtain ⟨xs, ys, r, hsplit, hslice, hjoin, hcut, hr⟩ := hsame "né€x" Int64.minValue 2
    exact ⟨xs, ys, r, hsplit _ rfl rfl, hslice _ rfl rfl rfl, hjoin _ rfl rfl, hcut _ rfl rfl rfl,
      String.toList_inj.1 (hr.trans (by decide))⟩
  · obtain ⟨before, after, hbefore, hafter, hwhole⟩ := htexts "né€x" 2 4 (by decide)
    exact ⟨before, after, hbefore _ rfl rfl rfl, hafter _ rfl rfl rfl, hwhole⟩
  · obtain ⟨before, after, hbefore, hafter, hwhole⟩ := hlists [.nothing, .integer 7] 1 2 (by decide)
    exact ⟨before, after, hbefore _ rfl rfl rfl, hafter _ rfl rfl rfl, hwhole⟩

/-! ## Filling up -/

/-- The characters in reverse order. -/
def reversed (s : String) : String := String.ofList s.toList.reverse

/-- What texts are filled up with: the empty text stands for a space. -/
def filler (f : String) : String := if f = "" then " " else f

/-- Filling up `s` with `f` on the left to the width `w` returns the text `r`. -/
def PadsLeft (s : String) (w : Int64) (f r : String) : Prop :=
  ∀ c : Call, c.given.text "value" = s → c.given.integer "width" = w → c.given.text "fill" = f →
    c.ReturnsText 0x0e r

/-- Filling up `s` with `f` on the right to the width `w` returns the text `r`. -/
def PadsRight (s : String) (w : Int64) (f r : String) : Prop :=
  ∀ c : Call, c.given.text "value" = s → c.given.integer "width" = w → c.given.text "fill" = f →
    c.ReturnsText 0x0f r

theorem fill_eq_filler (args : Arguments) : fill args = (filler (args.text "fill")).toList := by
  rw [fill, filler, Arguments.chars]
  by_cases hempty : args.text "fill" = ""
  · rw [hempty]
    rfl
  · have hchars : (args.text "fill").toList.isEmpty = false := by simpa using hempty
    rw [hchars, if_neg hempty]
    rfl

theorem filler_ne_nil (f : String) : (filler f).toList ≠ [] := by
  rw [filler]
  split
  · decide
  · simpa

theorem filler_reversed (f : String) :
    (filler (reversed f)).toList = (filler f).toList.reverse := by
  rw [filler, filler, reversed]
  by_cases hempty : f = ""
  · subst hempty
    rfl
  · have hchars : String.ofList f.toList.reverse ≠ "" := by simpa using hempty
    rw [if_neg hchars, if_neg hempty, String.toList_ofList]

theorem give_pad (left : Bool) (args : Arguments) : pad left args =
    giveText (String.ofList (Text.pad left (args.integer "width").toInt.toNat
      (filler (args.text "fill")).toList (args.text "value").toList)) := by
  rw [pad, Text.getD_toNat?, fill_eq_filler]
  rfl

theorem padsLeft_pad (s : String) (w : Int64) (f : String) :
    PadsLeft s w f (String.ofList (Text.pad true w.toInt.toNat (filler f).toList s.toList)) := by
  rintro c rfl rfl rfl
  exact Call.returnsText_of_give rfl (give_pad true c.given)

theorem padsRight_pad (s : String) (w : Int64) (f : String) :
    PadsRight s w f (String.ofList (Text.pad false w.toInt.toNat (filler f).toList s.toList)) := by
  rintro c rfl rfl rfl
  exact Call.returnsText_of_give rfl (give_pad false c.given)

/-- A text that is as wide already stays as it is. Every other text is filled up to the width
exactly, and what is put before it or after it is the end or the beginning of the repeated text,
however often this is repeated, if that is long enough. Filling up on the left is filling up the
mirror image on the right. -/
theorem padding_exact (s : String) (w : Int64) (f : String) :
    ∃ l r, PadsLeft s w f l ∧ PadsRight s w f r ∧
      (w.toInt ≤ s.length → l = s ∧ r = s) ∧
      (s.length < w.toInt → l.length = w.toInt ∧ r.length = w.toInt ∧
        ∃ before after, l = before ++ s ∧ r = s ++ after ∧
          ∀ k : Nat, w.toInt - s.length ≤ k * (filler f).length →
            before.toList <:+ Text.copies k (filler f).toList ∧
            after.toList <+: Text.copies k (filler f).toList) ∧
      ∃ m, PadsRight (reversed s) w (reversed f) m ∧ l = reversed m := by
  have hlength : s.toList.length = s.length := String.length_toList
  refine ⟨_, _, padsLeft_pad s w f, padsRight_pad s w f, fun hwide => ?_, fun hshort => ?_,
    _, padsRight_pad (reversed s) w (reversed f), ?_⟩
  · have hle : w.toInt.toNat ≤ s.toList.length := by omega
    rw [Text.pad_of_le true hle, Text.pad_of_le false hle, String.ofList_toList]
    exact ⟨rfl, rfl⟩
  · have hlt : s.toList.length < w.toInt.toNat := by omega
    have hneeded (left : Bool) :=
      Text.length_padding (w.toInt.toNat - s.toList.length) left (filler_ne_nil f)
    rw [Text.pad_left_of_lt hlt, Text.pad_right_of_lt hlt, String.ofList_append,
      String.ofList_append, String.ofList_toList]
    refine ⟨?_, ?_, _, _, rfl, rfl, fun k hk => ?_⟩
    · rw [String.length_append, String.length_ofList, hneeded]
      omega
    · rw [String.length_append, String.length_ofList, hneeded]
      omega
    · have henough : w.toInt.toNat - s.toList.length ≤ k * (filler f).toList.length := by
        rw [String.length_toList (s := filler f)]
        omega
      rw [String.toList_ofList, String.toList_ofList]
      exact ⟨Text.padding_suffix henough, Text.padding_prefix henough⟩
  · rw [filler_reversed, reversed, reversed, String.toList_ofList, String.toList_ofList,
      ← Text.reverse_pad, List.reverse_reverse]

/-- A width below zero, the fill that stands for a space, and one of two characters that is cut. -/
theorem padding_exact_cut :
    (Call.passing [] [("value", .string "né"),
      ("width", .integer Int64.minValue)]).ReturnsText 0x0e "né" ∧
    (Call.passing [] [("value", .string "né"), ("width", .integer 3)]).ReturnsText 0x0f "né " ∧
    (Call.passing [] [("value", .string "né"), ("width", .integer 5),
      ("fill", .string "ab")]).ReturnsText 0x0e "babné" ∧
    ∃ m, (Call.passing [] [("value", .string "én"), ("width", .integer 5),
      ("fill", .string "ba")]).ReturnsText
      0x0f m ∧ "babné" = reversed m := by
  have htwo : "né".length = 2 := by decide
  refine ⟨?_, ?_, ?_⟩
  · obtain ⟨l, _, hleft, -, hwide, -⟩ := padding_exact "né" Int64.minValue ""
    obtain ⟨rfl, -⟩ := hwide (by decide)
    exact hleft _ rfl rfl rfl
  · obtain ⟨_, r, -, hright, -, hshort, -⟩ := padding_exact "né" 3 ""
    obtain ⟨-, hlength, _, after, -, rfl, hcopies⟩ := hshort (by decide)
    have hone : after.toList.length = 1 := by
      rw [String.length_append, htwo, show (3 : Int64).toInt = 3 from rfl] at hlength
      rw [String.length_toList]
      omega
    obtain rfl : after = " " := by
      rw [← String.toList_inj, List.prefix_iff_eq_take.1 (hcopies 1 (by decide)).2, hone]
      rfl
    exact hright _ rfl rfl rfl
  · obtain ⟨l, _, hleft, -, -, hshort, m, hmirror, hlm⟩ := padding_exact "né" 5 "ab"
    obtain ⟨hlength, -, before, _, rfl, -, hcopies⟩ := hshort (by decide)
    have hthree : before.toList.length = 3 := by
      rw [String.length_append, htwo, show (5 : Int64).toInt = 5 from rfl] at hlength
      rw [String.length_toList]
      omega
    obtain rfl : before = "bab" := by
      rw [← String.toList_inj, List.suffix_iff_eq_drop.1 (hcopies 2 (by decide)).1, hthree]
      rfl
    exact ⟨hleft _ rfl rfl rfl, m, hmirror _ rfl rfl rfl, hlm⟩

end TagMachine.Builtin
