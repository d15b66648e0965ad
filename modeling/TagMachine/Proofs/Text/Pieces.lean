import Mathlib.Tactic
import TagMachine.Text.Pieces

set_option autoImplicit false

/-! # Cutting, joining, replacing and filling up

Cutting a text at a delimiter and replacing the delimiter find the same places, so replacing is
cutting and joining with the new text (`replace_eq_intercalate`), and cutting and joining with the
delimiter itself changes nothing (`intercalate_split`). The other way round the pieces come back if
the delimiter is one character and in none of them (`split_intercalate`): a longer one may also be
found across a seam.

What lies between two positions of a list is told by the positions of its elements (`between`).

Filling up on the left cuts the repeated text at its front, on the right at its end. Each is the
mirror image of the other (`reverse_pad`), so what is known of one side holds of the other.
-/

namespace TagMachine.Text

variable {d new : List Char}

/-! ## Places of a delimiter -/

theorem piecesFrom_ne_nil (d : List Char) (skip : Nat) (piece text : List Char) :
    piecesFrom d skip piece text ≠ [] := by
  fun_induction piecesFrom d skip piece text with
  | case1 => exact List.cons_ne_nil _ _
  | case2 _ _ _ _ ih => exact ih
  | case3 => exact List.cons_ne_nil _ _
  | case4 _ _ _ _ ih => exact ih

/-- The pieces are those between the places where another text would be put. -/
theorem intercalate_piecesFrom (d new : List Char) (skip : Nat) (piece text : List Char) :
    new.intercalate (piecesFrom d skip piece text) =
      piece.reverse ++ replaceFrom d new skip text := by
  fun_induction piecesFrom d skip piece text with
  | case1 skip piece => simp [replaceFrom]
  | case2 skip piece c rest ih => rw [ih, replaceFrom]
  | case3 piece c rest hplace ih =>
    rw [List.intercalate_cons_of_ne_nil (piecesFrom_ne_nil d _ [] rest), ih, replaceFrom,
      if_pos hplace]
    simp
  | case4 piece c rest hplace ih =>
    rw [ih, replaceFrom, if_neg hplace]
    simp

/-- A place is as long as the delimiter, so putting it there again leaves the text as it is. -/
theorem replaceFrom_self (hd : d ≠ []) (skip : Nat) (text : List Char) :
    replaceFrom d d skip text = text.drop skip := by
  fun_induction replaceFrom d d skip text with
  | case1 => simp
  | case2 skip c rest ih => rw [ih, List.drop_succ_cons]
  | case3 c rest hplace ih =>
    obtain ⟨more, hmore⟩ := List.isPrefixOf_iff_prefix.1 hplace
    obtain ⟨b, d, rfl⟩ := List.exists_cons_of_ne_nil hd
    obtain ⟨rfl, rfl⟩ := List.cons.inj hmore
    rw [ih]
    simp
  | case4 c rest _ ih => rw [ih]; rfl

theorem replace_eq_intercalate (hd : d ≠ []) (new text : List Char) :
    replace d new text = new.intercalate (split d text) := by
  have hempty : d.isEmpty = false := List.isEmpty_eq_false_iff.2 hd
  rw [replace, split, hempty]
  exact (intercalate_piecesFrom d new 0 [] text).symm

/-- Joining without a delimiter. -/
theorem intercalate_nil_left {α : Type} (parts : List (List α)) :
    [].intercalate parts = parts.flatten := by
  induction parts with
  | nil => rfl
  | cons part parts ih =>
    cases parts with
    | nil => simp
    | cons next parts => rw [List.intercalate_cons_cons, ih, List.append_nil]; rfl

theorem intercalate_split (d text : List Char) : d.intercalate (split d text) = text := by
  by_cases hd : d = []
  · subst hd
    rw [intercalate_nil_left]
    exact (List.flatMap_def ..).symm.trans (List.flatMap_singleton' text)
  · rw [← replace_eq_intercalate hd, replace, List.isEmpty_eq_false_iff.2 hd]
    exact replaceFrom_self hd 0 text

theorem isPrefixOf_singleton (c b : Char) (text : List Char) :
    [c].isPrefixOf (b :: text) = (b == c) := by
  rw [List.isPrefixOf_cons_cons, List.isPrefixOf_nil_left, Bool.and_true, Bool.beq_comm]

theorem split_singleton (c : Char) (text : List Char) : split [c] text = text.splitOn c := by
  have hgo : ∀ piece, piecesFrom [c] 0 piece text = text.splitOnPPrepend (· == c) piece := by
    induction text with
    | nil => exact fun piece => rfl
    | cons b text ih =>
      intro piece
      rw [piecesFrom, isPrefixOf_singleton, List.splitOnPPrepend_cons_eq_if, ih,
        List.length_singleton, Nat.sub_self, ih]
      rfl
  exact hgo []

theorem split_intercalate {c : Char} {parts : List (List Char)} (hne : parts ≠ [])
    (hparts : ∀ part ∈ parts, c ∉ part) : split [c] ([c].intercalate parts) = parts := by
  rw [split_singleton]
  exact List.splitOn_intercalate c hparts hne

theorem replace_singleton (c : Char) (new text : List Char) :
    replace [c] new text = text.flatMap fun b => if b = c then new else [b] := by
  show replaceFrom [c] new 0 text = _
  induction text with
  | nil => rfl
  | cons b text ih =>
    rw [replaceFrom, isPrefixOf_singleton, List.length_singleton, Nat.sub_self, ih,
      List.flatMap_cons]
    by_cases h : b = c
    · rw [if_pos h, if_pos (beq_iff_eq.2 h)]
    · rw [if_neg h, if_neg (mt beq_iff_eq.1 h), List.singleton_append]

/-! ## Positions -/

section Positions

variable {α : Type}

/-- A list without its first `start` elements and without those from `stop` on. -/
def cut (start stop : Nat) (xs : List α) : List α := (xs.take stop).drop start

/-- The elements of a list at the positions from one on and before another. -/
def between (low high : Int) (xs : List α) : List α :=
  (xs.zipIdx.filter fun p => low ≤ p.2 ∧ p.2 < high).map Prod.fst

/-- The positions may be counted from any number on. -/
theorem cut_eq_filter (start stop first : Nat) (xs : List α) :
    cut (start - first) (stop - first) xs =
      ((xs.zipIdx first).filter fun p => start ≤ p.2 ∧ p.2 < stop).map Prod.fst := by
  induction xs generalizing first with
  | nil => simp [cut]
  | cons x xs ih =>
    have hrest := ih (first + 1)
    rw [List.zipIdx_cons, List.filter_cons]
    by_cases hstop : stop ≤ first
    · -- no position is left
      rw [Nat.sub_eq_zero_of_le (by omega : stop ≤ first + 1)] at hrest
      rw [Nat.sub_eq_zero_of_le hstop, if_neg (by simp; omega), ← hrest]
      simp [cut]
    · obtain ⟨count, hcount⟩ : ∃ count, stop - first = count + 1 := ⟨stop - first - 1, by omega⟩
      rw [show stop - (first + 1) = count by omega] at hrest
      by_cases hstart : start ≤ first
      · rw [Nat.sub_eq_zero_of_le (by omega : start ≤ first + 1)] at hrest
        rw [Nat.sub_eq_zero_of_le hstart, hcount, if_pos (by simp; omega), List.map_cons, ← hrest]
        rfl
      · obtain ⟨skip, hskip⟩ : ∃ skip, start - first = skip + 1 := ⟨start - first - 1, by omega⟩
        rw [show start - (first + 1) = skip by omega] at hrest
        rw [hskip, hcount, if_neg (by simp; omega), ← hrest]
        rfl

theorem cut_eq_between (start stop : Int) (xs : List α) :
    cut start.toNat stop.toNat xs = between (max start 0) (min stop xs.length) xs := by
  have hfilter := cut_eq_filter start.toNat stop.toNat 0 xs
  rw [Nat.sub_zero, Nat.sub_zero] at hfilter
  rw [hfilter, between]
  refine congrArg _ (List.filter_congr fun p hp => decide_eq_decide.2 ?_)
  have hinside := (List.mem_zipIdx hp).2.1
  omega

theorem cut_min_length (start stop : Nat) (xs : List α) :
    cut start (min stop xs.length) xs = cut start stop xs := by
  have htake : xs.take (min stop xs.length) = xs.take stop := List.take_eq_take_iff.2 (by omega)
  rw [cut, cut, htake]

theorem cut_of_le {start stop : Nat} (h : stop ≤ start) (xs : List α) : cut start stop xs = [] :=
  List.drop_eq_nil_of_le ((List.length_take_le ..).trans h)

theorem getD_toNat? (n : Int) : n.toNat?.getD 0 = n.toNat := by
  cases n <;> rfl

/-- Bounds with a sign are brought to the ends of the list, and a part between them in the wrong
order is empty. -/
theorem take_drop_eq_cut (start stop : Int) (xs : List α) :
    (if min stop xs.length ≤ max start 0 then []
      else (xs.drop (max start 0).toNat).take (min stop xs.length - max start 0).toNat) =
      cut start.toNat stop.toNat xs := by
  have hstart : (max start 0).toNat = start.toNat := by omega
  rw [hstart, ← cut_min_length]
  split_ifs with h
  · exact (cut_of_le (by omega) xs).symm
  · rw [cut, List.drop_take]
    congr 1
    omega

/-- A bound without a sign is only brought to the end of the list, and one that has no such form
counts as 0. -/
theorem extract_eq_cut (start stop : Int) (xs : List α) :
    (if start.toNat?.getD 0 < min (stop.toNat?.getD 0) xs.length then
        xs.extract (start.toNat?.getD 0) (min (stop.toNat?.getD 0) xs.length)
      else []) = cut start.toNat stop.toNat xs := by
  rw [getD_toNat?, getD_toNat?, ← cut_min_length]
  split_ifs with h
  · exact List.drop_take.symm
  · exact (cut_of_le (Nat.not_lt.1 h) xs).symm

theorem cut_append_cut (xs : List α) (k : Nat) {stop : Nat} (h : xs.length ≤ stop) :
    cut 0 k xs ++ cut k stop xs = xs := by
  rw [cut, cut, List.drop_zero, List.take_of_length_le h, List.take_append_drop]

theorem cut_map {β : Type} (f : α → β) (start stop : Nat) (xs : List α) :
    cut start stop (xs.map f) = (cut start stop xs).map f := by
  rw [cut, cut, List.map_drop, List.map_take]

end Positions

/-! ## Filling up -/

section Filling

variable {count k width : Nat} {fill text : List Char}

/-- A text repeated a number of times. -/
def copies (k : Nat) (text : List Char) : List Char := (List.replicate k text).flatten

theorem length_copies (k : Nat) (text : List Char) : (copies k text).length = k * text.length := by
  rw [copies, List.length_flatten, List.map_replicate, List.sum_replicate, smul_eq_mul]

theorem copies_prefix_copies (h : count ≤ k) : copies count fill <+: copies k fill := by
  obtain ⟨more, rfl⟩ := Nat.exists_eq_add_of_le h
  rw [copies, copies, List.replicate_add, List.flatten_append]
  exact List.prefix_append ..

theorem reverse_copies (k : Nat) (text : List Char) :
    (copies k text).reverse = copies k text.reverse := by
  rw [copies, List.reverse_flatten, List.map_replicate, List.reverse_replicate, copies]

theorem cycleFrom_append (fill rest : List Char) (count : Nat) :
    cycleFrom fill rest (rest.length + count) = rest ++ cycleFrom fill [] count := by
  induction rest with
  | nil => rw [List.length_nil, Nat.zero_add, List.nil_append]
  | cons c rest ih => rw [List.length_cons, Nat.add_right_comm, cycleFrom, ih, List.cons_append]

theorem cycleFrom_nil (fill : List Char) (count : Nat) :
    cycleFrom fill [] count = cycle fill count := by
  cases count with
  | zero => cases fill <;> rfl
  | succ count => cases fill <;> rfl

/-- To go round a number of times is to copy. -/
theorem cycle_eq_copies (fill : List Char) (k : Nat) :
    cycle fill (k * fill.length) = copies k fill := by
  induction k with
  | zero =>
    rw [Nat.zero_mul]
    cases fill <;> rfl
  | succ k ih =>
    rw [Nat.succ_mul, Nat.add_comm, cycle, cycleFrom_append, cycleFrom_nil, ih, copies, copies,
      List.replicate_succ, List.flatten_cons]

theorem le_divCeil_mul (n : Nat) {k : Nat} (h : 0 < k) : n ≤ divCeil n k * k := by
  have hdivide := Nat.div_add_mod' n k
  have hrest := Nat.mod_lt n h
  rw [divCeil]
  split_ifs
  · rw [Nat.succ_mul]
    omega
  · omega

theorem padding_right (count : Nat) (fill : List Char) :
    padding false count fill = (copies (divCeil count fill.length) fill).take count :=
  congrArg (List.take count) (cycle_eq_copies fill _)

/-- What is cut at the end of the copies is cut at the front of the copies of the mirror image. -/
theorem reverse_padding (count : Nat) (fill : List Char) :
    (padding true count fill).reverse = padding false count fill.reverse := by
  have hleft : padding true count fill = (copies (divCeil count fill.length) fill).drop
      (divCeil count fill.length * fill.length - count) := congrArg _ (cycle_eq_copies fill _)
  rw [hleft, padding_right, List.reverse_drop, reverse_copies, length_copies, List.length_reverse,
    List.take_eq_take_iff, length_copies, List.length_reverse]
  omega

theorem length_padding (count : Nat) (left : Bool) (hfill : fill ≠ []) :
    (padding left count fill).length = count := by
  have hright {fill : List Char} (hfill : fill ≠ []) : (padding false count fill).length =
      count := by
    rw [padding_right, List.length_take, length_copies]
    exact Nat.min_eq_left (le_divCeil_mul count (List.length_pos_of_ne_nil hfill))
  cases left with
  | false => exact hright hfill
  | true => rw [← List.length_reverse, reverse_padding, hright (by simpa using hfill)]

/-- Whatever number of copies is cut, if they are long enough. -/
theorem padding_prefix (h : count ≤ k * fill.length) :
    padding false count fill <+: copies k fill := by
  have hlength : (padding false count fill).length ≤ (copies k fill).length := by
    rw [padding_right, length_copies]
    exact (List.length_take_le ..).trans h
  have hpiece : padding false count fill <+: copies (max (divCeil count fill.length) k) fill := by
    rw [padding_right]
    exact (List.take_prefix ..).trans (copies_prefix_copies (Nat.le_max_left ..))
  exact List.prefix_of_prefix_length_le hpiece (copies_prefix_copies (Nat.le_max_right ..)) hlength

theorem padding_suffix (h : count ≤ k * fill.length) :
    padding true count fill <:+ copies k fill := by
  rw [← List.reverse_prefix, reverse_padding, reverse_copies]
  exact padding_prefix (by rwa [List.length_reverse])

theorem pad_of_le (left : Bool) (h : width ≤ text.length) :
    pad left width fill text = text := if_pos h

theorem pad_left_of_lt (h : text.length < width) :
    pad true width fill text = padding true (width - text.length) fill ++ text :=
  if_neg (Nat.not_le.2 h)

theorem pad_right_of_lt (h : text.length < width) :
    pad false width fill text = text ++ padding false (width - text.length) fill :=
  if_neg (Nat.not_le.2 h)

theorem reverse_pad (width : Nat) (fill text : List Char) :
    (pad true width fill text).reverse = pad false width fill.reverse text.reverse := by
  rcases Nat.lt_or_ge text.length width with h | h
  · rw [pad_left_of_lt h, pad_right_of_lt (by rwa [List.length_reverse]), List.reverse_append,
      reverse_padding, List.length_reverse]
  · rw [pad_of_le true h, pad_of_le false (by rwa [List.length_reverse])]

end Filling

end TagMachine.Text
