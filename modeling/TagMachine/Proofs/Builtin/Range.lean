import TagMachine.Proofs.Builtin.Calls

set_option autoImplicit false

/-! # Ranges

The function `range` counts from one integer to another. Lengths and differences here are those of
the integers themselves, whatever 64 bits hold. Every number of a range lies between its ends, so
none of them wraps (`toInt_getElem_rangeNumbers`), not even where an end is the least or the
greatest integer.
-/

namespace TagMachine.Builtin

variable {start stop : Int64}

/-- Counting from `start` to `stop` returns the list `xs`. -/
def Ranges (start stop : Int64) (xs : List Value) : Prop :=
  ∀ c : Call, c.given.integer "start" = start → c.given.integer "end" = stop → c.ReturnsList 0x36 xs

/-- Counting from `start` to `stop` ends with the error `e`. -/
def RangeFails (start stop : Int64) (e : Error) : Prop :=
  ∀ c : Call, c.given.integer "start" = start → c.given.integer "end" = stop → c.run 0x36 = .error e

/-! ## Numbers of a range -/

/-- A list that counts from one integer to another, both included. -/
structure Counts (start stop : Int64) (ns : List Int64) : Prop where
  length : ns.length = rangeLength start stop
  first : ns.head? = some start
  last : ns.getLast? = some stop
  steps : ns.IsChain fun m n => n.toInt - m.toInt = rangeStep start stop

theorem rangeStep_cases (start stop : Int64) :
    start.toInt ≤ stop.toInt ∧ rangeStep start stop = 1 ∨
      stop.toInt < start.toInt ∧ rangeStep start stop = -1 := by
  rw [rangeStep]
  by_cases h : start ≤ stop
  · exact .inl ⟨Int64.le_iff_toInt_le.1 h, if_pos h⟩
  · exact .inr ⟨Int64.lt_iff_toInt_lt.1 (Int64.not_le.1 h), if_neg h⟩

theorem rangeLength_comm (start stop : Int64) :
    rangeLength stop start = rangeLength start stop := by
  rw [rangeLength, rangeLength]
  omega

@[simp] theorem length_rangeNumbers (start stop : Int64) :
    (rangeNumbers start stop).length = rangeLength start stop := by
  rw [rangeNumbers, List.length_map, List.length_range]

theorem toInt_getElem_rangeNumbers {i : Nat} (h : i < (rangeNumbers start stop).length) :
    (rangeNumbers start stop)[i].toInt = start.toInt + rangeStep start stop * i := by
  have hbetween : -2 ^ 63 ≤ start.toInt + rangeStep start stop * i ∧
      start.toInt + rangeStep start stop * i < 2 ^ 63 := by
    have hstart := start.le_toInt
    have hstart' := start.toInt_lt
    have hstop := stop.le_toInt
    have hstop' := stop.toInt_lt
    rw [length_rangeNumbers, rangeLength] at h
    rcases rangeStep_cases start stop with ⟨hle, hstep⟩ | ⟨hlt, hstep⟩ <;> rw [hstep] <;> omega
  simp only [rangeNumbers, List.getElem_map, List.getElem_range]
  exact Int64.toInt_ofInt_of_le hbetween.1 hbetween.2

theorem counts_rangeNumbers (start stop : Int64) : Counts start stop (rangeNumbers start stop) where
  length := length_rangeNumbers start stop
  first := by
    have hpos : 0 < (rangeNumbers start stop).length := by simp [rangeLength]
    rw [List.head?_eq_getElem?, List.getElem?_eq_getElem hpos, Option.some_inj, ← Int64.toInt_inj,
      toInt_getElem_rangeNumbers]
    simp
  last := by
    have hlast : (rangeNumbers start stop).length - 1 < (rangeNumbers start stop).length := by
      simp [rangeLength]
    rw [List.getLast?_eq_getElem?, List.getElem?_eq_getElem hlast, Option.some_inj,
      ← Int64.toInt_inj, toInt_getElem_rangeNumbers, length_rangeNumbers, rangeLength,
      Nat.add_sub_cancel]
    rcases rangeStep_cases start stop with ⟨hle, hstep⟩ | ⟨hlt, hstep⟩ <;> rw [hstep] <;> omega
  steps := by
    refine List.isChain_iff_getElem.2 fun i hi => ?_
    rw [toInt_getElem_rangeNumbers, toInt_getElem_rangeNumbers]
    push_cast
    ring

theorem rangeNumbers_reverse (start stop : Int64) :
    rangeNumbers stop start = (rangeNumbers start stop).reverse := by
  refine List.ext_getElem (by simp [rangeLength_comm]) fun i hi _ => ?_
  rw [List.getElem_reverse, ← Int64.toInt_inj, toInt_getElem_rangeNumbers,
    toInt_getElem_rangeNumbers]
  simp only [length_rangeNumbers, rangeLength] at hi ⊢
  rcases rangeStep_cases start stop with ⟨hle, hstep⟩ | ⟨hlt, hstep⟩ <;>
    rcases rangeStep_cases stop start with ⟨hle', hstep'⟩ | ⟨hlt', hstep'⟩ <;>
      rw [hstep, hstep'] <;> omega

/-! ## Calls -/

theorem ranges_rangeNumbers (h : rangeLength start stop ≤ rangeLimit) :
    Ranges start stop ((rangeNumbers start stop).map .integer) := by
  rintro c rfl rfl
  refine Call.returnsList_of_give rfl ?_
  exact if_neg (Nat.not_lt.2 ((Nat.min_le_left ..).trans h))

theorem rangeFails_of_lt (h : rangeLimit < rangeLength start stop) :
    RangeFails start stop
      (.domain (.rangeTooLong (Nat.min (rangeLength start stop) lengthCap) rangeLimit)) := by
  rintro c rfl rfl
  refine Call.run_eq_error rfl ?_
  have hcap : rangeLimit < lengthCap := by decide
  exact if_pos (Nat.lt_min.2 ⟨h, hcap⟩)

/-- A range of at most a million numbers counts from its start to its end, and counting back gives
the reverse of it. A longer one is an error, which tells its length as far as 64 bits hold it. -/
theorem range_exact (start stop : Int64) :
    (rangeLength start stop ≤ 1000000 → ∃ ns : List Int64, Counts start stop ns ∧
      Ranges start stop (ns.map .integer) ∧ Ranges stop start (ns.map .integer).reverse) ∧
    (1000000 < rangeLength start stop →
      RangeFails start stop
        (.domain (.rangeTooLong (Nat.min (rangeLength start stop) (2 ^ 64 - 1)) 1000000)) ∧
      RangeFails stop start
        (.domain (.rangeTooLong (Nat.min (rangeLength start stop) (2 ^ 64 - 1)) 1000000))) := by
  refine ⟨fun hshort => ⟨_, counts_rangeNumbers start stop, ranges_rangeNumbers hshort, ?_⟩,
    fun hlong => ⟨rangeFails_of_lt hlong, ?_⟩⟩
  · rw [← List.map_reverse, ← rangeNumbers_reverse]
    exact ranges_rangeNumbers (by rwa [rangeLength_comm])
  · rw [← rangeLength_comm]
    exact rangeFails_of_lt (by rwa [rangeLength_comm])

/-- The two least integers, counted down and up, and all integers at once. -/
theorem range_exact_extreme :
    (Call.passing [] [("start", .integer (Int64.minValue + 1)),
      ("end", .integer Int64.minValue)]).ReturnsList
      0x36 [.integer (Int64.minValue + 1), .integer Int64.minValue] ∧
    (Call.passing [] [("start", .integer Int64.minValue),
      ("end", .integer (Int64.minValue + 1))]).ReturnsList
      0x36 [.integer Int64.minValue, .integer (Int64.minValue + 1)] ∧
    (Call.passing [] [("start", .integer Int64.minValue),
      ("end", .integer Int64.maxValue)]).run 0x36 =
      .error (.domain (.rangeTooLong 18446744073709551615 1000000)) := by
  obtain ⟨ns, hcounts, hdown, hup⟩ :=
    (range_exact (Int64.minValue + 1) Int64.minValue).1 (by decide)
  obtain ⟨hfail, -⟩ := (range_exact Int64.minValue Int64.maxValue).2 (by decide)
  obtain ⟨a, b, rfl⟩ := List.length_eq_two.1 hcounts.length
  obtain rfl := Option.some.inj hcounts.first
  obtain rfl := Option.some.inj hcounts.last
  exact ⟨hdown _ rfl rfl, hup _ rfl rfl, hfail _ rfl rfl⟩

end TagMachine.Builtin
