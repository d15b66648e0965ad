import TagMachine.Proofs.Flow.Origin

set_option autoImplicit false

/-! # Enforcing the rules

An execution that enforces the rules of a contract is one that does not, followed by a check of the
output's tags (`Config.execute_enforcing`). The check rejects an output for the first rule that its
tags break, and says which of its tags the rule forbids, what they are called, and what takes them
off (`Contract.violation?_eq_some_iff`). Nothing else looks at the rules, or at the tags and
sanitizers that a contract declares: a packet with others computes the same
(`Config.execute_withPolicy`).
-/

namespace TagMachine

/-! ## The check of tags -/

namespace Contract

variable {c : Contract} {tags : TagSet} {v : Violation}

/-- Some rule forbids some of the tags. -/
def Forbids (c : Contract) (tags : TagSet) : Prop :=
  ∃ mask scope, .forbidTagged mask scope ∈ c.rules ∧ tags &&& mask ≠ 0

/-- What is to be reported of tags that break a rule. -/
structure Reports (c : Contract) (tags : TagSet) (v : Violation) : Prop where
  /-- The tags that the first broken rule forbids. -/
  bits : ∃ before mask scope after, c.rules = before ++ .forbidTagged mask scope :: after ∧
    (∀ mask' scope', .forbidTagged mask' scope' ∈ before → tags &&& mask' = 0) ∧
    tags &&& mask ≠ 0 ∧ v.bits = tags &&& mask
  /-- The names of these tags, as far as they are declared for one of the 64 places. -/
  names : v.names =
    (c.tags.filter fun t => t.bit < 64 && v.bits.getLsbD t.bit.toNat).map TagDef.name
  /-- The sanitizers that take off some of them. -/
  sanitizers : v.sanitizers =
    (c.sanitizers.filter fun s => s.strips &&& v.bits != 0).map SanitizerDef.name

theorem offence?_eq_none_iff {rule : Rule} :
    c.offence? tags rule = none ↔
      ∀ mask scope, rule = .forbidTagged mask scope → tags &&& mask = 0 := by
  cases rule with
  | forbidTagged mask scope =>
    simp only [offence?, ite_eq_left_iff, reduceCtorEq, imp_false, not_not, Rule.forbidTagged.injEq]
    constructor
    · rintro hzero mask' scope' ⟨rfl, rfl⟩
      exact hzero
    · intro h
      exact h mask scope ⟨rfl, rfl⟩
  | _ => simp [offence?]

/-- A tag declared for a place that a set does not have is never in it. -/
theorem tagNames_eq (c : Contract) (bits : TagSet) :
    c.tagNames bits =
      (c.tags.filter fun t => t.bit < 64 && bits.getLsbD t.bit.toNat).map TagDef.name := by
  have hplace : ∀ t : TagDef,
      bits.getLsbD t.bit.toNat = (decide (t.bit < 64) && bits.getLsbD t.bit.toNat) := by
    intro t
    by_cases ht : t.bit < 64
    · simp [ht]
    · have hle : 64 ≤ t.bit.toNat := by
        simpa [UInt8.lt_iff_toNat_lt] using ht
      simp [ht, BitVec.getLsbD_of_ge bits t.bit.toNat hle]
  unfold tagNames
  rw [List.filter_congr fun t _ => hplace t]

/-- The check finds nothing exactly when no rule forbids any of the tags. -/
theorem violation?_eq_none_iff : c.violation? tags = none ↔ ¬c.Forbids tags := by
  unfold violation?
  rw [List.findSome?_eq_none_iff]
  constructor
  · rintro h ⟨mask, scope, hrule, hne⟩
    exact hne (offence?_eq_none_iff.1 (h _ hrule) mask scope rfl)
  · intro h rule hrule
    refine offence?_eq_none_iff.2 ?_
    rintro mask scope rfl
    by_contra hne
    exact h ⟨mask, scope, hrule, hne⟩

/-- The check reports what is to be reported, and nothing else. -/
theorem violation?_eq_some_iff : c.violation? tags = some v ↔ c.Reports tags v := by
  unfold violation?
  constructor
  · intro h
    obtain ⟨before, rule, after, hrules, hrule, hbefore⟩ := List.findSome?_eq_some_iff.1 h
    cases rule with
    | forbidTagged mask scope =>
      by_cases hzero : tags &&& mask = 0
      · simp [offence?, hzero] at hrule
      · simp only [offence?, hzero, if_false, Option.some.injEq] at hrule
        subst hrule
        refine ⟨⟨before, mask, scope, after, hrules, ?_, hzero, rfl⟩, tagNames_eq c _, rfl⟩
        intro mask' scope' hmem
        exact offence?_eq_none_iff.1 (hbefore _ hmem) mask' scope' rfl
    | _ => cases hrule
  · rintro ⟨⟨before, mask, scope, after, hrules, hbefore, hne, hbits⟩, hnames, hsanitizers⟩
    refine List.findSome?_eq_some_iff.2 ⟨before, .forbidTagged mask scope, after, hrules, ?_, ?_⟩
    · obtain ⟨bits, names, sanitizers⟩ := v
      dsimp only at hbits hnames hsanitizers
      subst hbits
      rw [← tagNames_eq] at hnames
      simp only [offence?, hne, if_false, hnames, hsanitizers]
      rfl
    · intro rule hmem
      refine offence?_eq_none_iff.2 ?_
      rintro mask' scope' rfl
      exact hbefore mask' scope' hmem

theorem validate_false : c.validate false tags = .ok () := by
  unfold validate
  cases c.violation? tags <;> rfl

end Contract

/-! ## Executions -/

/-- The functions of a table leave it to the check of the output to speak of a broken rule. -/
def FunctionTable.NeverRejects (functions : FunctionTable) : Prop :=
  ∀ v, ¬functions.Raises (.policy v)

theorem FunctionTable.RuntimeErrors.neverRejects {functions : FunctionTable}
    (h : functions.RuntimeErrors) : functions.NeverRejects := by
  rintro v ⟨id, context, args, store, hcall⟩
  cases h id context args store _ hcall

namespace Config

def enforcing (c : Config) (strict : Bool) : Config := { c with enforcePolicy := strict }

variable (c : Config) (p : Packet) (functions : FunctionTable) (timestamp : String)
  (input : RecordRef) (store : Store)

/-- The tags of the output register at the end of the run, and none if the scratchpad does not have
it. -/
def outputTags : TagSet :=
  if p.outputRegister < p.contract.size.toNat then
    ((c.final p functions timestamp input store).peek p.outputRegister).tags
  else 0

theorem size_final :
    (c.final p functions timestamp input store).registers.size = p.contract.size.toNat := by
  have hloaded : (p.loaded input store).registers.size = p.contract.size.toNat := by
    refine Machine.loadFields_keeps (P := fun m => m.registers.size = p.contract.size.toNat) ?_ _ ?_
    · intro m k name tags hm
      rw [Machine.size_put, hm]
    · simp [Machine.start]
  exact Machine.runFrom_keeps (P := fun m => m.registers.size = p.contract.size.toNat)
    (fun _ hm => hm) (fun _ hm hadvance => hadvance.size_registers.trans hm) _ 0 hloaded

theorem outputTags_eq :
    c.outputTags p functions timestamp input store =
      ((c.final p functions timestamp input store).peek p.outputRegister).tags := by
  unfold outputTags
  split
  · rfl
  · next hout =>
      rw [Machine.peek_of_le]
      rw [size_final]
      exact Nat.not_lt.1 hout

/-- What the check makes of the result of an execution. -/
def checked (result : Except Error RecordRef) : Except Error RecordRef :=
  match result, p.contract.violation? (c.outputTags p functions timestamp input store) with
  | .ok _, some v => .error (.policy v)
  | result, _ => result

/-- Enforcing the rules is a check of what an execution gives that does not. -/
theorem execute_enforcing :
    (c.enforcing true).execute p functions timestamp input store =
      (c.checked p functions timestamp input store
          ((c.enforcing false).execute p functions timestamp input store).1,
        ((c.enforcing false).execute p functions timestamp input store).2) := by
  have hsetting (strict : Bool) :
      (c.enforcing strict).setting p functions timestamp = c.setting p functions timestamp := rfl
  unfold checked
  rw [outputTags_eq]
  unfold final Packet.loaded execute
  simp only [hsetting]
  generalize (Machine.start p store).loadInputs p (store.record input) = loading
  obtain ⟨result, m⟩ := loading
  cases result with
  | error e => rfl
  | ok u =>
    dsimp only
    generalize m.run (c.setting p functions timestamp) = ran
    obtain ⟨outcome, n⟩ := ran
    cases outcome.toExcept with
    | error e => rfl
    | ok u =>
      -- the run has ended well: the two executions differ in the check alone
      dsimp only [enforcing]
      rw [Contract.validate_false, Machine.output_tags]
      unfold Contract.validate
      cases p.contract.violation? (n.peek p.outputRegister).tags <;> rfl

/-! ## Other rules, tags and sanitizers -/

end Config

/-- The packet with other rules, and with other tags and sanitizers declared. -/
def Packet.withPolicy (p : Packet) (rules : List Rule) (tags : List TagDef)
    (sanitizers : List SanitizerDef) : Packet :=
  { p with contract := { p.contract with rules, tags, sanitizers } }

/-- The setting whose packet has other rules, tags and sanitizers. -/
def Setting.withPolicy (s : Setting) (rules : List Rule) (tags : List TagDef)
    (sanitizers : List SanitizerDef) : Setting :=
  { s with packet := s.packet.withPolicy rules tags sanitizers }

section

variable (rules : List Rule) (tags : List TagDef) (sanitizers : List SanitizerDef)

namespace Machine

/-- No instruction reads the rules, or the tags and sanitizers that are declared. -/
theorem step_withPolicy (s : Setting) (pc : Nat) (i : Instruction) (m : Machine) :
    m.step (s.withPolicy rules tags sanitizers) pc i = m.step s pc i := by
  unfold step
  cases Opcode.ofByte? i.opcode with
  | none => rfl
  | some op => cases op <;> rfl

theorem runFrom_withPolicy (s : Setting) (k pc : Nat) (m : Machine) :
    runFrom (s.withPolicy rules tags sanitizers) k pc m = runFrom s k pc m := by
  induction k generalizing pc m with
  | zero => rfl
  | succ k ih =>
    have hcode : (s.withPolicy rules tags sanitizers).packet.code = s.packet.code := rfl
    have hlimits : (s.withPolicy rules tags sanitizers).limits = s.limits := rfl
    simp only [runFrom, hcode, hlimits, step_withPolicy, ih]

end Machine

namespace Config

variable (c : Config) (p : Packet) (functions : FunctionTable) (timestamp : String)
  (input : RecordRef) (store : Store)

/-- A packet with other rules, tags and sanitizers computes the same. -/
theorem execute_withPolicy :
    (c.enforcing false).execute (p.withPolicy rules tags sanitizers) functions timestamp input
        store =
      (c.enforcing false).execute p functions timestamp input store := by
  have hsetting :
      (c.enforcing false).setting (p.withPolicy rules tags sanitizers) functions timestamp =
        ((c.enforcing false).setting p functions timestamp).withPolicy rules tags sanitizers := rfl
  have hload (m : Machine) : m.loadInputs (p.withPolicy rules tags sanitizers)
    (store.record input) =
      m.loadInputs p (store.record input) := rfl
  have hstart : Machine.start (p.withPolicy rules tags sanitizers) store =
      Machine.start p store := rfl
  have houtput (m : Machine) : m.output (p.withPolicy rules tags sanitizers) = m.output p := rfl
  have hfree (d : Contract) (t : TagSet) : d.validate (c.enforcing false).enforcePolicy t =
      .ok () :=
    Contract.validate_false
  unfold execute Machine.run
  simp only [hsetting, hload, hstart, houtput, hfree, Machine.runFrom_withPolicy]
  rfl

end Config

end

/-! ## Enforcement as a filter -/

namespace Config

/-- Enforcing the rules of a packet only filters what it delivers. -/
structure OnlyFilters (c : Config) (p : Packet) (functions : FunctionTable) (timestamp : String)
    (input : RecordRef) (store : Store) : Prop where
  /-- An output is rejected if it would be delivered otherwise and carries a tag that a rule
  forbids, and for no other reason. -/
  rejects_iff : functions.NeverRejects →
    ((∃ v, ((c.enforcing true).execute p functions timestamp input store).1 = .error (.policy v)) ↔
      (∃ r, ((c.enforcing false).execute p functions timestamp input store).1 = .ok r) ∧
        p.contract.Forbids (c.outputTags p functions timestamp input store))
  /-- What is reported of an output that is rejected. -/
  reports : ∀ r, ((c.enforcing false).execute p functions timestamp input store).1 = .ok r →
    p.contract.Forbids (c.outputTags p functions timestamp input store) →
      ∃ v, ((c.enforcing true).execute p functions timestamp input store).1 = .error (.policy v) ∧
        p.contract.Reports (c.outputTags p functions timestamp input store) v
  /-- In every other case the two executions give the same. -/
  passes : ¬((∃ r, ((c.enforcing false).execute p functions timestamp input store).1 = .ok r) ∧
      p.contract.Forbids (c.outputTags p functions timestamp input store)) →
    (c.enforcing true).execute p functions timestamp input store =
      (c.enforcing false).execute p functions timestamp input store
  /-- Both leave the same containers, also where an output is rejected. -/
  store : ((c.enforcing true).execute p functions timestamp input store).2 =
    ((c.enforcing false).execute p functions timestamp input store).2

/-- With other rules, tags and sanitizers a packet computes the same values: its runs go through the
same states, and what it delivers is what it delivered before or was not allowed to. -/
structure SameValues (c : Config) (p p' : Packet) (functions : FunctionTable) (timestamp : String)
    (input : RecordRef) (store : Store) : Prop where
  states : ∀ k, Machine.runFrom (c.setting p' functions timestamp) k 0 (p'.loaded input store) =
    Machine.runFrom (c.setting p functions timestamp) k 0 (p.loaded input store)
  result : (c.enforcing false).execute p' functions timestamp input store =
    (c.enforcing false).execute p functions timestamp input store
  delivered : ∀ r, ((c.enforcing true).execute p' functions timestamp input store).1 = .ok r →
    ((c.enforcing false).execute p functions timestamp input store).1 = .ok r
  store : ((c.enforcing true).execute p' functions timestamp input store).2 =
    ((c.enforcing true).execute p functions timestamp input store).2

variable {c : Config} {p : Packet} {functions : FunctionTable} {timestamp : String}
  {input : RecordRef} {store : Store}

/-- An execution that does not enforce the rules speaks of a broken one only if a function does. -/
theorem execute_free_ne_policy (hfunctions : functions.NeverRejects) (v : Violation) :
    ((c.enforcing false).execute p functions timestamp input store).1 ≠ .error (.policy v) := by
  intro h
  rcases isRuntime_or_raises_of_execute Contract.validate_false h with hruntime | hraises
  · cases hruntime
  · exact hfunctions v hraises

theorem checked_eq_ok {result : Except Error RecordRef} {r : RecordRef}
    (h : c.checked p functions timestamp input store result = .ok r) : result = .ok r := by
  unfold checked at h
  split at h
  · cases h
  · exact h

theorem onlyFilters (c : Config) (p : Packet) (functions : FunctionTable) (timestamp : String)
    (input : RecordRef) (store : Store) : c.OnlyFilters p functions timestamp input store := by
  have hstrict := c.execute_enforcing p functions timestamp input store
  generalize hfree : (c.enforcing false).execute p functions timestamp input store = free at hstrict
  obtain ⟨result, store'⟩ := free
  -- the violation that the check finds decides what becomes of a result
  have hpasses : ¬((∃ r, result = .ok r) ∧
      p.contract.Forbids (c.outputTags p functions timestamp input store)) →
      c.checked p functions timestamp input store result = result := by
    intro hnot
    unfold checked
    split
    · next r v hv =>
        refine absurd ⟨⟨r, rfl⟩, ?_⟩ hnot
        by_contra hforbids
        rw [Contract.violation?_eq_none_iff.2 hforbids] at hv
        cases hv
    · rfl
  have hreports : ∀ r, result = .ok r →
      p.contract.Forbids (c.outputTags p functions timestamp input store) →
      ∃ v, c.checked p functions timestamp input store result = .error (.policy v) ∧
        p.contract.Reports (c.outputTags p functions timestamp input store) v := by
    rintro r rfl hforbids
    cases hv : p.contract.violation? (c.outputTags p functions timestamp input store) with
    | none => exact absurd hforbids (Contract.violation?_eq_none_iff.1 hv)
    | some v =>
      refine ⟨v, ?_, Contract.violation?_eq_some_iff.1 hv⟩
      unfold checked
      rw [hv]
  constructor
  · intro hfunctions
    rw [hstrict, hfree]
    constructor
    · rintro ⟨v, hv⟩
      by_contra hnot
      rw [hpasses hnot] at hv
      have hne : ((c.enforcing false).execute p functions timestamp input store).1 ≠
          .error (.policy v) := execute_free_ne_policy hfunctions v
      rw [hfree] at hne
      exact hne hv
    · rintro ⟨⟨r, hr⟩, hforbids⟩
      obtain ⟨v, hv, -⟩ := hreports r hr hforbids
      exact ⟨v, hv⟩
  · rw [hstrict, hfree]
    exact hreports
  · rw [hstrict, hfree]
    intro hnot
    rw [hpasses hnot]
  · rw [hstrict, hfree]

theorem sameValues (c : Config) (p : Packet) (functions : FunctionTable) (timestamp : String)
    (input : RecordRef) (store : Store) (rules : List Rule) (tags : List TagDef)
    (sanitizers : List SanitizerDef) :
    c.SameValues p (p.withPolicy rules tags sanitizers) functions timestamp input store where
  states k := Machine.runFrom_withPolicy rules tags sanitizers (c.setting p functions timestamp) k 0
    (p.loaded input store)
  result := execute_withPolicy rules tags sanitizers c p functions timestamp input store
  delivered r hr := by
    rw [execute_enforcing] at hr
    rw [← execute_withPolicy rules tags sanitizers]
    exact checked_eq_ok hr
  store := by
    rw [execute_enforcing, execute_enforcing, execute_withPolicy]

/-- **Enforcement is a filter.** Enforcing the rules of a packet rejects the outputs that carry a
forbidden tag, says which rule was broken and how, and changes nothing else. The rules, and the tags
and sanitizers that a packet declares, have no part in what it computes. -/
theorem enforcement_only_filters (c : Config) (p : Packet) (functions : FunctionTable)
    (timestamp : String) (input : RecordRef) (store : Store) :
    c.OnlyFilters p functions timestamp input store ∧
      (∀ rules tags sanitizers,
        c.SameValues p (p.withPolicy rules tags sanitizers) functions timestamp input store) ∧
      FunctionTable.standard.NeverRejects ∧ FunctionTable.none.NeverRejects :=
  ⟨onlyFilters c p functions timestamp input store,
    sameValues c p functions timestamp input store,
    FunctionTable.runtimeErrors_standard.neverRejects,
    FunctionTable.runtimeErrors_none.neverRejects⟩

end Config

/-- Delivers its secret, which has two forbidden tags. A third tag is declared for a place that sets
of tags do not have. -/
def Packet.labelled : Packet where
  contract := {
    size := 2
    inputs := [⟨"secret", .string, 3, 0⟩]
    tags := [⟨0, "personal", ""⟩, ⟨1, "key", ""⟩, ⟨65, "far", ""⟩]
    sanitizers := [⟨"mask", 0x07, 1⟩, ⟨"hash", 0x70, 6⟩]
    rules := [.require "secret" "", .forbidTagged 4 0, .forbidTagged 2 0, .forbidTagged 1 0] }
  constants := #[.string "k"]
  code := #[Opcode.newNamed.on 0 1 0 0]

/-- The third rule is the first that is broken. Without rules the same record is delivered. -/
theorem Config.labelled_only_filtered :
    (Config.execute {} .labelled .standard "" ⟨0⟩ (.withSecret (.string "s"))).1 =
        .error (.policy ⟨2, ["key"], ["hash"]⟩) ∧
      (∃ r, (({} : Config).enforcing false |>.execute .labelled .standard "" ⟨0⟩
        (.withSecret (.string "s"))).1 = .ok r) ∧
      Packet.labelled.contract.Forbids
        (outputTags {} .labelled .standard "" ⟨0⟩ (.withSecret (.string "s"))) ∧
      (Config.execute {} (Packet.labelled.withPolicy [] [] []) .standard "" ⟨0⟩
        (.withSecret (.string "s"))).1 = .ok ⟨1⟩ ∧
      (({} : Config).enforcing false |>.execute .labelled .standard "" ⟨0⟩
        (.withSecret (.string "s"))).1 = .ok ⟨1⟩ := by
  obtain ⟨hfilters, hsame, hstandard, -⟩ :=
    enforcement_only_filters {} .labelled .standard "" ⟨0⟩ (.withSecret (.string "s"))
  have hstrict : (Config.execute {} .labelled .standard "" ⟨0⟩ (.withSecret (.string "s"))).1 =
      .error (.policy ⟨2, ["key"], ["hash"]⟩) := by decide +kernel
  have hbare : (Config.execute {} (Packet.labelled.withPolicy [] [] []) .standard "" ⟨0⟩
      (.withSecret (.string "s"))).1 = .ok ⟨1⟩ := by decide +kernel
  obtain ⟨hdelivers, hforbids⟩ := (hfilters.rejects_iff hstandard).1 ⟨_, hstrict⟩
  exact ⟨hstrict, hdelivers, hforbids, hbare, (hsame [] [] []).delivered _ hbare⟩

end TagMachine
