import TagMachine.Execution
import TagMachine.Proofs.Builtin.Parametric
import TagMachine.Proofs.Flow.Step

set_option autoImplicit false

/-! # What a forbidden tag hides

A packet whose rules forbid a tag, and whose instructions only hand tags on, gives an output that
does not depend on the inputs with the tag (`Config.execute_hides_forbidden`). This is not so for
every run: tags belong to registers and not to containers, a loop tags neither what its body does
nor what it collects, and keys hand no tags on. Each way to lose a tag is shown by a packet
(`Config.forbidden_tag_leaks`), and the theorem is about the runs that take none of them. The
standard functions are as it asks (`FunctionTable.uniform_standard`).
-/

namespace TagMachine

variable {b : Nat} {β : Pairing}

namespace Machine

variable {s : Setting} {m m' n n' : Machine} {pc k : Nat}

/-! ## Runs -/

/-- Two runs that finish from one place end there, or take a round each by the same instruction. -/
theorem finished_both (hn : runFrom s (k + 1) pc m = (.finished, n))
    (hn' : runFrom s (k + 1) pc m' = (.finished, n')) : (n = m ∧ n' = m') ∨
      ∃ i next next' m₁ m₁', Dispatch s pc i m next m₁ ∧ Dispatch s pc i m' next' m₁' ∧
        runFrom s k next m₁ = (.finished, n) ∧ runFrom s k next' m₁' = (.finished, n') := by
  rcases finished_cases hn with ⟨hfetch, rfl⟩ | ⟨i, next, m₁, hgo, hn⟩
  · rcases finished_cases hn' with ⟨-, rfl⟩ | ⟨i', next', m₁', hgo', -⟩
    · exact .inl ⟨rfl, rfl⟩
    · cases hfetch.symm.trans hgo'.fetch
  · rcases finished_cases hn' with ⟨hfetch', -⟩ | ⟨i', next', m₁', hgo', hn'⟩
    · cases hfetch'.symm.trans hgo.fetch
    · obtain rfl := Option.some.inj (hgo.fetch.symm.trans hgo'.fetch)
      exact .inr ⟨i, next, next', m₁, m₁', hgo, hgo', hn, hn'⟩

/-- Twins that run along the same places without losing the tag are twins at the end. -/
theorem Twins.runFrom (hs : s.functions.Uniform) (hcode : ∀ i ∈ s.packet.code, i.Direct)
    (h : Twins b β m m') (hn : Machine.runFrom s k pc m = (.finished, n))
    (hn' : Machine.runFrom s k pc m' = (.finished, n'))
    (hpath : (visited s k pc m).map Prod.fst = (visited s k pc m').map Prod.fst)
    (hkeeps : ∀ x ∈ visited s k pc m, ∀ i ∈ s.packet.code[x.1]?, i.Keeps b x.2)
    (hkeeps' : ∀ x ∈ visited s k pc m', ∀ i ∈ s.packet.code[x.1]?, i.Keeps b x.2) :
    Agree b n n' := by
  -- Twins at the same place take the same sort of round, and the paths say that they go to the same
  -- place again. The pairing changes from round to round.
  induction k generalizing pc m m' β with
  | zero => cases hn
  | succ k ih =>
    rcases finished_both hn hn' with ⟨rfl, rfl⟩ | ⟨i, next, next', m₁, m₁', hgo, hgo', hn, hn'⟩
    · exact ⟨β, h⟩
    · rw [visited_go hgo] at hpath hkeeps
      rw [visited_go hgo'] at hpath hkeeps'
      have hrest := (List.cons.inj hpath).2
      obtain rfl : next = next' := by
        cases k with
        | zero => cases hn
        | succ k => exact (List.cons.inj hrest).1
      obtain ⟨γ, htwins⟩ := h.tick.advance hs (hcode i (Array.mem_of_getElem? hgo.fetch))
        (hkeeps _ (List.mem_cons_self ..) i hgo.fetch)
          (hkeeps' _ (List.mem_cons_self ..) i hgo.fetch)
        (advance_of_step hgo.step) (advance_of_step hgo'.step)
      exact ih htwins hn hn' hrest (fun x hx => hkeeps x (List.mem_cons_of_mem _ hx))
        fun x hx => hkeeps' x (List.mem_cons_of_mem _ hx)

/-! ## Inputs -/

/-- What writing a field of each of two records keeps, loading both keeps. -/
theorem loadFields_both {R : Machine → Machine → Prop} {x y : Record} {fs : List FieldDef}
    (hput : ∀ f ∈ fs, ∀ {m m' : Machine}, R m m' → R (m.put f.register.toNat ⟨x.get f.name, f.tags⟩)
      (m'.put f.register.toNat ⟨y.get f.name, f.tags⟩))
    (h : R m m') (hn : m.loadFields x fs = (.ok (), n)) (hn' : m'.loadFields y fs = (.ok (), n')) :
    R n n' := by
  induction fs generalizing m m' with
  | nil =>
    obtain rfl := (Prod.mk.inj hn).2
    obtain rfl := (Prod.mk.inj hn').2
    exact h
  | cons f fs ih =>
    unfold Machine.loadFields at hn hn'
    cases hm : m.setRegister f.register ⟨x.get f.name, f.tags⟩ with
    | error e =>
      rw [hm] at hn
      cases hn
    | ok m₁ =>
      cases hm' : m'.setRegister f.register ⟨y.get f.name, f.tags⟩ with
      | error e =>
        rw [hm'] at hn'
        cases hn'
      | ok m₁' =>
        rw [hm] at hn
        rw [hm'] at hn'
        obtain ⟨-, rfl⟩ := setRegister_eq_ok hm
        obtain ⟨-, rfl⟩ := setRegister_eq_ok hm'
        exact ih (fun g hg => hput g (List.mem_cons_of_mem _ hg))
          (hput f (List.mem_cons_self ..) h) hn hn'

theorem Twins.loadFields (h : Twins b β m m') {x y : Record} {fs : List FieldDef}
    (hfs : ∀ f ∈ fs, TagSet.Lacks b f.tags → β.Rel (x.get f.name) (y.get f.name))
    (hn : m.loadFields x fs = (.ok (), n)) (hn' : m'.loadFields y fs = (.ok (), n')) :
    Twins b β n n' := by
  refine loadFields_both (fun f hf _ _ hm => ?_) h hn hn'
  exact hm.put _ ⟨rfl, hfs f hf⟩

theorem twins_start (p : Packet) {s t : Store} (hst : β.Matches s t) (hone : β.OneToOne) :
    Twins b β (start p s) (start p t) where
  stores := hst
  oneToOne := hone
  size := rfl
  registers k := by
    rw [peek_start, peek_start]
    exact ⟨rfl, fun _ => .scalar rfl⟩
  frames := .nil
  executed := rfl

end Machine

/-! ## Outputs -/

/-- An output that passes the rules has no forbidden tag. -/
theorem Contract.lacks_of_validate {c : Contract} {tags mask : TagSet} {scope : UInt8}
    (hrule : .forbidTagged mask scope ∈ c.rules) (hb : ¬TagSet.Lacks b mask)
    (h : c.validate true tags = .ok ()) : TagSet.Lacks b tags := by
  unfold validate at h
  cases hviolation : c.violation? tags with
  | some v =>
    rw [hviolation] at h
    cases h
  | none =>
    have hoffence : c.offence? tags (.forbidTagged mask scope) = none :=
      List.findSome?_eq_none_iff.1 hviolation _ hrule
    have hzero : tags &&& mask = 0 := by
      simpa [offence?] using hoffence
    have hbit : (tags &&& mask).getLsbD b = false := by
      rw [hzero]
      exact TagSet.lacks_zero
    rw [BitVec.getLsbD_and, Bool.and_eq_false_iff] at hbit
    exact hbit.resolve_right hb

/-- The machine that a packet runs on, with the input in its registers. -/
def Packet.loaded (p : Packet) (input : RecordRef) (store : Store) : Machine :=
  ((Machine.start p store).loadInputs p (store.record input)).2

namespace Config

variable (c : Config) (p : Packet) (functions : FunctionTable) (timestamp : String)

/-- The machine at the end of the run of a packet. -/
def final (input : RecordRef) (store : Store) : Machine :=
  ((p.loaded input store).run (c.setting p functions timestamp)).2

/-- The places and machines that the run of a packet goes through. -/
def visited (input : RecordRef) (store : Store) : List (Nat × Machine) :=
  Machine.visited (c.setting p functions timestamp) (Machine.fuel c.limits) 0 (p.loaded input store)

variable {c p functions timestamp}

/-- What an execution that succeeds went through. -/
theorem execute_eq_ok {input output : RecordRef} {store store' : Store}
    (h : c.execute p functions timestamp input store = (.ok output, store')) :
    (Machine.start p store).loadInputs p (store.record input) = (.ok (), p.loaded input store) ∧
      (p.loaded input store).run (c.setting p functions timestamp) =
        (.finished, c.final p functions timestamp input store) ∧
      ∃ tags, (c.final p functions timestamp input store).output p = (⟨output, tags⟩, store') ∧
        p.contract.validate c.enforcePolicy tags = .ok () := by
  unfold final Packet.loaded
  unfold execute at h
  generalize (Machine.start p store).loadInputs p (store.record input) = loading at h ⊢
  obtain ⟨result, m⟩ := loading
  cases result with
  | error e => cases (Prod.mk.inj h).1
  | ok u =>
    dsimp only at h ⊢
    generalize m.run (c.setting p functions timestamp) = ran at h ⊢
    obtain ⟨outcome, n⟩ := ran
    cases outcome with
    | finished =>
      dsimp only [Machine.Outcome.toExcept] at h ⊢
      generalize n.output p = delivered at h ⊢
      obtain ⟨out, st⟩ := delivered
      dsimp only at h
      cases hvalid : p.contract.validate c.enforcePolicy out.tags with
      | error e =>
        rw [hvalid] at h
        cases (Prod.mk.inj h).1
      | ok u =>
        rw [hvalid] at h
        obtain ⟨hout, rfl⟩ := Prod.mk.inj h
        obtain rfl := Except.ok.inj hout
        exact ⟨rfl, rfl, out.tags, rfl, hvalid⟩
    | failed e => cases (Prod.mk.inj h).1
    | unfinished => cases (Prod.mk.inj h).1

/-- An execution succeeds, and its output is the record in the output register. -/
structure Delivers (c : Config) (p : Packet) (functions : FunctionTable) (timestamp : String)
    (input : RecordRef) (store : Store) (output : RecordRef) (store' : Store) : Prop where
  ok : c.execute p functions timestamp input store = (.ok output, store')
  record : ∃ ref, ((c.final p functions timestamp input store).peek p.outputRegister).value =
    .record ref

theorem Delivers.of_eq {c : Config} {p : Packet} {functions : FunctionTable} {timestamp : String}
    {input output : RecordRef} {store : Store}
    (hok : (c.execute p functions timestamp input store).1 = .ok output)
    (hrecord : ((c.final p functions timestamp input store).peek p.outputRegister).value =
      .record output) :
    c.Delivers p functions timestamp input store output
      (c.execute p functions timestamp input store).2 := ⟨Prod.ext hok rfl, output, hrecord⟩

/-- No step of the run loses the tag. -/
def Keeps (c : Config) (p : Packet) (functions : FunctionTable) (timestamp : String) (b : Nat)
    (input : RecordRef) (store : Store) : Prop :=
  ∀ x ∈ c.visited p functions timestamp input store, ∀ i ∈ p.code[x.1]?, i.Keeps b x.2

instance (b : Nat) (input : RecordRef) (store : Store) :
    Decidable (c.Keeps p functions timestamp b input store) :=
  inferInstanceAs (Decidable (∀ x ∈ c.visited p functions timestamp input store,
    ∀ i ∈ p.code[x.1]?, i.Keeps b x.2))

theorem Delivers.final_eq {input output : RecordRef} {store store' : Store}
    (h : c.Delivers p functions timestamp input store output store')
    (hstrict : c.enforcePolicy = true) {mask : TagSet} {scope : UInt8}
    (hrule : .forbidTagged mask scope ∈ p.contract.rules) (hb : ¬TagSet.Lacks b mask) :
    ((c.final p functions timestamp input store).peek p.outputRegister).value = .record output ∧
      (c.final p functions timestamp input store).store = store' ∧
      (c.final p functions timestamp input store).Low b p.outputRegister := by
  obtain ⟨-, -, tags, hout, hvalid⟩ := execute_eq_ok h.ok
  obtain ⟨ref, href⟩ := h.record
  simp only [Machine.output, href, Prod.mk.injEq, Output.mk.injEq] at hout
  obtain ⟨⟨rfl, rfl⟩, rfl⟩ := hout
  rw [hstrict] at hvalid
  exact ⟨href, rfl, Contract.lacks_of_validate hrule hb hvalid⟩

/-- **A forbidden tag hides what it marks.** Two inputs that agree on the fields without the tag, in
value and in what is shared, lead to the same output, if the two runs go through the same places and
no step loses the tag. -/
theorem execute_hides_forbidden (hfunctions : functions.Uniform)
    (hcode : ∀ i ∈ p.code, i.Direct) (hstrict : c.enforcePolicy = true) {mask : TagSet}
    {scope : UInt8} (hrule : .forbidTagged mask scope ∈ p.contract.rules)
    (hb : ¬TagSet.Lacks b mask) {s t s' t' : Store} {x y r r' : RecordRef}
    (hstores : β.Matches s t) (hone : β.OneToOne)
    (hinputs : ∀ f ∈ p.contract.inputs, TagSet.Lacks b f.tags →
      β.Rel ((s.record x).get f.name) ((t.record y).get f.name))
    (hx : c.Delivers p functions timestamp x s r s')
    (hy : c.Delivers p functions timestamp y t r' t')
    (hpath : (c.visited p functions timestamp x s).map Prod.fst =
      (c.visited p functions timestamp y t).map Prod.fst)
    (hkeeps : c.Keeps p functions timestamp b x s)
    (hkeeps' : c.Keeps p functions timestamp b y t) :
    s'.datum? (.record r) = t'.datum? (.record r') ∧
      ∃ γ : Pairing, γ.Matches s' t' ∧ γ.OneToOne ∧ γ.records r r' := by
  obtain ⟨hload, hrun, -⟩ := execute_eq_ok hx.ok
  obtain ⟨hload', hrun', -⟩ := execute_eq_ok hy.ok
  have hloaded := (Machine.twins_start p hstores hone).loadFields hinputs hload hload'
  obtain ⟨γ, htwins⟩ := hloaded.runFrom hfunctions hcode hrun hrun' hpath hkeeps hkeeps'
  obtain ⟨hvalue, rfl, hlow⟩ := hx.final_eq hstrict hrule hb
  obtain ⟨hvalue', rfl, -⟩ := hy.final_eq hstrict hrule hb
  have hrel := (htwins.registers p.outputRegister).value hlow
  rw [hvalue, hvalue'] at hrel
  exact ⟨htwins.stores.datum?_eq hrel, γ, htwins.stores, htwins.oneToOne, hrel.records_of_record⟩

end Config

/-! ## A packet that keeps its tag -/

/-- A packet with eight registers that forbids the tag with number 0 in its output. -/
def Packet.guarded (inputs : List FieldDef) (constants : Array Constant)
    (code : Array Instruction) : Packet where
  contract := { size := 8, inputs, rules := [.forbidTagged 1 0] }
  constants
  code

/-- A packet that puts its secret in a list, loops over the list, and delivers the doubles of other
numbers, which a function has put in reverse order. -/
def Packet.doubling : Packet :=
  .guarded [⟨"numbers", .list, 0, 0⟩, ⟨"secret", .integer, 1, 1⟩]
    #[.string "doubles", .string "list"] #[
    Opcode.newList.on 0 3 0 0,
    Opcode.append.on 0 3 1 0,
    Opcode.iterate.on 2 7 3 0,
    Opcode.collect.on 0 7 7 7,
    Opcode.newRecord.on 0 2 0 0,
    Opcode.iterate.on 0 4 0 1,
    (Opcode.arithmetic .add).on 0 5 4 4,
    Opcode.collect.on 0 6 5 5,
    Opcode.newNamed.on 0 5 1 6,
    Opcode.call.on 0 6 0x32 5,
    Opcode.setNamed.on 0 2 0 6]

/-- An input for it, with a number as the secret. -/
def Store.withNumber : Store :=
  ⟨#[#[.integer 1, .integer 2]], #[⟨[("numbers", .list ⟨0⟩), ("secret", .integer 7)]⟩]⟩

/-- An input with the same numbers and a list as the secret. -/
def Store.withList : Store :=
  ⟨#[#[], #[.integer 1, .integer 2]], #[⟨[("secret", .list ⟨0⟩), ("numbers", .list ⟨1⟩)]⟩]⟩

namespace Config

theorem doubling_hides_secret :
    FunctionTable.standard.Uniform ∧ (∀ i ∈ Packet.doubling.code, i.Direct) ∧
      .forbidTagged 1 0 ∈ Packet.doubling.contract.rules ∧ ¬TagSet.Lacks 0 1 ∧
      Keeps {} .doubling .standard "" 0 ⟨0⟩ .withNumber ∧
      Keeps {} .doubling .standard "" 0 ⟨0⟩ .withList ∧
      ∃ s' t', Delivers {} .doubling .standard "" ⟨0⟩ .withNumber ⟨1⟩ s' ∧
        Delivers {} .doubling .standard "" ⟨0⟩ .withList ⟨1⟩ t' ∧
        s'.datum? (.record ⟨1⟩) = some (.record [("doubles", .list [.integer 4, .integer 2])]) ∧
        s'.datum? (.record ⟨1⟩) = t'.datum? (.record ⟨1⟩) := by
  have hfunctions := FunctionTable.uniform_standard
  have hcode : ∀ i ∈ Packet.doubling.code, i.Direct := by decide +kernel
  have hrule : .forbidTagged 1 0 ∈ Packet.doubling.contract.rules := by decide
  have hb : ¬TagSet.Lacks 0 1 := by decide
  have hkeeps : Keeps {} .doubling .standard "" 0 ⟨0⟩ .withNumber := by decide +kernel
  have hkeeps' : Keeps {} .doubling .standard "" 0 ⟨0⟩ .withList := by decide +kernel
  obtain ⟨s', hx, hrecord, hitems, hsize⟩ : ∃ s',
      Delivers {} .doubling .standard "" ⟨0⟩ .withNumber ⟨1⟩ s' ∧
      s'.record ⟨1⟩ = ⟨[("doubles", .list ⟨3⟩)]⟩ ∧ s'.items ⟨3⟩ = #[.integer 4, .integer 2] ∧
      s'.size = 7 :=
    ⟨_, .of_eq (by decide +kernel) (by decide +kernel), by decide +kernel⟩
  have hy : Delivers {} .doubling .standard "" ⟨0⟩ .withList ⟨1⟩ _ :=
    .of_eq (by decide +kernel) (by decide +kernel)
  let β : Pairing := ⟨fun a b => a = ⟨0⟩ ∧ b = ⟨1⟩, fun _ _ => False⟩
  have hstores : β.Matches .withNumber .withList := by
    refine ⟨?_, nofun, ?_, nofun⟩
    · rintro a b ⟨rfl, rfl⟩
      decide
    · rintro a b ⟨rfl, rfl⟩
      exact .cons (.scalar rfl) (.cons (.scalar rfl) .nil)
  have hone : β.OneToOne := by
    refine ⟨?_, nofun⟩
    rintro a b a' b' ⟨rfl, rfl⟩ ⟨rfl, rfl⟩
    exact ⟨fun _ => rfl, fun _ => rfl⟩
  have hinputs : ∀ f ∈ Packet.doubling.contract.inputs, TagSet.Lacks 0 f.tags →
      β.Rel ((Store.withNumber.record ⟨0⟩).get f.name) ((Store.withList.record ⟨0⟩).get f.name) :=
    List.forall_mem_cons.2 ⟨fun _ => .list ⟨rfl, rfl⟩, List.forall_mem_singleton.2 nofun⟩
  refine ⟨hfunctions, hcode, hrule, hb, hkeeps, hkeeps', s', _, hx, hy, ?_, ?_⟩
  · simp [Store.datum?, Store.datumWithin, hrecord, hitems, hsize]
  · exact (execute_hides_forbidden hfunctions hcode rfl hrule hb hstores hone hinputs hx hy
      (by decide +kernel) hkeeps hkeeps').1

end Config

/-! ## Packets that lose their tag -/

/-- Delivers a record in which it stored the secret by way of a copy of the reference. -/
def Packet.aliasing : Packet :=
  .guarded [⟨"secret", .boolean, 1, 0⟩] #[.string "k"] #[
    Opcode.newRecord.on 0 1 0 0,
    Opcode.copy.on 0 2 1 0,
    Opcode.setNamed.on 0 2 0 0]

/-- Delivers one more than the length of the secret, which it counted in a loop. -/
def Packet.counting : Packet :=
  .guarded [⟨"secret", .list, 1, 0⟩] #[.string "k", .integer 1] #[
    Opcode.newRecord.on 0 1 0 0,
    Opcode.loadConstant.on 0 2 1 0,
    Opcode.loadConstant.on 0 3 1 0,
    Opcode.iterate.on 2 4 0 1,
    (Opcode.arithmetic .add).on 0 3 3 2,
    Opcode.collect.on 0 3 3 3,
    Opcode.setNamed.on 0 1 0 3]

/-- Delivers the secret as what it made of the items of another list. -/
def Packet.collecting : Packet :=
  .guarded [⟨"secret", .boolean, 1, 0⟩] #[.string "k"] #[
    Opcode.newRecord.on 0 1 0 0,
    Opcode.newList.on 0 2 0 0,
    Opcode.append.on 0 2 3 0,
    Opcode.iterate.on 0 4 2 0,
    Opcode.collect.on 0 3 0 0,
    Opcode.setNamed.on 0 1 0 3]

/-- Delivers a record with the secret as a key. -/
def Packet.keying : Packet :=
  .guarded [⟨"secret", .string, 1, 0⟩] #[] #[
    Opcode.newRecord.on 0 1 0 0,
    Opcode.setField.on 0 1 0 2]

/-- Appends to one of two lists and delivers the other. -/
def Packet.appending : Packet :=
  .guarded [⟨"first", .list, 0, 0⟩, ⟨"second", .list, 0, 1⟩] #[.string "k"] #[
    Opcode.newRecord.on 0 2 0 0,
    Opcode.append.on 0 0 3 0,
    Opcode.setNamed.on 0 2 0 1]

/-- An input with a secret. -/
def Store.withSecret (d : Datum) : Store := (Store.placeRecord {} [("secret", d)]).2

/-- An input with two empty lists, or with one that is both. -/
def Store.withLists (shared : Bool) : Store :=
  ⟨#[#[], #[]], #[⟨[("first", .list ⟨0⟩), ("second", .list ⟨if shared then 0 else 1⟩)]⟩]⟩

namespace Config

/-- An execution succeeds, and its output has the tree. -/
def Shows (c : Config) (p : Packet) (functions : FunctionTable) (timestamp : String)
    (input : RecordRef) (store : Store) (d : Datum) : Prop :=
  ∃ output store', c.Delivers p functions timestamp input store output store' ∧
    store'.datum? (.record output) = some d

/-- Two executions of a packet of direct instructions have different outputs, although a rule
forbids a tag, and the inputs show the same tree in every field without the tag. -/
structure Leaks (c : Config) (p : Packet) (functions : FunctionTable) (timestamp : String)
    (b : Nat) (x : RecordRef) (s : Store) (y : RecordRef) (t : Store) (d e : Datum) : Prop where
  direct : ∀ i ∈ p.code, i.Direct
  strict : c.enforcePolicy = true
  forbidden : ∃ mask scope, .forbidTagged mask scope ∈ p.contract.rules ∧ ¬TagSet.Lacks b mask
  trees : (s.datum? (.record x)).isSome ∧ (t.datum? (.record y)).isSome
  agree : ∀ f ∈ p.contract.inputs, TagSet.Lacks b f.tags →
    s.datum? ((s.record x).get f.name) = t.datum? ((t.record y).get f.name)
  first : c.Shows p functions timestamp x s d
  second : c.Shows p functions timestamp y t e
  differ : d ≠ e

/-- For packets with a secret as their only input nothing has to agree. -/
theorem leaks_of_guarded {type : FieldType} {constants : Array Constant} {code : Array Instruction}
    {x y : RecordRef} {s t : Store} {d e : Datum} (direct : ∀ i ∈ code, i.Direct)
    (trees : (s.datum? (.record x)).isSome ∧ (t.datum? (.record y)).isSome)
    (first : Shows {} (.guarded [⟨"secret", type, 1, 0⟩] constants code) .none "" x s d)
    (second : Shows {} (.guarded [⟨"secret", type, 1, 0⟩] constants code) .none "" y t e)
    (differ : d ≠ e) :
    Leaks {} (.guarded [⟨"secret", type, 1, 0⟩] constants code) .none "" 0 x s y t d e where
  direct := direct
  strict := rfl
  forbidden := ⟨1, 0, List.mem_singleton.2 rfl, by decide⟩
  trees := trees
  agree := List.forall_mem_singleton.2 fun hlow =>
    absurd hlow (show ¬TagSet.Lacks 0 1 by decide)
  first := first
  second := second
  differ := differ

/-- A forbidden tag alone does not hide what it marks: it is lost when a container is changed by way
of another register, in the number of times that a loop runs, in what a loop collects and in keys,
and what inputs share shows too. -/
theorem forbidden_tag_leaks :
    Leaks {} .aliasing .none "" 0 ⟨0⟩ (.withSecret (.boolean true)) ⟨0⟩
        (.withSecret (.boolean false)) (.record [("k", .boolean true)])
        (.record [("k", .boolean false)]) ∧
      Leaks {} .counting .none "" 0 ⟨0⟩ (.withSecret (.list [])) ⟨0⟩
        (.withSecret (.list [.nothing])) (.record [("k", .integer 1)])
        (.record [("k", .integer 2)]) ∧
      Leaks {} .collecting .none "" 0 ⟨0⟩ (.withSecret (.boolean true)) ⟨0⟩
        (.withSecret (.boolean false)) (.record [("k", .list [.boolean true])])
        (.record [("k", .list [.boolean false])]) ∧
      Leaks {} .keying .none "" 0 ⟨0⟩ (.withSecret (.string "a")) ⟨0⟩ (.withSecret (.string "b"))
        (.record [("a", .nothing)]) (.record [("b", .nothing)]) ∧
      Leaks {} .appending .none "" 0 ⟨0⟩ (.withLists true) ⟨0⟩ (.withLists false)
        (.record [("k", .list [.nothing])]) (.record [("k", .list [])]) := by
  have hshared : Leaks {} .appending .none "" 0 ⟨0⟩ (.withLists true) ⟨0⟩ (.withLists false)
      (.record [("k", .list [.nothing])]) (.record [("k", .list [])]) :=
    { direct := by decide +kernel
      strict := rfl
      forbidden := ⟨1, 0, List.mem_singleton.2 rfl, by decide⟩
      trees := ⟨rfl, rfl⟩
      agree := List.forall_mem_cons.2 ⟨fun _ => rfl, List.forall_mem_singleton.2 fun _ => rfl⟩
      first := ⟨⟨1⟩, _, ⟨rfl, ⟨1⟩, rfl⟩, rfl⟩
      second := ⟨⟨1⟩, _, ⟨rfl, ⟨1⟩, rfl⟩, rfl⟩
      differ := by simp }
  refine ⟨?_, ?_, ?_, ?_, hshared⟩
  -- The programs are run, on both secrets.
  all_goals
    exact leaks_of_guarded (by decide +kernel) ⟨rfl, rfl⟩ ⟨⟨1⟩, _, ⟨rfl, ⟨1⟩, rfl⟩, rfl⟩
      ⟨⟨1⟩, _, ⟨rfl, ⟨1⟩, rfl⟩, rfl⟩ (by simp)

end Config

end TagMachine
