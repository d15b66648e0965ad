import TagMachine.Machine.Basic

set_option autoImplicit false

/-! # Output and policy

The output of a run is the record in the register behind those of the fields. If there is no
record, the output fields are collected into one. Either way it carries the tags of that register,
and the rules on tags are checked against them.
-/

namespace TagMachine

/-- The output of a run. -/
structure Output where
  record : RecordRef
  tags : TagSet
deriving DecidableEq, Inhabited

namespace Machine

/-- The values of the output fields' registers; a register outside the scratchpad is nothing. -/
def outputFields (m : Machine) (p : Packet) : Record :=
  .ofList (p.contract.outputs.map fun f => (f.name, (m.peek f.register.toNat).value))

def output (m : Machine) (p : Packet) : Output × Store :=
  let slot := m.peek p.outputRegister
  match slot.value with
  | .record ref => (⟨ref, slot.tags⟩, m.store)
  | _ =>
    let (ref, store) := m.store.newRecord (m.outputFields p)
    (⟨ref, slot.tags⟩, store)

end Machine

namespace Contract

/-- What the tags of an output break of a rule. -/
def offence? (c : Contract) (tags : TagSet) (rule : Rule) : Option Violation :=
  match rule with
  | .forbidTagged forbidden _ =>
    let bits := tags &&& forbidden
    if bits = 0 then none
    else some ⟨bits, c.tagNames bits, (c.sanitizersFor bits).map SanitizerDef.name⟩
  | _ => none

/-- What the tags of an output break of the first rule that they break. -/
def violation? (c : Contract) (tags : TagSet) : Option Violation :=
  c.rules.findSome? (c.offence? tags)

/-- Whether an output may leave: its tags break no rule, or rules are not enforced. -/
def validate (c : Contract) (strict : Bool) (tags : TagSet) : Except Error Unit :=
  match c.violation? tags with
  | some v => if strict then .error (.policy v) else .ok ()
  | none => .ok ()

end Contract

end TagMachine
