import TagMachine.Machine.Basic

set_option autoImplicit false

/-! # Configuration -/

namespace TagMachine

/-- How packets are executed. -/
structure Config where
  limits : Limits := {}
  /-- The time that the tests of a packet run at. -/
  defaultTimestamp : String := "2024-01-01T00:00:00Z"
  /-- Whether an output that breaks a rule is refused. -/
  enforcePolicy : Bool := true
deriving DecidableEq, Inhabited

end TagMachine
