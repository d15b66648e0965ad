import TagMachine.Builtin.Arguments
import TagMachine.Value.Convert

set_option autoImplicit false

/-! # Functions that convert between kinds -/

namespace TagMachine.Builtin

def toText : Builtin := fun args => giveText (args.store.text (args.value "value"))

def toFloat : Builtin := fun args => (args.value "value").toFloat.map fun x => .value (.float x)

/-- The integer a value stands for, unless it is a truth value. -/
def toInteger : Builtin := fun args =>
  match args.value "value" with
  | .boolean _ => .error (.type .booleanToInteger)
  | v => v.toInteger.map fun n => .value (.integer n)

end TagMachine.Builtin
