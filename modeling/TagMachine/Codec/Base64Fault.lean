set_option autoImplicit false

/-! # Faults of Base64 texts -/

namespace TagMachine.Codec

/-- What is wrong with a text that is not Base64; offsets count bytes. -/
inductive Base64Fault where
  | symbol (offset : Nat) (byte : UInt8)
  | length (size : Nat)
  /-- The last symbol of a short group has bits that no byte uses. -/
  | lastSymbol (offset : Nat) (byte : UInt8)
  | padding
deriving DecidableEq

/-- The wording of a fault. -/
def Base64Fault.message : Base64Fault → String
  | symbol offset byte => s!"Invalid symbol {byte}, offset {offset}."
  | length size => s!"Invalid input length: {size}"
  | lastSymbol offset byte => s!"Invalid last symbol {byte}, offset {offset}."
  | padding => "Invalid padding"

end TagMachine.Codec
