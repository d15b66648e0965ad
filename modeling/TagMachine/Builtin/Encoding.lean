import TagMachine.Builtin.Arguments
import TagMachine.Codec.Base64
import TagMachine.Codec.Form
import TagMachine.Digest.Sha256
import TagMachine.Json.Read
import TagMachine.Json.Write
import TagMachine.Text.Blank

set_option autoImplicit false

/-! # Functions on encodings, digests and identifiers -/

namespace TagMachine.Builtin

def bytes (args : Arguments) (name : String) : List UInt8 := Text.toUtf8 (args.text name)

def base64Encode : Builtin := fun args =>
  giveText (Text.ofUtf8 (Codec.Base64.encode (bytes args "value")))

def base64Decode : Builtin := fun args =>
  match Codec.Base64.decode (bytes args "value") with
  | .ok decoded => giveText (Text.ofUtf8 decoded)
  | .error fault => .error (.domain (.base64 fault))

def urlEncode : Builtin := fun args => giveText (Codec.Form.encode (args.text "value"))

def urlDecode : Builtin := fun args => giveText (Codec.Form.decode (args.text "value"))

def jsonEncode : Builtin := fun args => giveText (args.store.jsonText (args.value "value"))

/-- The value of a JSON text; a blank text is nothing. -/
def jsonParse : Builtin := fun args =>
  let text := Text.trim (args.text "value")
  if text.isEmpty then give .nothing
  else
    match Json.read text with
    | .ok d => .ok d.blueprint
    | .error e => .error (.domain (.json e))

def sha256 : Builtin := fun args =>
  giveText (Sha256.hex (Sha256.digest (bytes args "value")))

def hmacSha256 : Builtin := fun args =>
  giveText (Sha256.hex (Sha256.hmac (bytes args "key") (bytes args "value")))

/-- The sixteen bytes of a random identifier: the version and the variant are marked, and the
rest comes from a digest of what tells calls apart. -/
def uuidBytes (context : CallContext) : List UInt8 :=
  let seed := Text.toUtf8 (context.timestamp ++ "#" ++ decimalDigits context.serial)
  ((Sha256.digest seed).take 16).mapIdx fun i b =>
    if i = 6 then (b &&& 0x0f) ||| 0x40
    else if i = 8 then (b &&& 0x3f) ||| 0x80
    else b

/-- An identifier in groups of 8, 4, 4, 4 and 12 digits. -/
def uuid : Builtin := fun args =>
  let digits := (Sha256.hex (uuidBytes args.context)).toList
  let group (start stop : Nat) : String := String.ofList ((digits.take stop).drop start)
  giveText (String.intercalate "-"
    [group 0 8, group 8 12, group 12 16, group 16 20, group 20 32])

end TagMachine.Builtin
