import TagMachine.Config.Basic
import TagMachine.Machine.Output
import TagMachine.Machine.Run

set_option autoImplicit false

/-! # Executing packets

`Config.execute` runs a packet on an input record. `Config.executeJson` does so on JSON texts, and
`Config.runFixtures` on the tests that a packet carries.
-/

namespace TagMachine.Config

/-- What a run with a configuration reads. -/
def setting (c : Config) (p : Packet) (functions : FunctionTable) (timestamp : String) :
    Setting :=
  ⟨p, functions, timestamp, c.limits⟩

/-- Runs a packet on an input record, and gives its output and the store afterwards. -/
def execute (c : Config) (p : Packet) (functions : FunctionTable) (timestamp : String)
    (input : RecordRef) (store : Store) : Except Error RecordRef × Store :=
  match (Machine.start p store).loadInputs p (store.record input) with
  | (.error e, m) => (.error e, m.store)
  | (.ok (), m) =>
    let (outcome, m) := m.run (c.setting p functions timestamp)
    match outcome.toExcept with
    | .error e => (.error e, m.store)
    | .ok () =>
      let (output, store) := m.output p
      match p.contract.validate c.enforcePolicy output.tags with
      | .error e => (.error e, store)
      | .ok () => (.ok output.record, store)

/-- Runs a packet on a JSON object, and gives its output as JSON. -/
def executeJson (c : Config) (p : Packet) (functions : FunctionTable) (timestamp : String)
    (text : String) : Except Error String := do
  let fields ← Json.readRecord text
  let (input, store) := Store.placeRecord {} fields
  let (result, store) := c.execute p functions timestamp input store
  return store.jsonText (.record (← result))

/-! ## Tests of a packet -/

/-- How a test of a packet went. -/
structure FixtureOutcome where
  name : String
  /-- The output, or what went wrong. -/
  result : Except Error String
  passed : Bool

def readJson (text : String) : Except Error Datum :=
  match Json.read text with
  | .ok d => .ok d
  | .error e => .error (.json e)

/-- Whether two trees show equal values. -/
def showEqual (a b : Datum) : Bool :=
  let (v, store) := Store.place {} a
  let (w, store) := store.place b
  store.equal v w

/-- The output of a test, and whether it is the expected one. -/
def checkFixture (c : Config) (p : Packet) (functions : FunctionTable) (f : Fixture) :
    Except Error (String × Bool) := do
  let expected ← readJson f.output
  let actual ← c.executeJson p functions c.defaultTimestamp f.input
  return (actual, showEqual (← readJson actual) expected)

def runFixture (c : Config) (p : Packet) (functions : FunctionTable) (f : Fixture) :
    FixtureOutcome :=
  match c.checkFixture p functions f with
  | .ok (actual, passed) => ⟨f.name, .ok actual, passed⟩
  | .error e => ⟨f.name, .error e, false⟩

def runFixtures (c : Config) (p : Packet) (functions : FunctionTable) : List FixtureOutcome :=
  p.fixtures.map (c.runFixture p functions)

end TagMachine.Config

namespace TagMachine.Packet

def checkDependencies (p : Packet) (functions : FunctionTable) : Except Error Unit :=
  match p.dependencies.find? fun id =>
    id != Machine.identityFunction && !functions.provides id with
  | some id => .error (.unknownFunction id)
  | none => .ok ()

end TagMachine.Packet
