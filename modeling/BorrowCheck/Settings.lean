import BorrowCheck.Json.Reader
import BorrowCheck.Json.Shown
import BorrowCheck.Policy

/-!
# Settings

A policy is written as a JSON object with the members `copy_types`, `extra_copy_types`,
`container_types` and `max_workers`, all optional. The first and the third replace the types of
the default policy, the second adds to them.

Types may come as a list, as an object, whose member names count, or as a text, each of whose
characters counts. An **entry** of a list can be any scalar. One that is no text names no type, so
it does not reach the policy (`BorrowCheck.Settings.policy`), but the settings show it again
(`BorrowCheck.Settings.arranged`).
-/

namespace BorrowCheck

open Text (CodePoint)

/-! ### Entries -/

namespace Json.Scalar

/-- The whole number that a scalar counts as: the truth values are one and zero. -/
def whole? : Scalar → Option Int
  | bool value => some (if value then 1 else 0)
  | int value => some value
  | _ => none

/-- Whether two scalars are one entry: texts with the same code points, numbers with the same
value. -/
def same : Scalar → Scalar → Bool
  | null, null => true
  | str a, str b => a = b
  | float x, float y => x == y
  | float x, b => b.whole?.any fun n => x == Float.ofInt n
  | a, float y => a.whole?.any fun m => y == Float.ofInt m
  | a, b => a.whole?.isSome && a.whole? = b.whole?

/-- Whether an entry comes before another one or is the same, when they can be compared: texts by
the numbers of their code points, numbers by value. -/
def atMost? : Scalar → Scalar → Option Bool
  | str a, str b => some (Text.atMost a b)
  | float x, float y => some (x ≤ y)
  | float x, b => b.whole?.map fun n => x ≤ Float.ofInt n
  | a, float y => a.whole?.map fun m => Float.ofInt m ≤ y
  | a, b => do return (← a.whole?) ≤ (← b.whole?)

/-- The type that an entry names. -/
def typeName? : Scalar → Option String
  | str text => Text.string? text
  | _ => none

end Json.Scalar

/-- The word for the kind of a value in messages. -/
def Json.kindWord : Json → String
  | .scalar .null => "NoneType"
  | .scalar (.bool _) => "bool"
  | .scalar (.int _) => "int"
  | .scalar (.float _) => "float"
  | .scalar (.str _) => "str"
  | .arr _ => "list"
  | .obj _ => "dict"

/-- What settings say. The entries of the two lists are different and stand in the order in which
they were given. -/
structure Settings where
  copyTypes : List Json.Scalar
  containerTypes : List Json.Scalar
  workers : Nat
  one_le_workers : 1 ≤ workers

namespace Settings

open Json (Scalar)

/-! ### Refusals -/

/-- Why settings are refused, or cannot be shown. -/
inductive Refusal where
  /-- Members that no settings have, in increasing order. -/
  | unknownMembers (names : List (List CodePoint))
  /-- A value that has no elements in place of types. -/
  | noElements (value : Json)
  /-- A list or object among the types. -/
  | compoundEntry (value : Json)
  | workersNotInteger (value : Json)
  | tooFewWorkers (count : Int)
  /-- Two entries that cannot be put in order. -/
  | unordered (a b : Scalar)
  /-- The text of a file is JSON, but not an object. -/
  | notObject (file : String)
  /-- The text of a file is not JSON. -/
  | notJson
  /-- The text of a file has a whole number with too many digits. -/
  | longNumber (digits : Nat)

/-- The message of a refusal. That a text is not JSON has no message of its own. -/
def Refusal.message : Refusal → String
  | unknownMembers names =>
    "unknown verifier config keys: " ++ ", ".intercalate (names.map Text.display)
  | noElements v => "'" ++ v.kindWord ++ "' object is not iterable"
  | compoundEntry v => "unhashable type: '" ++ v.kindWord ++ "'"
  | workersNotInteger v => "max_workers must be an integer, got " ++ v.shown
  | tooFewWorkers n => "max_workers must be >= 1, got " ++ toString n
  | unordered a b =>
    "'<' not supported between instances of '" ++ (Json.scalar a).kindWord ++ "' and '" ++
      (Json.scalar b).kindWord ++ "'"
  | notObject file => file ++ ": expected a JSON object at top level"
  | notJson => ""
  | longNumber digits => Text.tooManyDigits digits

/-! ### Decoding -/

/-- The entries among the elements of a list. -/
def entriesOfElements : List Json → Except Refusal (List Scalar)
  | [] => .ok []
  | .scalar s :: vs => do return s :: (← entriesOfElements vs)
  | v :: _ => .error (.compoundEntry v)

/-- The entries that a value gives. -/
def entriesOf : Json → Except Refusal (List Scalar)
  | .scalar (.str text) => .ok (text.map fun p => .str [p])
  | .arr vs => entriesOfElements vs
  | .obj ms => .ok (ms.map fun m => .str m.1)
  | v => .error (.noElements v)

/-- The entries that name the given types. -/
def entriesFor (names : List String) : List Scalar :=
  names.map fun name => .str (Text.points name)

/-- The entries that an optional member gives. -/
def entriesOr (fallback : List String) : Option Json → Except Refusal (List Scalar)
  | none => .ok (entriesFor fallback)
  | some v => entriesOf v

/-- The entries without repetitions, each where it occurs first. -/
def distinct (entries : List Scalar) : List Scalar :=
  entries.foldl (fun kept s => if kept.any s.same then kept else kept ++ [s]) []

/-- The members that settings may have. -/
def knownMembers : List (List CodePoint) :=
  ["copy_types", "extra_copy_types", "container_types", "max_workers"].map Text.points

/-- The settings with the given entries and number of workers. -/
def withWorkers (copyTypes containerTypes : List Scalar) : Json → Except Refusal Settings
  | .scalar (.int n) =>
    if h : 1 ≤ n then
      .ok
        { copyTypes := distinct copyTypes
          containerTypes := distinct containerTypes
          workers := n.toNat
          one_le_workers := by omega }
    else
      .error (.tooFewWorkers n)
  | v => .error (.workersNotInteger v)

/-- What the members of an object say. -/
def ofMembers (members : List (List CodePoint × Json)) : Except Refusal Settings := do
  let unknown := (members.map (·.1)).filter fun name => !knownMembers.contains name
  if !unknown.isEmpty then
    throw (.unknownMembers (unknown.mergeSort Text.atMost))
  let standard : Policy := {}
  let member? (name : String) : Option Json := (Json.obj members).get? name
  let copyTypes ← entriesOr standard.copyTypes (member? "copy_types")
  let extra ← entriesOr [] (member? "extra_copy_types")
  let containerTypes ← entriesOr standard.containerTypes (member? "container_types")
  withWorkers (copyTypes ++ extra) containerTypes
    ((member? "max_workers").getD (.scalar (.int 1)))

/-- What the text of a settings file says. -/
def ofFile (file contents : String) : Except Refusal Settings :=
  match Json.parse contents with
  | .error .malformed => .error .notJson
  | .error (.longNumber digits) => .error (.longNumber digits)
  | .ok (.obj members) => ofMembers members
  | .ok _ => .error (.notObject file)

/-! ### What settings mean and how they are shown -/

/-- The policy that settings settle. -/
def policy (s : Settings) : Policy :=
  { copyTypes := s.copyTypes.filterMap Scalar.typeName?
    containerTypes := s.containerTypes.filterMap Scalar.typeName?
    workers := s.workers
    one_le_workers := s.one_le_workers }

/-- The first two neighbours that cannot be compared, the later one first. -/
def uncomparable? : List Scalar → Option (Scalar × Scalar)
  | a :: b :: entries => if (a.atMost? b).isNone then some (b, a) else uncomparable? (b :: entries)
  | _ => none

/-- The entries in increasing order. A single entry needs no comparison. -/
def inOrder (entries : List Scalar) : Except Refusal (List Scalar) :=
  match uncomparable? entries with
  | some (a, b) => .error (.unordered a b)
  | none => .ok (entries.mergeSort fun a b => (a.atMost? b).getD false)

/-- The settings with the entries of both lists in increasing order. -/
def arranged (s : Settings) : Except Refusal Settings := do
  return { s with
    copyTypes := ← inOrder s.copyTypes
    containerTypes := ← inOrder s.containerTypes }

end Settings

end BorrowCheck
