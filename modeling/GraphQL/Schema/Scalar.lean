import GraphQL.Error.Coercion
import GraphQL.Schema.Declaration

/-!
# Coercion of scalars

Each scalar has a rule for values that come in, from literals and variables, and one for results that go out. The
rules for results are more generous: a string, for instance, is made of any other leaf.
-/

namespace GraphQL

/-- Doubles below this magnitude, which is `2 ^ 53`, stand for integers exactly. -/
def exactIntegers : Nat := 0x20000000000000

/-- The integer that a double stands for. -/
def exactInteger? (x : Binary64) : Option Int64 :=
  match x.toInt? with
  | some i => if i.natAbs < exactIntegers then some (Int64.ofInt i) else none
  | none => none

/-- An integer of 32 bits. -/
def fitsInt32 (i : Int64) : Bool := -0x80000000 ≤ i.toInt && i.toInt < 0x80000000

/-- The coercion to integers; `wide` tells that 64 bits are available. -/
def coerceInteger (wide : Bool) (target : String) (v : Value) : Except CoercionError Value :=
  let check (i : Int64) : Except CoercionError Value :=
    if wide || fitsInt32 i then .ok (.int i) else .error (.outOfRange v target)
  match v with
  | .null => .ok .null
  | .int i => check i
  | .float x =>
    match exactInteger? x with
    | some i => check i
    | none => .error (.wrongKind v target)
  | _ => .error (.wrongKind v target)

/-- The coercion to doubles. -/
def coerceFloat (v : Value) : Except CoercionError Value :=
  match v with
  | .null => .ok .null
  | v =>
    match v.asFloat? with
    | some x => .ok (.float x)
    | none => .error (.wrongKind v "Float")

/-- The time in Greenwich that a value stands for: a time, seconds since 1970, or a text. -/
def timeOf? : Value → Option Timestamp
  | .time t => some t.toUniversal
  | .int seconds => Timestamp.ofEpoch? seconds.toInt 0
  | .float seconds => Timestamp.ofFloat? seconds
  | .string text => (Timestamp.parse? text).map Timestamp.toUniversal
  | _ => none

/-- The coercion to times, which `result` turns into a value. -/
def coerceTime (result : Timestamp → Value) (v : Value) : Except CoercionError Value :=
  match v with
  | .null => .ok .null
  | v =>
    match timeOf? v with
    | some t => .ok (result t)
    | none => .error (.wrongKind v "Time")

namespace ScalarKind

/-- Coerces a literal or the value of a variable. -/
def coerceIn (kind : ScalarKind) (v : Value) : Except CoercionError Value :=
  match kind with
  | int => coerceInteger false "Int" v
  | int64 => coerceInteger true "Int64" v
  | float => coerceFloat v
  | boolean =>
    match v with
    | .null | .bool _ => .ok v
    | _ => .error (.wrongKind v "Boolean")
  | string =>
    match v with
    | .null | .string _ => .ok v
    | _ => .error (.wrongKind v "String")
  | id =>
    match v with
    | .null | .string _ => .ok v
    | .int i => .ok (.string (IntText.display i))
    | _ => .error (.wrongKind v "ID")
  | time => coerceTime .time v
  | any => .ok v

/-- Coerces a result. -/
def coerceOut (kind : ScalarKind) (v : Value) : Except CoercionError Value :=
  match kind with
  | int => coerceInteger false "Int" v
  | int64 => coerceInteger true "Int64" v
  | float => coerceFloat v
  | boolean =>
    match v with
    | .null | .bool _ => .ok v
    | .int i => .ok (.bool (i != 0))
    | .float x => .ok (.bool !x.isZero)
    | .string text =>
      if text = "true" then .ok (.bool true)
      else if text = "false" then .ok (.bool false)
      else .error (.wrongKind v "Boolean")
    | _ => .error (.wrongKind v "Boolean")
  | string =>
    match v with
    | .null | .string _ => .ok v
    | .enum symbol => .ok (.string symbol)
    | .bool b => .ok (.string (if b then "true" else "false"))
    | .int i => .ok (.string (IntText.display i))
    | .float x => .ok (.string (FloatText.display x))
    | .time t => .ok (.string t.text)
    | _ => .error (.wrongKind v "String")
  | id =>
    match v with
    | .null | .string _ => .ok v
    | .enum symbol => .ok (.string symbol)
    | .int i => .ok (.string (IntText.display i))
    | .float x =>
      match exactInteger? x with
      | some i => .ok (.string (IntText.display i))
      | none => .error (.wrongKind v "ID")
    | _ => .error (.wrongKind v "ID")
  | time => coerceTime (fun t => .string t.text) v
  | any => .ok v

end ScalarKind

end GraphQL
