import SoarProject.Statement.Execution
import SoarProject.Statement.Named

/-!
# Prepared statements

A statement whose parameters, numbered from one, get their values one by one. It can be executed once
every parameter has a value, any number of times until it is closed.
-/

namespace SoarProject

/-- A statement with the values of its parameters. -/
structure PreparedStatement where
  /-- The text of the statement. -/
  sql : String
  /-- The values given so far, by the numbers of the parameters. -/
  bound : List (Nat × Value) := []
  /-- Whether the statement is closed. -/
  isClosed : Bool := false

namespace PreparedStatement

/-- Prepare the text of a statement. -/
def ofText (sql : String) : PreparedStatement := { sql }

/-- The number of parameters. -/
def parameterCount (p : PreparedStatement) : Nat := (Statement.numberParameters p.sql).2

/-- Give a parameter a value. -/
def set (p : PreparedStatement) (index : Int) (v : Value) : Except Failure PreparedStatement :=
  if p.isClosed then .error .statementClosed
  else if index < 1 ∨ p.parameterCount < index then
    .error (.parameterIndex index p.parameterCount)
  else .ok { p with bound := (index.toNat, v) :: p.bound }

/-- An integer for a parameter. Fractions are cut off, and texts are read. -/
def toInteger : Value → Except Failure Int
  | .bool b => .ok (if b then 1 else 0)
  | .int n => .ok n
  | .float x =>
    match Number.decode x with
    | .finite negative mantissa exponent =>
      let n : Int := ↑(mantissa <<< exponent.toNat >>> (-exponent).toNat)
      .ok (if negative then -n else n)
    | .infinite _ => .error .integerOfInfinity
    | .nan => .error .integerOfNan
  | .text s =>
    match Number.readInt s with
    | .ok n => .ok n
    | .error (.tooLong digits) => .error (.integerTooLong digits)
    | .error .malformed => .error (.notAnInteger s)
  | v => .error (.noInteger v.kindName)

/-- A floating-point number for a parameter. -/
def toNumber : Value → Except Failure Float
  | .bool b => .ok (if b then 1.0 else 0.0)
  | .int n =>
    let x := Float.ofInt n
    if x.isInf then .error .floatOfLargeInteger else .ok x
  | .float x => .ok x
  | .text s =>
    match Number.readFloat? s with
    | some x => .ok x
    | none => .error (.notAFloat s)
  | v => .error (.noFloat v.kindName)

/-- Give a parameter an integer. -/
def setInteger (p : PreparedStatement) (index : Int) (v : Value) :
    Except Failure PreparedStatement := do
  p.set index (.int (← toInteger v))

/-- Give a parameter a floating-point number. -/
def setNumber (p : PreparedStatement) (index : Int) (v : Value) :
    Except Failure PreparedStatement := do
  p.set index (.float (← toNumber v))

/-- Give a parameter a text, or any other value as it is. -/
def setText (p : PreparedStatement) (index : Int) (v : Value) :
    Except Failure PreparedStatement :=
  p.set index v

/-- The numbers of the parameters without a value. -/
def missing (p : PreparedStatement) : List Nat :=
  ((List.range p.parameterCount).map (· + 1)).filter fun i => (p.bound.lookup i).isNone

/-- The values of the parameters in their order; all must have one. -/
def parameters (p : PreparedStatement) : Except Failure (List Value) :=
  if p.isClosed then .error .statementClosed
  else if p.missing.isEmpty then
    .ok ((List.range p.parameterCount).map fun i => (p.bound.lookup (i + 1)).getD .null)
  else .error (.unbound p.missing p.sql)

/-- Close a statement; its values are forgotten. -/
def close (p : PreparedStatement) : PreparedStatement := { p with bound := [], isClosed := true }

/-- The name under which the parameter of a number gets its value. -/
def parameterName (i : Nat) : String := "p" ++ toString (i + 1)

/-- The values of named parameters; each name must be that of a parameter. -/
def valuesOf (parameters : List Value) (names : List String) : Except Failure (List Value) :=
  let named := parameters.zipIdx.map fun (v, i) => (parameterName i, v)
  names.mapM fun name =>
    match named.lookup name with
    | some v => .ok v
    | none => .error (.storage .unboundName)

/-- Run the statement on a store. -/
def run (p : PreparedStatement) (parameters : List Value) (store : Store) :
    Except Failure (Store × Statement.Outcome) := do
  let (text, names) := Statement.Named.ofText (Statement.numberParameters p.sql).1
  Statement.execute text (← valuesOf parameters names) store

/-- The name under which a column is shown: what follows the last point. -/
def shownName (name : String) : String := (name.splitOn ".").getLast?.getD name

/-- Execute the statement and announce that, also if it only shows records. -/
def execute (p : PreparedStatement) : Change Unit := do
  let parameters ← Change.ofExcept p.parameters
  let _ ← Change.alter (p.run parameters) (·.wrote)
  Change.announce .databaseChanged

/-- Show the records that the statement selects. Another statement is carried out, without being
announced, and then it turns out that there is nothing to show. -/
def query (p : PreparedStatement) : Change (List Fields) := do
  let parameters ← Change.ofExcept p.parameters
  match (← Change.alter (p.run parameters) (·.wrote)).shown with
  | some records => return records.map fun record => record.map fun (name, c) => (shownName name, c)
  | none => throw (.storage .noRecords)

end PreparedStatement

end SoarProject
