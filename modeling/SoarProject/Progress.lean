import SoarProject.Failure

/-!
# Progress reports

A long task reports its progress as a list of reports. `ProgressLog` turns them into log lines. An
amount of work is a number, whole or not; a truth value counts as zero or one. What is no amount is
refused once it is counted.
-/

namespace SoarProject

/-- The total of a task whose amount of work is not known. -/
def unknownWork : Int := -1

/-- A report of a long task. -/
inductive ProgressReport where
  /-- The task begins, with an expected amount of work. -/
  | beginTask (name : Value) (total : Value)
  /-- A part of the task begins. -/
  | subTask (name : Value)
  /-- Some work is done. -/
  | worked (units : Value)
  /-- The task is done. -/
  | done

/-- The number that an amount of work stands for, whole or not, if it is one. -/
def Value.toReal? : Value → Option Float
  | .float x => some x
  | v => v.toIndex?.map Float.ofInt

/-- The sum of two amounts of work, whole if both are. -/
def Value.plus (a b : Value) : Except Failure Value :=
  match a.toIndex?, b.toIndex?, a.toReal?, b.toReal? with
  | some m, some n, _, _ => .ok (.int (m + n))
  | m?, n?, some x, some y =>
    if (m?.isSome && x.isInf) || (n?.isSome && y.isInf) then .error .floatOfLargeInteger
    else .ok (.float (x + y))
  | _, _, _, _ => .error (.notAddable a.kindName b.kindName)

/-- Whether an amount of work is more than nothing. -/
def Value.isPositive (v : Value) : Except Failure Bool :=
  match v.toIndex?, v.toReal? with
  | some n, _ => .ok (0 < n)
  | none, some x => .ok (0.0 < x)
  | none, none => .error (.notComparable v.kindName)

/-- The state of a log of progress. -/
structure ProgressLog where
  /-- The task; null until one begins. -/
  task : Value := .null
  /-- The expected amount of work. -/
  total : Value := .int unknownWork
  /-- The work done. -/
  completed : Value := .int 0

namespace ProgressLog

/-- Take a report into account; gives the new state and a line to be logged. How much work is done is
logged only if its expected amount is known. -/
def report (l : ProgressLog) : ProgressReport → Except Failure (ProgressLog × Option String)
  | .beginTask name total => .ok (⟨name, total, .int 0⟩, some (name.shown ++ " started"))
  | .subTask name => .ok (l, some (l.task.shown ++ ": " ++ name.shown))
  | .worked units => do
    let l := { l with completed := ← l.completed.plus units }
    let line := l.task.shown ++ ": " ++ l.completed.shown ++ "/" ++ l.total.shown
    return (l, if ← l.total.isPositive then some line else none)
  | .done => .ok (l, some (l.task.shown ++ " done"))

end ProgressLog

/-- The threshold that stands in for zero. -/
def inheritedThreshold : Int := 50

/-- Whether a log with a threshold takes lines of a level. It never takes those of level zero or
below. -/
def isLogged (threshold level : Int) : Bool :=
  0 < level && (if threshold = 0 then inheritedThreshold else threshold) ≤ level

/-- The name of a level of log lines. -/
def logLevelName (level : Int) : String :=
  if level = 10 then "DEBUG"
  else if level = 20 then "INFO"
  else if level = 40 then "ERROR"
  else "Level " ++ toString level

end SoarProject
