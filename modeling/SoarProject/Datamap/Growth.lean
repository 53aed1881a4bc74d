import SoarProject.Datamap.Triple
import SoarProject.Failure

/-!
# Terminal paths

From the triples of the rules of a problem space, path growth selects paths that together show what
the rules use. A path is selected if it cannot go on, runs into itself or meets a selected one, and
if it tells something that the selected paths do not. Triples are looked at again and again, in
their order, until no path is added.
-/

namespace SoarProject

namespace Triple

/-- The variables that the triples of a path start from. -/
def subjects (path : List Triple) : List String := path.map (·.subject)

/-- Whether two paths agree as far as the shorter one goes. -/
def redundant : List Triple → List Triple → Bool
  | a :: as, b :: bs => a.same b && redundant as bs
  | _, _ => true

/-- What a path has left where it leaves another one; nothing if it follows it to the end of either
path. -/
def divergence? : List Triple → List Triple → Option (List Triple)
  | a :: as, b :: bs => if a.same b then divergence? as bs else some (a :: as)
  | _, _ => none

/-- Whether a path leaves another one and then comes back to one of its variables before its last
triple. -/
def collides (path existing : List Triple) : Bool :=
  match divergence? path.dropLast existing with
  | some rest => rest.any (·.isAmong (subjects existing))
  | none => false

/-- Whether another access has the value that a path ends with. -/
def convergesOn (last other : Triple) : Bool :=
  other.value.agrees last.value && !other.same last

/-- The first triple of a path that has the value another path ends with. -/
def loopsInto? (path existing : List Triple) : Except Failure (Option Triple) :=
  match path.getLast? with
  | none => .error .emptyPath
  | some last => .ok (if last.isLink then existing.find? last.convergesOn else none)

end Triple

/-- A selected path. -/
structure TerminalPath where
  /-- The places of its triples. -/
  path : List Nat
  /-- Triples of paths selected before that end in the same variable. -/
  links : List Nat
  deriving DecidableEq

namespace Network

/-- A selected path as a text. -/
def pathText (n : Network) (p : TerminalPath) : String :=
  Triple.listText (n.steps p.path) ++
    if p.links.isEmpty then "" else ", loops to: " ++ Triple.listText (n.steps p.links)

/-- The places in selected paths where they meet a path to a triple. -/
def linksInto (n : Network) (accepted : List TerminalPath) (i : Nat) : List Nat :=
  if (n.triple i).isLink then
    accepted.filterMap fun a => a.path.find? fun j => (n.triple i).convergesOn (n.triple j)
  else []

/-- Whether a path to a triple may be selected: it cannot go on, runs into itself, or meets a
selected path. -/
def isCandidate (n : Network) (accepted : List TerminalPath) (i : Nat) (path : List Nat) : Bool :=
  let t := n.triple i
  !t.isLink || (n.node i).children.isEmpty ||
    t.isAmong (Triple.subjects (n.steps path)) || !(n.linksInto accepted i).isEmpty

/-- Whether a path would come back to a selected one, or tells nothing new. -/
def isRefused (n : Network) (accepted : List TerminalPath) (path : List Nat) : Bool :=
  accepted.any (fun a => Triple.collides (n.steps path) (n.steps a.path)) ||
    accepted.any fun a => Triple.redundant (n.steps path) (n.steps a.path)

/-- Select a path to a triple, if it qualifies. -/
def consider (n : Network) (i : Nat) (accepted : List TerminalPath) (path : List Nat) :
    List TerminalPath :=
  if n.isCandidate accepted i path && !n.isRefused accepted path then
    accepted ++ [⟨path, n.linksInto accepted i⟩]
  else accepted

/-- Look once at each triple. Gives the triples no path to which was selected, and the selected
paths. -/
def pass (n : Network) : List Nat → List TerminalPath → List Nat × List TerminalPath
  | [], accepted => ([], accepted)
  | i :: rest, accepted =>
    let grown := (n.pathsTo i).foldl (n.consider i) accepted
    let (remaining, final) := n.pass rest grown
    (if grown.length = accepted.length then i :: remaining else remaining, final)

/-- Repeat until a pass selects nothing. -/
def grow (n : Network) (working : List Nat) (accepted : List TerminalPath) :
    List TerminalPath :=
  let (remaining, grown) := n.pass working accepted
  if remaining.length < working.length then n.grow remaining grown else grown
termination_by working.length

/-- The selected paths, in the order of their selection. -/
def terminalPaths (n : Network) : List TerminalPath := n.grow (List.range n.size) []

end Network

end SoarProject
