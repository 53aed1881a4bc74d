import SoarProject.Store.Cell

/-!
# Triples

A rule reads and writes attributes: `(<s> ^io <io>)` says that the attribute `io` of `<s>` has the
value `<io>`. A triple is one such access. A network links the triples of a rule: a triple is a
parent of another one if its value is the variable that the other one starts from. The chains of
parents that begin at a state are the paths by which the rule reaches a triple.

Two triples are the same access if their variables, attributes and values agree. The triples that a
rule is read into have texts as values; a triple that is asked about may have a number.
-/

namespace SoarProject

/-- What the value of a triple is. -/
inductive TripleKind where
  /-- A variable, which stands for an identifier. -/
  | identifier
  | integer
  | float
  | string
  deriving DecidableEq, Inhabited

namespace TripleKind

/-- The name of a kind. -/
def name : TripleKind → String
  | .identifier => "VARIABLE"
  | .integer => "INTEGER"
  | .float => "FLOAT"
  | .string => "STRING"

/-- Read the name of a kind. -/
def ofName? (s : String) : Option TripleKind :=
  [identifier, integer, float, string].find? (·.name == s)

end TripleKind

/-- One access to an attribute. -/
structure Triple where
  /-- The variable whose attribute is accessed. -/
  subject : String
  /-- The attribute. -/
  attributeName : String
  /-- The value. -/
  value : Cell
  /-- What the value is. -/
  kind : TripleKind
  /-- Whether the variable is bound to a state. -/
  isState : Bool := false
  deriving DecidableEq, Inhabited

namespace Triple

/-- Whether two triples are the same access. -/
def same (a b : Triple) : Bool :=
  a.subject == b.subject && a.attributeName == b.attributeName && a.value.agrees b.value

/-- Whether the value is a variable. -/
def isLink (t : Triple) : Bool := t.kind == .identifier

/-- Whether the value of a triple is spelled like one of some variables. -/
def isAmong (t : Triple) (subjects : List String) : Bool := subjects.any (t.value == .text ·)

/-- Whether a triple leads to the variable of another one. -/
def leadsTo (parent child : Triple) : Bool := parent.isLink && parent.isAmong [child.subject]

/-- The triple as it is written in a rule. -/
def text (t : Triple) : String :=
  "(" ++ t.subject ++ " ^" ++ t.attributeName ++ " " ++ t.value.shown ++ ")"

/-- Several triples. -/
def listText (ts : List Triple) : String := "[" ++ ", ".intercalate (ts.map text) ++ "]"

end Triple

/-- A triple among others, which are given by their places in the list. -/
structure Node where
  /-- The triple. -/
  triple : Triple
  /-- The triples that lead to it. -/
  parents : List Nat := []
  /-- The triples that it leads to. -/
  children : List Nat := []
  deriving DecidableEq, Inhabited

/-- Triples with the links between them. -/
structure Network where
  /-- The triples in their order. -/
  nodes : List Node := []
  deriving DecidableEq

namespace Network

/-- The places in a list of triples that meet a condition; of several with the same access only the
first. -/
def placesWhere (ts : List Triple) (p : Triple → Bool) : List Nat :=
  let found := (ts.zipIdx.filter fun (t, _) => p t).foldl (fun kept (t, i) =>
    if kept.any fun (s, _) => s.same t then kept else kept ++ [(t, i)]) ([] : List (Triple × Nat))
  found.map (·.2)

/-- Triples without links. -/
def unlinked (ts : List Triple) : Network := ⟨ts.map ({ triple := · })⟩

/-- Link the triples of one rule. -/
def link (ts : List Triple) : Network :=
  ⟨ts.map fun t =>
    { triple := t, parents := placesWhere ts (·.leadsTo t), children := placesWhere ts t.leadsTo }⟩

/-- The number of triples. -/
def size (n : Network) : Nat := n.nodes.length

/-- The node at a place. -/
def node (n : Network) (i : Nat) : Node := n.nodes.getD i default

/-- The triple at a place. -/
def triple (n : Network) (i : Nat) : Triple := (n.node i).triple

/-- The triples at the places of a path. -/
def steps (n : Network) (path : List Nat) : List Triple := path.map n.triple

/-- Several networks one after the other, without links between them. -/
def append (a b : Network) : Network :=
  let shift (is : List Nat) := is.map (· + a.size)
  ⟨a.nodes ++ b.nodes.map fun m =>
    { m with parents := shift m.parents, children := shift m.children }⟩

/-- All networks of a list in one. -/
def concat (ns : List Network) : Network := ns.foldl append {}

/-- The chains that end in a given chain and begin at a state. No access occurs twice in a chain, so
`fuel` need not be more than the number of triples. -/
def chainsInto (n : Network) : Nat → List Nat → List (List Nat)
  | 0, _ => []
  | _ + 1, [] => []
  | fuel + 1, top :: rest =>
    let chain := top :: rest
    let fresh := (n.node top).parents.filter fun p =>
      !(n.steps chain).any fun t => t.same (n.triple p)
    (if (n.triple top).isState then [chain] else []) ++
      fresh.flatMap fun p => n.chainsInto fuel (p :: chain)

/-- Every path from a state to a triple. -/
def pathsTo (n : Network) (i : Nat) : List (List Nat) := n.chainsInto n.size [i]

/-- Whether the attributes along some path to a triple are these. -/
def matchesPath (n : Network) (i : Nat) (attributes : List String) : Bool :=
  (n.pathsTo i).any fun path => (n.steps path).map (·.attributeName) == attributes

end Network

end SoarProject
