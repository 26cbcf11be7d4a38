import TensorGraph.Rewrite.Basic

/-!
# Statistics of optimization
-/

namespace TensorGraph

/-- What an optimizer did. -/
structure RewriteStats where
  /-- How often each rule was applied. -/
  rewrites : List (String × Nat) := []
  /-- How many rewrites were proposed but rejected. -/
  rejected : Nat := 0
  /-- The number of iterations of each phase that had rules. -/
  iterations : List (Phase × Nat) := []
  /-- How many unused nodes were removed. -/
  pruned : Nat := 0
  nodesBefore : Nat := 0
  nodesAfter : Nat := 0
  operatorsBefore : Nat := 0
  operatorsAfter : Nat := 0
deriving Repr

/-- Adds one to the count of a name. -/
def countUp (counts : List (String × Nat)) (name : String) : List (String × Nat) :=
  if (counts.lookup name).isSome then
    counts.map fun (other, n) => (other, if other == name then n + 1 else n)
  else counts ++ [(name, 1)]

namespace RewriteStats

/-- How often a rule was applied. -/
def rewriteCount (s : RewriteStats) (rule : String) : Nat := (s.rewrites.lookup rule).getD 0

def totalRewrites (s : RewriteStats) : Nat := total (s.rewrites.map (·.2))

/-- The counts in the order of the rules' names. -/
def sortedRewrites (s : RewriteStats) : List (String × Nat) :=
  s.rewrites.mergeSort fun a b => a.1 ≤ b.1

/-- The statistics of a graph that is left as it is. -/
def ofUnchanged (g : Graph) : RewriteStats :=
  { nodesBefore := g.nodeCount, nodesAfter := g.nodeCount
    operatorsBefore := g.operatorCount, operatorsAfter := g.operatorCount }

def lines (s : RewriteStats) : List String :=
  let change (a b : Nat) := toString a ++ " -> " ++ toString b
  ["operators: " ++ change s.operatorsBefore s.operatorsAfter ++ ", nodes: " ++
      change s.nodesBefore s.nodesAfter] ++
    s.iterations.map (fun (phase, n) =>
      "  " ++ phase.text ++ ": " ++ toString n ++ " iterations") ++
    s.sortedRewrites.map (fun (rule, n) => "  " ++ rule ++ " x" ++ toString n) ++
    if s.rejected = 0 then [] else ["  rejected x" ++ toString s.rejected]

def text (s : RewriteStats) : String := String.join (s.lines.map (· ++ "\n"))

end RewriteStats

end TensorGraph
