import TensorGraph.Graph.Node

/-!
# Faults of graphs

What can be wrong with a graph, or with the inputs and outputs that are chosen for a plan. Nodes
appear by their names.
-/

namespace TensorGraph

/-- Why there is no plan, or a graph is not valid. -/
inductive PlanningFault where
  | duplicateOutput (name : String)
  | outputNotReadable (index : Nat) (name : String)
  | duplicateInput (name : String)
  | inputNotReadable (index : Nat) (name : String)
  /-- An operator depends on itself. -/
  | cycle (op : String)
  /-- An operator reads a value that nothing provides. -/
  | missingInput (value op : String)
  /-- Nothing provides an output. -/
  | missingSource (output : String)
  | readsNoValue (input op : String)
  | producesNoValue (output op : String)
  | twoProducers (value first second : String)
  | graphInputNotFree (input : String)
  | graphOutputNotReadable (output : String)
  /-- A program reads a value before it is computed. -/
  | inputNotComputed (value op : String)
  | outputNotComputed (output : String)
deriving DecidableEq, Repr

def PlanningFault.message (fault : PlanningFault) : String :=
  let q (s : String) := "\"" ++ s ++ "\""
  "planning error: " ++ match fault with
  | .duplicateOutput name => "Outputs are not unique. Output " ++ q name ++ " is duplicated."
  | .outputNotReadable i name =>
    "Output " ++ toString i ++ " (" ++ q name ++ ") is not a value node in the graph."
  | .duplicateInput name => "Inputs are not unique. Input " ++ q name ++ " is duplicated."
  | .inputNotReadable i name =>
    "Input " ++ toString i ++ " (" ++ q name ++ ") is not a value node in the graph."
  | .cycle op => "Graph contains a cycle through " ++ q op
  | .missingInput value op => "Missing input " ++ q value ++ " for op " ++ q op
  | .missingSource output => "Source node not found for output " ++ q output
  | .readsNoValue input op => "Input " ++ q input ++ " of operator " ++ q op ++ " is not a value"
  | .producesNoValue output op =>
    "Output " ++ q output ++ " of operator " ++ q op ++ " is not a value"
  | .twoProducers value first second =>
    "Value " ++ q value ++ " is produced by both " ++ q first ++ " and " ++ q second
  | .graphInputNotFree input =>
    "Graph input " ++ q input ++ " is not a value without a producer"
  | .graphOutputNotReadable output => "Graph output " ++ q output ++ " is not a value"
  | .inputNotComputed value op =>
    "Input " ++ q value ++ " of operator " ++ q op ++ " was not computed"
  | .outputNotComputed output => "Output " ++ q output ++ " was not computed"

end TensorGraph
