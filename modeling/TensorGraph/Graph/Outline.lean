import TensorGraph.Graph.Infer

/-!
# Outlines of graphs

An outline shows every output of a graph as a tree. The inputs of an operator are shown below it
once; where it appears again it is marked with a star.
-/

namespace TensorGraph.Graph

/-- The inferred type and shape of a value, or else the declared ones. -/
def valueInfo (g : Graph) (f : InferredFacts) (id : NodeId) : String :=
  let node := g.node? id
  let type := match f.type? id <|> node.bind Node.type? with
    | some type => type.text
    | none => "?"
  let shape := match f.dims? id <|> node.bind Node.shape? with
    | some dims => bracketed (dims.map Dimension.text)
    | none => "[?]"
  type ++ " " ++ shape

/-- The text for a value that no operator produces. -/
def leafText (g : Graph) (f : InferredFacts) (id : NodeId) : String :=
  let tag := "[id " ++ toString id ++ "]"
  match g.node? id with
  | some (.constant n) =>
    let scalar := match n.value.asScalar? with
      | some x => " = " ++ x.text
      | none => ""
    "Constant " ++ tag ++ " " ++ g.valueInfo f id ++ scalar
  | some _ => "'" ++ g.nodeName id ++ "' " ++ tag ++ " " ++ g.valueInfo f id
  | none => "<missing> " ++ tag

/-- The text for the output of an operator. Several outputs are numbered. -/
def resultText (g : Graph) (f : InferredFacts) (id opId : NodeId) (op : OperatorNode) : String :=
  let index := match op.outputs.idxOf? id with
    | some i => if 1 < op.outputs.length then "." ++ toString i else ""
    | none => ""
  op.op.name ++ " [id " ++ toString opId ++ "]" ++ index ++ " '" ++ g.nodeName id ++ "' " ++
    g.valueInfo f id

/-- A line of the outline. -/
def outlineLine (depth : Nat) (text : String) : String :=
  String.join (List.replicate depth " |") ++ text

/-- The lines for a value, and the operators that are expanded after it. The first argument is
larger than the number of operators that are not expanded before. -/
def outlineValue (g : Graph) (f : InferredFacts) :
    Nat → Nat → NodeId → List NodeId → List String × List NodeId
  | 0, _, _, expanded => ([], expanded)
  | bound + 1, depth, id, expanded =>
    match g.producer? id with
    | none => ([outlineLine depth (g.leafText f id)], expanded)
    | some (opId, op) =>
      let line := outlineLine depth (g.resultText f id opId op)
      if expanded.contains opId then ([line ++ " *"], expanded)
      else
        op.inputs.foldl (fun (lines, expanded) input =>
          let (more, expanded) := g.outlineValue f bound (depth + 1) input expanded
          (lines ++ more, expanded)) ([line], opId :: expanded)

/-- The lines for all outputs. -/
def outline (g : Graph) (f : InferredFacts) : List String :=
  (g.outputIds.zipIdx.foldl (fun (lines, expanded) (id, i) =>
    let (more, expanded) := g.outlineValue f (g.operatorCount + 1) 0 id expanded
    (lines ++ ("Output " ++ toString i) :: more, expanded)) ([], [])).1

end TensorGraph.Graph
