import TensorGraph.Rewrite.RuleSet
import TensorGraph.Rewrite.Rules.Assertion
import TensorGraph.Rewrite.Rules.Elementwise
import TensorGraph.Rewrite.Rules.Folding
import TensorGraph.Rewrite.Rules.Shape
import TensorGraph.Rewrite.Rules.Stable

/-!
# The standard rules
-/

namespace TensorGraph

/-- The rules in the order in which they are tried. -/
def RuleSet.standard : RuleSet where
  rules := [Rules.constantFolding, Rules.merge, Rules.removeIdentity, Rules.uselessElementwise,
    Rules.doubleNegation, Rules.shapeToConstant, Rules.shapeLift, Rules.uselessSpecifyShape,
    Rules.uselessReshape, Rules.reshapeChain, Rules.transposeChain, Rules.uselessAssert,
    Rules.removeAllAssert, Rules.logSigmoid, Rules.logOnePlus, Rules.softmax,
    Rules.elementwiseFusion, Rules.inPlaceElementwise]

end TensorGraph
