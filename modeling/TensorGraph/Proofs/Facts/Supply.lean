import TensorGraph.Proofs.Facts.Operators

/-!
# Symbols drawn by rules

Every rule of a built-in operator, whether it fails or not, only advances the supply of symbols.
-/

namespace TensorGraph

theorem advances_sameAsFirst (ts : List TensorFacts) : Advances (ShapeRule.sameAsFirst ts) := by
  unfold ShapeRule.sameAsFirst
  split
  · exact advances_throw _
  · split <;> exact advances_pure _

theorem advances_passFirst (ts : List TensorFacts) : Advances (ShapeRule.passFirst ts) := by
  unfold ShapeRule.passFirst
  split
  · exact advances_throw _
  · exact advances_pure _

theorem advances_broadcastPair (ts : List TensorFacts) : Advances (ShapeRule.broadcastPair ts) := by
  unfold ShapeRule.broadcastPair
  split
  · split
    · exact advances_bind (advances_lift _) fun _ => advances_pure _
    · exact advances_pure _
  · exact advances_throw _

theorem advances_broadcastAll_go (acc : List SizeExpr) (ts : List TensorFacts) :
    Advances (ShapeRule.broadcastAll.go acc ts) := by
  induction ts generalizing acc with
  | nil => exact advances_pure _
  | cons t ts ih =>
    rw [ShapeRule.broadcastAll.go]
    split
    · exact advances_bind (advances_lift _) fun _ => ih _
    · exact advances_pure _

theorem advances_broadcastAll (ts : List TensorFacts) : Advances (ShapeRule.broadcastAll ts) := by
  unfold ShapeRule.broadcastAll
  split
  · exact advances_throw _
  · exact advances_broadcastAll_go _ _

theorem advances_reduction (axes : Option (List Int)) (keepDims : Bool) (ts : List TensorFacts) :
    Advances (ShapeRule.reduction axes keepDims ts) := by
  unfold ShapeRule.reduction
  split
  · split
    · exact advances_pure _
    · dsimp only
      split
      · exact advances_bind (advances_lift _) fun _ => advances_pure _
      · exact advances_bind (advances_pure _) fun _ => advances_pure _
  · exact advances_throw _

theorem advances_matMul (ts : List TensorFacts) : Advances (ShapeRule.matMul ts) := by
  unfold ShapeRule.matMul
  split
  · split
    · split
      · dsimp only
        split
        · split
          · exact advances_bind (advances_throw _) fun _ => advances_bind (advances_lift _) fun _ => advances_pure _
          · exact advances_bind (advances_lift _) fun _ => advances_pure _
        · exact advances_bind (advances_lift _) fun _ => advances_pure _
      · exact advances_throw _
    · exact advances_pure _
  · exact advances_throw _

theorem advances_arith (drops : DropTest) (op : SizeOp) (ts : List TensorFacts) :
    Advances (ShapeRule.arithBy drops op ts) := by
  unfold ShapeRule.arithBy
  split
  · split
    · exact advances_pure _
    · split
      · split
        · exact advances_pure _
        · exact advances_throw _
      · exact advances_broadcastPair _
  · exact advances_throw _

theorem advances_negation (drops : DropTest) (ts : List TensorFacts) :
    Advances (ShapeRule.negationBy drops ts) := by
  unfold ShapeRule.negationBy
  split
  · exact advances_pure _
  · exact advances_pure _
  · exact advances_sameAsFirst _
  · exact advances_throw _

theorem advances_resolveTarget (drops : DropTest) (data? : Option (List SizeExpr)) (target : List SizeExpr) :
    Advances (ShapeRule.resolveTarget drops data? target) := by
  unfold ShapeRule.resolveTarget
  dsimp only
  split
  · exact advances_throw _
  · exact advances_throw _
  · split
    · exact advances_bind (advances_lift _) fun _ => advances_pure _
    · exact advances_bind advances_freshSize fun _ => advances_pure _
  · split
    · split
      · exact advances_bind (advances_throw _) fun _ => advances_pure _
      · exact advances_pure _
    · exact advances_pure _

theorem advances_reshape (drops : DropTest) (ts : List TensorFacts) : Advances (ShapeRule.reshapeBy drops ts) := by
  unfold ShapeRule.reshapeBy
  split
  · split
    · split
      · exact advances_bind (advances_freshSizes _) fun _ => advances_pure _
      · exact advances_pure _
    · refine advances_bind (advances_resolveTarget _ _ _) fun dims => ?_
      split
      · exact advances_pure _
      · split <;> exact advances_pure _
      · exact advances_pure _
  · exact advances_throw _

theorem advances_transpose (perm? : Option (List Nat)) (ts : List TensorFacts) :
    Advances (ShapeRule.transpose perm? ts) := by
  unfold ShapeRule.transpose
  split
  · split
    · exact advances_bind (advances_freshSizes _) fun _ => advances_pure _
    · exact advances_pure _
    · exact advances_pure _
    · split
      · exact advances_throw _
      · split
        · exact advances_pure _
        · exact advances_throw _
  · exact advances_throw _

theorem advances_concat (drops : DropTest) (axis : Int) (ts : List TensorFacts) :
    Advances (ShapeRule.concatBy drops axis ts) := by
  unfold ShapeRule.concatBy
  split
  · exact advances_throw _
  · split
    · exact advances_pure _
    · refine advances_bind (advances_lift _) fun i => ?_
      split
      · exact advances_pure _
      · exact advances_bind (advances_foldlM (advances_appendFacts drops i) _ _) fun _ => advances_pure _

theorem advances_shapeOf (ts : List TensorFacts) : Advances (ShapeRule.shapeOf ts) := by
  unfold ShapeRule.shapeOf
  split
  · split
    · exact advances_pure _
    · exact advances_bind advances_freshSize fun _ => advances_pure _
  · exact advances_throw _

theorem advances_sizeOf (index : Nat) (ts : List TensorFacts) : Advances (ShapeRule.sizeOf index ts) := by
  unfold ShapeRule.sizeOf
  split
  · split
    · split
      · exact advances_pure _
      · exact advances_throw _
    · exact advances_bind advances_freshSize fun _ => advances_pure _
  · exact advances_throw _

theorem advances_requiredSizes (spec : List (Option Nat)) : Advances (spec.mapM fun
    | some size => pure (SizeExpr.ofSize size)
    | none => ShapeRule.freshSize) := by
  refine advances_mapM (fun req => ?_) spec
  cases req with
  | some size => exact advances_pure _
  | none => exact advances_freshSize

theorem advances_specifyShape (spec : List (Option Nat)) (ts : List TensorFacts) :
    Advances (ShapeRule.specifyShape spec ts) := by
  unfold ShapeRule.specifyShape
  split
  · split
    · exact advances_bind (advances_requiredSizes spec) fun _ => advances_pure _
    · split
      · exact advances_throw _
      · exact advances_bind (advances_mapM (fun _ => advances_lift _) _) fun _ => advances_pure _
  · exact advances_throw _

theorem advances_fill (ts : List TensorFacts) : Advances (ShapeRule.fill ts) := by
  unfold ShapeRule.fill
  split
  · split
    · exact advances_throw _
    · split
      · split
        · exact advances_throw _
        · exact advances_pure _
      · split
        · exact advances_bind (advances_freshSizes _) fun _ => advances_pure _
        · exact advances_pure _
  · exact advances_throw _

theorem advances_rule {op : Operator} (hbuiltin : op.IsBuiltin) {drops : DropTest} {rule : ShapeRule}
    (h : op.shapeRuleBy? drops = some rule) (ts : List TensorFacts) : Advances (rule ts) := by
  cases op with
  | elementwise op =>
    cases h
    unfold ScalarFn.shapeRuleBy
    split
    · exact advances_negation drops ts
    · split
      · exact advances_sameAsFirst ts
      · cases op.fn.sizeOp? with
        | some op' => exact advances_arith drops op' ts
        | none => exact advances_broadcastPair ts
  | fused op =>
    cases h
    unfold FusedElementwise.shapeRule
    split
    · exact advances_throw _
    · exact advances_broadcastAll ts
  | matMul => cases h; exact advances_matMul ts
  | reduce op => cases h; exact advances_reduction _ _ ts
  | softmax op => cases h; exact advances_sameAsFirst ts
  | reshape => cases h; exact advances_reshape drops ts
  | transpose perm => cases h; exact advances_transpose perm ts
  | concat axis => cases h; exact advances_concat drops axis ts
  | cast type =>
    cases type with
    | float32 => cases h; exact advances_sameAsFirst ts
    | int32 => cases h; exact advances_passFirst ts
  | identity => cases h; exact advances_passFirst ts
  | shape => cases h; exact advances_shapeOf ts
  | size index => cases h; exact advances_sizeOf index ts
  | specifyShape spec => cases h; exact advances_specifyShape spec ts
  | fill x => cases h; exact advances_fill ts
  | assertAll message => cases h; exact advances_passFirst ts
  | custom op => exact hbuiltin.elim

theorem advances_outputFacts {op : Operator} (hbuiltin : op.IsBuiltin) (drops : DropTest) (ts : List TensorFacts) :
    Advances (op.outputFactsBy drops ts) := by
  unfold Operator.outputFactsBy
  split
  · next rule hrule => exact advances_bind (advances_rule hbuiltin hrule ts) fun _ => advances_pure _
  · exact advances_pure _

end TensorGraph
