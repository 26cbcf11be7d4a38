import TensorGraph.Proofs.Operator.Expressions
import TensorGraph.Proofs.Operator.Pointwise
import TensorGraph.Proofs.Rewrite.Proposals

/-!
# Unfolded values

Fusion unfolds an operator: the values that it reads become expressions over other values, as far as operators can be
absorbed. An `Unfolding` says what became of one value. What the builder computes, with values numbered as they are met,
is the expression of an unfolding (`FusionBuilder.exists_builds`), so that a fusion is proposed for a `Chain`
(`elementwiseFusion_proposes`).
-/

namespace TensorGraph

namespace Rules

/-! ## Operators that can be absorbed -/

namespace Fusable

variable {f : Fusable} {args : List ScalarExpr} {e : ScalarExpr} {w : Nat}

/-- The value at the elements of the inputs. -/
def value : Fusable → List Single → Single
  | .function fn, xs => fn.value xs
  | .expression e, xs => e.eval xs

/-- The number of scalar functions. -/
def opCount : Fusable → Nat
  | .function _ => 1
  | .expression e => e.opCount

/-- Whether every one of the given number of inputs is read. -/
def ReadsAll (f : Fusable) (count : Nat) : Prop :=
  match f with
  | .function _ => True
  | .expression e => ∀ i < count, e.Reads i

theorem expr?_cases (h : f.expr? args = some e) :
    (∃ fn x, f = .function fn ∧ fn.arity = 1 ∧ args = [x] ∧ e = .unary fn x) ∨
    (∃ fn a b, f = .function fn ∧ fn.arity = 2 ∧ args = [a, b] ∧ e = .binary fn a b) ∨
    ∃ outer, f = .expression outer ∧ outer.numInputs ≤ args.length ∧
      e = outer.mapInputs fun i => args.getD i (.input i) := by
  unfold expr? at h
  split at h
  · next fn x =>
    split at h
    · next harity =>
      cases h
      exact .inl ⟨fn, x, rfl, harity, rfl, rfl⟩
    · cases h
  · next fn a b =>
    split at h
    · next harity =>
      cases h
      exact .inr (.inl ⟨fn, a, b, rfl, harity, rfl, rfl⟩)
    · cases h
  · cases h
  · next outer =>
    split at h
    · cases h
    · next hlen =>
      cases h
      exact .inr (.inr ⟨outer, rfl, Nat.le_of_not_lt hlen, rfl⟩)

/-- The expression has the value of the operator at the values of the arguments. -/
theorem evalWith_of_expr? (h : f.expr? args = some e) (x : Nat → Single) :
    e.evalWith x = f.value (args.map (·.evalWith x)) := by
  rcases expr?_cases h with ⟨fn, a, rfl, -, rfl, rfl⟩ | ⟨fn, a, b, rfl, -, rfl, rfl⟩ | ⟨outer, rfl, hlen, rfl⟩
  · rfl
  · rfl
  · rw [value, ScalarExpr.eval_eq, ScalarExpr.evalWith_mapInputs]
    refine ScalarExpr.evalWith_congr fun i hi => ?_
    have hi : i < args.length := ScalarExpr.numInputs_le_iff.1 hlen i hi
    rw [List.getD_eq_getElem _ _ hi, List.getD_eq_getElem _ _ (by simpa using hi), List.getElem_map]

/-- The expression does not depend on how values are numbered. -/
theorem expr?_map (f : Fusable) (args : List ScalarExpr) (number : Nat → ScalarExpr) :
    f.expr? (args.map (·.mapInputs number)) = (f.expr? args).map (·.mapInputs number) := by
  cases f with
  | function fn =>
    match args with
    | [] => rfl
    | [x] =>
      simp only [List.map_cons, List.map_nil, expr?]
      split <;> rfl
    | [a, b] =>
      simp only [List.map_cons, List.map_nil, expr?]
      split <;> rfl
    | _ :: _ :: _ :: _ => rfl
  | expression outer =>
    simp only [expr?, List.length_map]
    split
    · rfl
    · next hlen =>
      rw [Option.map_some, ScalarExpr.mapInputs_mapInputs]
      refine congrArg some (ScalarExpr.mapInputs_congr fun i hi => ?_)
      have hi : i < args.length := ScalarExpr.numInputs_le_iff.1 (Nat.le_of_not_lt hlen) i hi
      rw [List.getD_eq_getElem _ _ hi, List.getD_eq_getElem _ _ (by simpa using hi), List.getElem_map]

theorem mem_of_reads (h : f.expr? args = some e) (hw : e.Reads w) : ∃ a ∈ args, a.Reads w := by
  rcases expr?_cases h with ⟨fn, x, rfl, -, rfl, rfl⟩ | ⟨fn, a, b, rfl, -, rfl, rfl⟩ | ⟨outer, rfl, hlen, rfl⟩
  · exact ⟨x, by simp, hw⟩
  · rcases ScalarExpr.reads_binary.1 hw with hw | hw
    · exact ⟨a, by simp, hw⟩
    · exact ⟨b, by simp, hw⟩
  · obtain ⟨i, hi, hw⟩ := ScalarExpr.reads_mapInputs.1 hw
    have hi : i < args.length := ScalarExpr.numInputs_le_iff.1 hlen i hi
    rw [List.getD_eq_getElem _ _ hi] at hw
    exact ⟨args[i], List.getElem_mem hi, hw⟩

/-- If all inputs are read, then so is what the arguments read. -/
theorem reads_of_mem (hall : f.ReadsAll args.length) (h : f.expr? args = some e) {a : ScalarExpr} (ha : a ∈ args)
    (hw : a.Reads w) : e.Reads w := by
  rcases expr?_cases h with ⟨fn, x, rfl, -, rfl, rfl⟩ | ⟨fn, x, y, rfl, -, rfl, rfl⟩ | ⟨outer, rfl, -, rfl⟩
  · rwa [List.mem_singleton.1 ha] at hw
  · rcases List.mem_pair.1 ha with rfl | rfl
    · exact ScalarExpr.reads_binary.2 (.inl hw)
    · exact ScalarExpr.reads_binary.2 (.inr hw)
  · obtain ⟨i, hi, rfl⟩ := List.getElem_of_mem ha
    refine ScalarExpr.reads_mapInputs.2 ⟨i, hall i hi, ?_⟩
    rwa [List.getD_eq_getElem _ _ hi]

/-- Functions of the arguments are not copied, if no argument with functions is read twice. -/
theorem opCount_of_expr? (h : f.expr? args = some e)
    (hrereads : ∀ i a, args[i]? = some a → f.rereads i = true → a.opCount = 0) :
    e.opCount ≤ f.opCount + total (args.map (·.opCount)) := by
  rcases expr?_cases h with ⟨fn, x, rfl, -, rfl, rfl⟩ | ⟨fn, x, y, rfl, -, rfl, rfl⟩ | ⟨outer, rfl, hlen, rfl⟩
  · simp [opCount, ScalarExpr.opCount, total]
  · simp [opCount, ScalarExpr.opCount, total, Nat.add_assoc]
  · have hargs : args.map (·.opCount) =
        (List.range args.length).map fun i => (args.getD i (.input i)).opCount := by
      refine List.ext_getElem (by simp) fun i hi hi' => ?_
      have hlt : i < args.length := by simpa using hi
      simp [hlt]
    rw [ScalarExpr.opCount_mapInputs hlen, hargs, opCount]
    refine Nat.add_le_add_left (total_map_le fun i hi => ?_) _
    have hi : i < args.length := List.mem_range.1 hi
    -- An argument that is used more than once has no functions.
    by_cases huses : 1 < outer.inputUses i
    · have hrereads := hrereads i args[i] (List.getElem?_eq_getElem hi) (by simpa [rereads] using huses)
      rw [List.getD_eq_getElem _ _ hi, hrereads]
      exact Nat.le_refl 0
    · exact (Nat.mul_le_mul_right _ (Nat.le_of_not_lt huses)).trans_eq (Nat.one_mul _)

end Fusable

/-! ## Unfoldings -/

/-- What became of a value. -/
structure Unfolding where
  value : NodeId
  /-- The expression for the value. Its inputs are numbers of values. -/
  expr : ScalarExpr
  /-- The values at which unfolding stopped. -/
  reads : List NodeId
  /-- The operators that became part of the expression. -/
  absorbed : List NodeId

/-- A value that is read as it is. -/
def Unfolding.read (value : NodeId) : Unfolding := { value, expr := .input value, reads := [value], absorbed := [] }

/-- The output of an operator whose inputs were unfolded. -/
def Unfolding.output (value id : NodeId) (expr : ScalarExpr) (us : List Unfolding) : Unfolding :=
  { value, expr, reads := us.flatMap (·.reads), absorbed := id :: us.flatMap (·.absorbed) }

/-- Whether unfoldings are those of an operator's inputs. Inputs that the operator rereads are read as they are. -/
structure Fusable.Unfolds (f : Fusable) (inputs : List NodeId) (us : List Unfolding) : Prop where
  values : us.map (·.value) = inputs
  rereads : ∀ i u, us[i]? = some u → f.rereads i = true → u = .read u.value

theorem Fusable.Unfolds.length_eq {f : Fusable} {inputs : List NodeId} {us : List Unfolding} (h : f.Unfolds inputs us) :
    us.length = inputs.length := by
  rw [← h.values, List.length_map]

open FusionBuilder (absorbable? scalarConstant?)

/-- Whether a value can be unfolded so for a reader. -/
inductive Unfolds (v : RewriteView) : NodeId → Unfolding → Prop
  | read (reader value : NodeId) : Unfolds v reader (.read value)
  | constant {reader value : NodeId} {x : Single} (h : scalarConstant? v value = some x) :
      Unfolds v reader { value, expr := .constant x, reads := [], absorbed := [] }
  | absorbed {reader value id : NodeId} {op : OperatorNode} {f : Fusable} {us : List Unfolding} {e : ScalarExpr}
      (h : absorbable? v value reader = some (id, op, f)) (hinputs : f.Unfolds op.inputs us)
      (hus : ∀ u ∈ us, Unfolds v id u) (hexpr : f.expr? (us.map (·.expr)) = some e) :
      Unfolds v reader (.output value id e us)
  /-- The inputs were unfolded in vain: their number does not fit. -/
  | refused {reader value id : NodeId} {op : OperatorNode} {f : Fusable} {us : List Unfolding}
      (h : absorbable? v value reader = some (id, op, f)) (hinputs : f.Unfolds op.inputs us)
      (hus : ∀ u ∈ us, Unfolds v id u) (hexpr : f.expr? (us.map (·.expr)) = none) :
      Unfolds v reader { Unfolding.read value with reads := us.flatMap (·.reads) ++ [value] }

variable {v : RewriteView} {reader id : NodeId} {op : OperatorNode} {u : Unfolding} {us : List Unfolding}

/-- The expression reads only values at which unfolding stopped. -/
theorem Unfolds.mem_reads (h : Unfolds v reader u) {w : NodeId} (hw : u.expr.Reads w) : w ∈ u.reads := by
  induction h with
  | read reader value => exact List.mem_singleton.2 (ScalarExpr.reads_input.1 hw)
  | constant h => exact absurd hw ScalarExpr.not_reads_constant
  | absorbed h hinputs hus hexpr ih =>
    obtain ⟨e, he, hw⟩ := Fusable.mem_of_reads hexpr hw
    obtain ⟨u, hu, rfl⟩ := List.mem_map.1 he
    exact List.mem_flatMap.2 ⟨u, hu, ih u hu hw⟩
  | refused h hinputs hus hexpr ih =>
    exact List.mem_append_right _ (List.mem_singleton.2 (ScalarExpr.reads_input.1 hw))

/-! ## The builder -/

/-- The expression in which values are numbered by their places in a list. -/
def renumber (inputs : List NodeId) (e : ScalarExpr) : ScalarExpr := e.mapInputs fun w => .input (inputs.idxOf w)

theorem renumber_of_extends {inputs inputs' : List NodeId} (h : inputs <+: inputs') {e : ScalarExpr}
    (hreads : ∀ w, e.Reads w → w ∈ inputs) : renumber inputs' e = renumber inputs e := by
  obtain ⟨more, rfl⟩ := h
  exact ScalarExpr.mapInputs_congr fun w hw => by rw [List.idxOf_append_of_mem (hreads w hw)]

namespace FusionBuilder

variable {b b' b'' : FusionBuilder} {value : NodeId}

/-- Whether a builder has come to list some values after those that it listed before. -/
structure Grows (b b' : FusionBuilder) (reads : List NodeId) : Prop where
  before : b.inputs <+: b'.inputs
  mem : ∀ w, w ∈ b'.inputs ↔ w ∈ b.inputs ∨ w ∈ reads
  nodup : b.inputs.Nodup → b'.inputs.Nodup

theorem Grows.refl (b : FusionBuilder) : b.Grows b [] := ⟨List.prefix_refl _, by simp, id⟩

theorem Grows.trans {reads reads' : List NodeId} (h : b.Grows b' reads) (h' : b'.Grows b'' reads') :
    b.Grows b'' (reads ++ reads') where
  before := h.before.trans h'.before
  mem w := by rw [h'.mem, h.mem, List.mem_append, or_assoc]
  nodup := h'.nodup ∘ h.nodup

/-- Whether building an expression gave that of an unfolding. -/
structure Builds (v : RewriteView) (reader : NodeId) (b : FusionBuilder) (result : ScalarExpr × FusionBuilder)
    (u : Unfolding) : Prop where
  unfolds : Unfolds v reader u
  expr : result.1 = renumber result.2.inputs u.expr
  grows : b.Grows result.2 u.reads

/-- The same for several values, one after the other. -/
structure BuildsAll (v : RewriteView) (reader : NodeId) (b : FusionBuilder)
    (result : List ScalarExpr × FusionBuilder) (us : List Unfolding) : Prop where
  unfolds : ∀ u ∈ us, Unfolds v reader u
  exprs : result.1 = us.map fun u => renumber result.2.inputs u.expr
  grows : b.Grows result.2 (us.flatMap (·.reads))

theorem BuildsAll.expr?_eq {result : List ScalarExpr × FusionBuilder} (h : BuildsAll v reader b result us)
    (f : Fusable) : f.expr? result.1 = (f.expr? (us.map (·.expr))).map (renumber result.2.inputs) := by
  have hargs : result.1 = (us.map (·.expr)).map (renumber result.2.inputs) := h.exprs.trans (List.map_map ..).symm
  rw [hargs]
  exact f.expr?_map _ _

theorem builds_input (v : RewriteView) (reader : NodeId) (b : FusionBuilder) (value : NodeId) :
    Builds v reader b ((input value).run b) (.read value) := by
  cases hindex : b.inputs.idxOf? value with
  | some i =>
    have hrun : (input value).run b = (.input i, b) := by
      simp only [input, StateT.run_modifyGet, hindex]
      rfl
    have hmem : value ∈ b.inputs := List.isSome_idxOf?.1 (by simp [hindex])
    rw [hrun]
    refine ⟨.read reader value, ?_, List.prefix_refl _, fun w => ?_, id⟩
    · change ScalarExpr.input i = .input (b.inputs.idxOf value)
      rw [List.idxOf_eq_getD_idxOf?, hindex, Option.getD_some]
    · simp only [Unfolding.read, List.mem_singleton]
      exact ⟨.inl, fun h => h.elim id fun h => h ▸ hmem⟩
  | none =>
    have hrun : (input value).run b = (.input b.inputs.length, { b with inputs := b.inputs ++ [value] }) := by
      simp only [input, StateT.run_modifyGet, hindex]
      rfl
    have hnot : value ∉ b.inputs := List.idxOf?_eq_none_iff.1 hindex
    rw [hrun]
    refine ⟨.read reader value, ?_, List.prefix_append _ _, fun w => List.mem_append, fun hnodup => ?_⟩
    · change ScalarExpr.input b.inputs.length = .input ((b.inputs ++ [value]).idxOf value)
      simp [List.idxOf_append_of_notMem hnot]
    · exact List.nodup_append.2 ⟨hnodup, List.nodup_singleton _, fun w hw w' hw' heq =>
        hnot (List.mem_singleton.1 hw' ▸ heq ▸ hw)⟩

/-- Building expressions one after the other. -/
theorem exists_buildsAll_mapM {α : Type} {build : α → BuildM ScalarExpr} {P : α → Unfolding → Prop} {l : List α}
    (h : ∀ a ∈ l, ∀ b, ∃ u, P a u ∧ Builds v reader b ((build a).run b) u) (b : FusionBuilder) :
    ∃ us, List.Forall₂ P l us ∧ BuildsAll v reader b ((l.mapM build).run b) us := by
  induction l generalizing b with
  | nil => exact ⟨[], .nil, by simp, rfl, .refl b⟩
  | cons a l ih =>
    obtain ⟨hfirst, hl⟩ := List.forall_mem_cons.1 h
    obtain ⟨u, hP, hu⟩ := hfirst b
    obtain ⟨us, hall, hus⟩ := ih hl ((build a).run b).2
    refine ⟨u :: us, .cons hP hall, ?_⟩
    rw [List.mapM_cons]
    change BuildsAll v reader b (((build a).run b).1 :: ((l.mapM build).run ((build a).run b).2).1,
      ((l.mapM build).run ((build a).run b).2).2) (u :: us)
    refine ⟨List.forall_mem_cons.2 ⟨hu.unfolds, hus.unfolds⟩, ?_, hu.grows.trans hus.grows⟩
    rw [List.map_cons, ← hus.exprs, hu.expr]
    -- Values that are listed later do not change the numbers.
    rw [renumber_of_extends hus.grows.before fun w hw => (hu.grows.mem w).2 (.inr (hu.unfolds.mem_reads hw))]

/-- The arguments of an operator, each either read or built. -/
theorem exists_buildsAll_arguments {build : NodeId → BuildM ScalarExpr} (f : Fusable) (inputs : List NodeId)
    (hbuild : ∀ arg b, ∃ u, u.value = arg ∧ Builds v reader b ((build arg).run b) u) (b : FusionBuilder) :
    ∃ us, f.Unfolds inputs us ∧ BuildsAll v reader b
      ((inputs.zipIdx.mapM fun (arg, i) => if f.rereads i then input arg else build arg).run b) us := by
  have heach : ∀ a ∈ inputs.zipIdx, ∀ b, ∃ u : Unfolding,
      (u.value = a.1 ∧ (f.rereads a.2 = true → u = .read u.value)) ∧
      Builds v reader b ((if f.rereads a.2 then input a.1 else build a.1).run b) u := by
    intro a _ b
    split
    · exact ⟨.read a.1, ⟨rfl, fun _ => rfl⟩, builds_input v reader b a.1⟩
    · next hrereads =>
      obtain ⟨u, hvalue, hu⟩ := hbuild a.1 b
      exact ⟨u, ⟨hvalue, fun h => absurd h hrereads⟩, hu⟩
  obtain ⟨us, hall, hus⟩ := exists_buildsAll_mapM heach b
  refine ⟨us, ⟨?_, fun i u hu hrereads => ?_⟩, hus⟩
  · rw [← List.zipIdx_map_fst 0 inputs, ← List.forall₂_eq_eq_eq, List.forall₂_map_left_iff,
      List.forall₂_map_right_iff]
    exact hall.flip.imp fun u a h => h.1
  · obtain ⟨hi, rfl⟩ := List.getElem?_eq_some_iff.1 hu
    have hi' : i < inputs.zipIdx.length := hall.length_eq ▸ hi
    have hargument := List.Forall₂.get hall hi' hi
    simp only [List.get_eq_getElem, List.getElem_zipIdx, Nat.zero_add] at hargument
    exact hargument.2 hrereads

/-- What the builder computes for a value is the expression of an unfolding. -/
theorem exists_builds (v : RewriteView) (bound : Nat) (value reader : NodeId) (b : FusionBuilder) :
    ∃ u, u.value = value ∧ Builds v reader b ((valueExpr v bound value reader).run b) u := by
  induction bound generalizing value reader b with
  | zero => exact ⟨.read value, rfl, builds_input v reader b value⟩
  | succ bound ih =>
    unfold valueExpr
    split
    · next x _ hx => exact ⟨_, rfl, .constant hx, rfl, .refl b⟩
    · next id op f _ habsorb =>
      obtain ⟨us, hinputs, hus⟩ := exists_buildsAll_arguments f op.inputs (fun arg b => ih arg id b) b
      rw [StateT.run_bind]
      generalize (List.mapM _ _ : BuildM (List ScalarExpr)).run b = built at hus ⊢
      obtain ⟨args, b'⟩ := built
      have hexpr : f.expr? args = (f.expr? (us.map (·.expr))).map (renumber b'.inputs) := hus.expr?_eq f
      dsimp only [bind]
      cases he : f.expr? (us.map (·.expr)) with
      | none =>
        rw [hexpr, he]
        have hread := builds_input v reader b' value
        exact ⟨_, rfl, .refused habsorb hinputs hus.unfolds he, hread.expr, hus.grows.trans hread.grows⟩
      | some e =>
        rw [hexpr, he]
        exact ⟨_, rfl, .absorbed habsorb hinputs hus.unfolds he, rfl, hus.grows.before, hus.grows.mem, hus.grows.nodup⟩
    · exact ⟨.read value, rfl, builds_input v reader b value⟩

end FusionBuilder

/-! ## Chains -/

/-- An operator with its unfolded inputs, which can be fused. -/
structure Chain (v : RewriteView) (id : NodeId) (op : OperatorNode) where
  root : Fusable
  output : NodeId
  args : List Unfolding
  /-- The expression for the output, over numbers of values. -/
  expr : ScalarExpr
  /-- The values at which unfolding stopped, each once. -/
  inputs : List NodeId
  fusable : Fusable.ofOperator? op.op = some root
  outputs : op.outputs = [output]
  isFloat_input : ∀ w ∈ op.inputs, v.isFloat w = true
  args_inputs : root.Unfolds op.inputs args
  args_unfolds : ∀ u ∈ args, Unfolds v id u
  args_expr : root.expr? (args.map (·.expr)) = some expr
  inputs_nodup : inputs.Nodup
  mem_inputs : ∀ w, w ∈ inputs ↔ w ∈ args.flatMap (·.reads)

/-- The unfolding of the output. -/
def Chain.unfolding (c : Chain v id op) : Unfolding := .output c.output id c.expr c.args

/-- What takes the place of a chain. -/
def Chain.fusion (c : Chain v id op) : Fusion where
  name := op.name
  op := .fused (.ofExpr (renumber c.inputs c.expr))
  inputs := c.inputs
  outputs := [c.output]

/-- What the builder computes for an operator is the expression of its unfolded inputs. -/
theorem FusionBuilder.operatorExpr_run (v : RewriteView) (root : Fusable) (id : NodeId) (op : OperatorNode) :
    ∃ args b, root.Unfolds op.inputs args ∧ (∀ u ∈ args, Unfolds v id u) ∧
      Grows {} b (args.flatMap (·.reads)) ∧
      (operatorExpr v root id op).run {} = ((root.expr? (args.map (·.expr))).map (renumber b.inputs), b) := by
  obtain ⟨us, hinputs, hus⟩ := exists_buildsAll_arguments root op.inputs
    (fun arg b => exists_builds v (v.graph.operatorCount + 1) arg id b) {}
  exact ⟨us, _, hinputs, hus.unfolds, hus.grows, Prod.ext (hus.expr?_eq root) rfl⟩

theorem elementwiseFusion_proposes {r : Rewrite} (hr : elementwiseFusion.propose v id op = .rewrite r) :
    ∃ c : Chain v id op, r = .fuse c.fusion := by
  have hr := Proposal.ofOption_eq_rewrite.1 hr
  unfold fuseElementwise at hr
  obtain ⟨root, hroot, hr⟩ := Option.bind_eq_some_iff.1 hr
  obtain ⟨output, houtput, hr⟩ := Option.bind_eq_some_iff.1 hr
  obtain ⟨args, b, hinputs, hargs, hgrows, hbuilt⟩ := FusionBuilder.operatorExpr_run v root id op
  rw [hbuilt] at hr
  by_cases hfloat : (!v.isFloat output || !op.inputs.all v.isFloat || absorbedByReader v output) = true
  · rw [if_pos hfloat] at hr
    cases hr
  · rw [if_neg hfloat] at hr
    obtain ⟨_, hnumbered, hr⟩ := Option.bind_eq_some_iff.1 hr
    obtain ⟨e, he, rfl⟩ := Option.map_eq_some_iff.1 hnumbered
    split at hr
    · cases hr
    · cases hr
      simp only [Bool.or_eq_true, Bool.not_eq_true', not_or, Bool.not_eq_false, List.all_eq_true] at hfloat
      exact ⟨{
        root, output, args, expr := e, inputs := b.inputs
        fusable := hroot
        outputs := singleOutput?_eq_some.1 houtput
        isFloat_input := hfloat.1.2
        args_inputs := hinputs
        args_unfolds := hargs
        args_expr := he
        inputs_nodup := hgrows.nodup List.nodup_nil
        mem_inputs := fun w => by rw [hgrows.mem]; simp }, rfl⟩

end Rules

end TensorGraph
