import TensorGraph.Proofs.Rewrite.Evaluation
import TensorGraph.Proofs.Rewrite.Pruning

/-!
# Rewrites that keep values

A rewrite agrees with a graph if the values that it uses in place of others are equal to them, and if the operators
that it changes compute what they computed (`Rewrite.Agrees`). Then all nodes keep their values
(`Rewrite.Agrees.evaluates`), and so do the outputs, whichever nodes they have become (`Rewrite.Agrees.evaluatesAll`).
-/

namespace TensorGraph

/-! ## What rewrites change -/

namespace OperatorNode

/-- The node with other inputs. -/
def mapInputs (n : OperatorNode) (f : NodeId → NodeId) : OperatorNode := { n with inputs := n.inputs.map f }

theorem mapInputs_id (n : OperatorNode) : n.mapInputs (fun v => v) = n := by
  simp [mapInputs]

theorem mapInputs_mapInputs (n : OperatorNode) (f h : NodeId → NodeId) :
    (n.mapInputs f).mapInputs h = n.mapInputs fun v => h (f v) := by
  simp [mapInputs]

end OperatorNode

theorem Graph.operator?_replaceValues {g : Graph} (hg : g.Indexed) (pairs : List (NodeId × NodeId)) (id : NodeId) :
    (g.replaceValues pairs).operator? id = (g.operator? id).map (·.mapInputs (redirectAll pairs)) := by
  induction pairs generalizing g with
  | nil =>
    cases hop : g.operator? id with
    | none => exact hop
    | some n => exact hop.trans (congrArg some n.mapInputs_id.symm)
  | cons pair pairs ih =>
    refine (ih (hg.replaceValue pair.1 pair.2)).trans ?_
    rw [operator?_replaceValue g pair.1 pair.2 hg, Option.map_map]
    congr 1
    funext n
    exact OperatorNode.mapInputs_mapInputs n (Graph.redirect pair.1 pair.2) (redirectAll pairs)

namespace Rewrite

variable {g : Graph} {removed : List NodeId} {r : Rewrite} {id v : NodeId}

def isFusion : Rewrite → Bool
  | .fuse _ => true
  | _ => false

/-- The node that is used in place of another one after a rewrite. -/
def substitute (g : Graph) : Rewrite → NodeId → NodeId
  | .alias pairs => redirectAll pairs
  | .constant id _ => Graph.redirect id g.nodes.size
  | _ => fun v => v

/-- What becomes of an operator, apart from inputs that are replaced everywhere. -/
def change (id : NodeId) (n : OperatorNode) : Rewrite → OperatorNode
  | .replaceOperator id' op => if id = id' then { n with op } else n
  | .replaceInputs id' op inputs => if id = id' then { n with op := op.getD n.op, inputs } else n
  | _ => n

theorem outputs_change (r : Rewrite) (id : NodeId) (n : OperatorNode) : (r.change id n).outputs = n.outputs := by
  cases r with
  | fuse f => rfl
  | «alias» pairs => rfl
  | constant id' c => rfl
  | replaceOperator id' op =>
    simp only [change]
    split <;> rfl
  | replaceInputs id' op inputs =>
    simp only [change]
    split <;> rfl

theorem operator?_apply_replaceInputs {op : Option Operator} {inputs : List NodeId} {n : OperatorNode}
    (hn : g.operator? id = some n) (id' : NodeId) : ((replaceInputs id op inputs).apply g removed).operator? id' =
      if id' = id then some { n with op := op.getD n.op, inputs } else g.operator? id' := by
  cases op with
  | none => exact Graph.operator?_replaceInputs id inputs hn id'
  | some op =>
    have hn' : (g.replaceOperator id op).operator? id = some { n with op } := by
      rw [Graph.operator?_replaceOperator, if_pos rfl, hn]
      rfl
    refine (Graph.operator?_replaceInputs id inputs hn' id').trans ?_
    by_cases hid : id' = id
    · rw [if_pos hid, if_pos hid]
      rfl
    · rw [if_neg hid, if_neg hid, Graph.operator?_replaceOperator, if_neg hid]

theorem operator?_apply (hg : g.Indexed) (hformed : g.WellFormed) (hcheck : r.check g = .ok removed)
    (hr : r.isFusion = false) (id : NodeId) : (r.apply g removed).operator? id =
      (g.operator? id).map fun n => (r.change id n).mapInputs (r.substitute g) := by
  cases r with
  | fuse f => cases hr
  | «alias» pairs => exact Graph.operator?_replaceValues hg pairs id
  | constant id' c =>
    obtain ⟨name, happly, -, -⟩ := constant_eq_alias hformed hcheck
    rw [happly, Graph.operator?_replaceValue _ _ _ (hg.addConstant name c), Graph.addConstant,
      Graph.operator?_addNode g rfl]
    rfl
  | replaceOperator id' op =>
    refine (Graph.operator?_replaceOperator g id' op id).trans ?_
    by_cases hid : id = id'
    · simp [change, substitute, hid, OperatorNode.mapInputs_id]
    · simp [change, substitute, hid, OperatorNode.mapInputs_id]
  | replaceInputs id' op inputs =>
    obtain ⟨n, hn, -⟩ := check_replaceInputs hcheck
    rw [operator?_apply_replaceInputs hn]
    by_cases hid : id = id'
    · subst hid
      simp [change, substitute, hn, OperatorNode.mapInputs_id]
    · simp [change, substitute, hid, OperatorNode.mapInputs_id]

theorem outputsOf_apply (hg : g.Indexed) (hformed : g.WellFormed) (hcheck : r.check g = .ok removed)
    (hr : r.isFusion = false) (id : NodeId) : (r.apply g removed).outputsOf id = g.outputsOf id := by
  rw [Graph.outputsOf, Graph.outputsOf, operator?_apply hg hformed hcheck hr]
  cases g.operator? id with
  | none => rfl
  | some n => exact r.outputs_change id n

/-- No rewrite other than a fusion removes a node. -/
theorem readable?_apply (hg : g.Indexed) (hformed : g.WellFormed) (hcheck : r.check g = .ok removed)
    (hr : r.isFusion = false) (hv : (g.readable? v).isSome) : (r.apply g removed).readable? v = g.readable? v := by
  cases r with
  | fuse f => cases hr
  | «alias» pairs => exact Graph.readable?_replaceValues g pairs v
  | constant id' c =>
    obtain ⟨name, happly, -, -⟩ := constant_eq_alias hformed hcheck
    rw [happly, Graph.readable?_replaceValue, Graph.readable?_addConstant name c hv]
  | replaceOperator id' op => exact Graph.readable?_replaceOperator g id' op v
  | replaceInputs id' op inputs =>
    obtain ⟨n, hn, -⟩ := check_replaceInputs hcheck
    obtain ⟨g', happly, hg', hsame⟩ := apply_replaceInputs_eq removed hg id' op inputs
    obtain ⟨n', hn'⟩ : ∃ n', g'.operator? id' = some n' :=
      Option.isSome_iff_exists.1 (by rw [hsame.operators, hn]; rfl)
    rw [happly, Graph.readable?_replaceInputs id' inputs hn', hsame.readable?]

theorem outputIds_apply (hg : g.Indexed) (hformed : g.WellFormed) (hcheck : r.check g = .ok removed)
    (hr : r.isFusion = false) : (r.apply g removed).outputIds = g.outputIds.map (r.substitute g) := by
  cases r with
  | fuse f => cases hr
  | «alias» pairs => exact Graph.outputIds_replaceValues g pairs
  | constant id' c =>
    obtain ⟨name, happly, -, -⟩ := constant_eq_alias hformed hcheck
    rw [happly, Graph.outputIds_replaceValue]
    rfl
  | replaceOperator id' op =>
    exact (Graph.sameEdges_replaceOperator g id' op).outputIds.trans (List.map_id' _).symm
  | replaceInputs id' op inputs =>
    obtain ⟨n, hn, -⟩ := check_replaceInputs hcheck
    obtain ⟨g', happly, hg', hsame⟩ := apply_replaceInputs_eq removed hg id' op inputs
    obtain ⟨n', hn'⟩ : ∃ n', g'.operator? id' = some n' :=
      Option.isSome_iff_exists.1 (by rw [hsame.operators, hn]; rfl)
    rw [happly, Graph.outputIds_replaceInputs id' inputs hn', hsame.outputIds]
    exact (List.map_id' _).symm

end Rewrite

/-! ## Agreement -/

namespace Rewrite

variable {g : Graph} {env : IdMap Value} {removed : List NodeId} {r : Rewrite} {id v : NodeId} {x : Value}
  {n : OperatorNode} {xs ys : List Value}

/-- Whether a rewrite uses values in place of equal ones and lets operators compute what they computed. -/
def Agrees (g : Graph) (env : IdMap Value) : Rewrite → Prop
  | .fuse _ => False
  | .alias pairs => ∀ v x, g.Evaluates env v x → g.Evaluates env (redirectAll pairs v) x
  | .constant id c => ∀ x, g.Evaluates env id x → x = c
  | .replaceOperator id op => ∀ n xs ys, g.operator? id = some n → n.op.run xs = .ok ys → op.run xs = .ok ys
  | .replaceInputs id op inputs => ∀ n xs ys, g.operator? id = some n → g.EvaluatesAll env n.inputs xs →
      n.op.run xs = .ok ys → ∃ xs', g.EvaluatesAll env inputs xs' ∧ (op.getD n.op).run xs' = .ok ys

/-- An alias agrees if each of its pairs does. -/
theorem agrees_alias {pairs : List (NodeId × NodeId)}
    (h : ∀ pair ∈ pairs, ∀ x, g.Evaluates env pair.1 x → g.Evaluates env pair.2 x) :
    (Rewrite.alias pairs).Agrees g env := by
  intro v x hx
  exact redirectAll_induction (P := (g.Evaluates env · x)) (fun pair hpair => h pair hpair x) hx

theorem Agrees.isFusion (h : r.Agrees g env) : r.isFusion = false := by
  cases r with
  | fuse f => exact h.elim
  | _ => rfl

/-- What is used in place of a value has its value. -/
theorem Agrees.used (hagrees : r.Agrees g env) (h : g.Linkable) (henv : g.Accepts env)
    (hcheck : r.check g = .ok removed) (hx : g.Evaluates env v x) :
    (r.apply g removed).given? env (r.substitute g v) = some x ∨ g.Evaluates env (r.substitute g v) x := by
  cases r with
  | fuse f => exact hagrees.elim
  | «alias» pairs => exact .inr (hagrees v x hx)
  | replaceOperator id op => exact .inr hx
  | replaceInputs id op inputs => exact .inr hx
  | constant id c =>
    by_cases hv : v = id
    · subst hv
      obtain rfl := hagrees x hx
      obtain ⟨name, happly, -, -⟩ := constant_eq_alias h.formed hcheck
      -- The new node is a constant, and no input.
      have hnew : g.readable? g.nodes.size = none := by simp [Graph.readable?, Graph.node?_size]
      have hget : env.get? g.nodes.size = none := by
        rw [Option.eq_none_iff_forall_ne_some]
        intro y hy
        have hvalue := h.formed.inputs _ (henv _ y hy)
        simp [Graph.isValue_eq, hnew] at hvalue
      left
      rw [substitute, Graph.redirect, if_pos rfl, happly, Graph.given?, hget, Graph.constant?_eq,
        Graph.readable?_replaceValue, Graph.readable?_newConstant]
      rfl
    · right
      rwa [substitute, Graph.redirect, if_neg hv]

/-- Operators compute what they computed. -/
theorem Agrees.run (hagrees : r.Agrees g env) (hn : g.operator? id = some n) (hxs : g.EvaluatesAll env n.inputs xs)
    (hys : n.op.run xs = .ok ys) :
    ∃ xs', g.EvaluatesAll env (r.change id n).inputs xs' ∧ (r.change id n).op.run xs' = .ok ys := by
  cases r with
  | fuse f => exact hagrees.elim
  | «alias» pairs => exact ⟨xs, hxs, hys⟩
  | constant id' c => exact ⟨xs, hxs, hys⟩
  | replaceOperator id' op =>
    simp only [change]
    split
    · next hid =>
      subst hid
      exact ⟨xs, hxs, hagrees n xs ys hn hys⟩
    · exact ⟨xs, hxs, hys⟩
  | replaceInputs id' op inputs =>
    simp only [change]
    split
    · next hid =>
      subst hid
      exact hagrees n xs ys hn hxs hys
    · exact ⟨xs, hxs, hys⟩

end Rewrite

namespace Graph

variable {g g' : Graph} {env : IdMap Value} {v : NodeId} {x : Value}

theorem given?_of_readable? (hsame : g'.readable? v = g.readable? v) : g'.given? env v = g.given? env v := by
  rw [given?, given?, constant?_eq, constant?_eq, hsame]

theorem isSome_readable?_of_given? (hg : g.WellFormed) (henv : g.Accepts env) (hx : g.given? env v = some x) :
    (g.readable? v).isSome := by
  rw [given?, Option.orElse_eq_some] at hx
  rcases hx with hx | ⟨-, hx⟩
  · exact Option.isSome_of_any (isValue_eq ▸ hg.inputs v (henv v x hx))
  · rw [constant?_eq] at hx
    obtain ⟨node, hnode, -⟩ := Option.bind_eq_some_iff.1 hx
    exact Option.isSome_of_eq_some hnode

/-- Whether every operator computes its outputs. -/
def Total (g : Graph) (env : IdMap Value) : Prop := ∀ id, ∀ v ∈ g.outputsOf id, ∃ x, g.Evaluates env v x

end Graph

namespace Rewrite.Agrees

variable {g : Graph} {env : IdMap Value} {removed : List NodeId} {r : Rewrite} {v : NodeId} {x : Value}
  (hagrees : r.Agrees g env) (h : g.Linkable) (henv : g.Accepts env) (hcheck : r.check g = .ok removed)
  (hg' : (r.apply g removed).Succeeds g)

include hagrees h henv hcheck hg'

/-- All nodes keep their values. -/
theorem evaluates (hx : g.Evaluates env v x) : (r.apply g removed).Evaluates env v x := by
  have hr := hagrees.isFusion
  -- Replaced inputs can be computed late in the old graph, so the induction is on the new one.
  have hwf := Graph.acyclic_iff_wellFounded.1 hg'.linkable.acyclic
  induction v using hwf.induction generalizing x with
  | _ v ih =>
    cases hx with
    | given hgiven =>
      apply Graph.Evaluates.given
      rwa [Graph.given?_of_readable? (readable?_apply h.indexed h.formed hcheck hr
        (Graph.isSome_readable?_of_given? h.formed henv hgiven))]
    | @computed _ id _ n xs ys hn hlen hxs hrun hcount hmem =>
      have hall : g.EvaluatesAll env n.inputs xs := List.forall₂_iff_zip.2 ⟨hlen, fun he => hxs _ he⟩
      obtain ⟨xs', hxs', hrun'⟩ := hagrees.run hn hall hrun
      have hn' := operator?_apply h.indexed h.formed hcheck hr id
      rw [hn] at hn'
      rw [← r.outputs_change id n] at hcount hmem
      refine .of_run hn' ?_ hrun' hcount hmem
      refine List.forall₂_map_left_iff.2 (List.forall₂_iff_zip.2 ⟨hxs'.length_eq, fun {u y} he => ?_⟩)
      rcases hagrees.used h henv hcheck (List.forall₂_zip hxs' he) with hgiven | hused
      · exact .given hgiven
      · refine ih _ ⟨id, ?_, ?_⟩ hused
        · rw [Graph.inputsOf_of_operator? hn']
          exact List.mem_map_of_mem (List.of_mem_zip he).1
        · rw [Graph.outputsOf_of_operator? hn']
          exact (List.of_mem_zip hmem).1

/-- What is used in place of a node has the value of the node. -/
theorem evaluates_substitute (hx : g.Evaluates env v x) : (r.apply g removed).Evaluates env (r.substitute g v) x := by
  rcases hagrees.used h henv hcheck hx with hgiven | hused
  · exact .given hgiven
  · exact hagrees.evaluates h henv hcheck hg' hused

theorem evaluatesAll {xs : List Value} (hxs : g.EvaluatesAll env g.outputIds xs) :
    (r.apply g removed).EvaluatesAll env (r.apply g removed).outputIds xs := by
  rw [outputIds_apply h.indexed h.formed hcheck hagrees.isFusion]
  refine List.forall₂_map_left_iff.2 (hxs.imp fun v x hx => ?_)
  exact hagrees.evaluates_substitute h henv hcheck hg' hx

theorem total (htotal : g.Total env) : (r.apply g removed).Total env := by
  intro id v hv
  rw [outputsOf_apply h.indexed h.formed hcheck hagrees.isFusion] at hv
  obtain ⟨x, hx⟩ := htotal id v hv
  exact ⟨x, hagrees.evaluates h henv hcheck hg' hx⟩

/-- If all operators compute their outputs, then a node has the value that it had, or it is a new one. -/
theorem reflects (htotal : g.Total env) (hx : (r.apply g removed).Evaluates env v x) :
    g.Evaluates env v x ∨ g.readable? v = none := by
  have hr := hagrees.isFusion
  by_cases hv : (g.readable? v).isSome
  · left
    cases hx with
    | given hgiven =>
      apply Graph.Evaluates.given
      rwa [Graph.given?_of_readable? (readable?_apply h.indexed h.formed hcheck hr hv)] at hgiven
    | @computed _ id _ n xs ys hn hlen hxs hrun hcount hmem =>
      have hout : v ∈ (r.apply g removed).outputsOf id := Graph.mem_outputsOf.2 ⟨n, hn, (List.of_mem_zip hmem).1⟩
      rw [outputsOf_apply h.indexed h.formed hcheck hr] at hout
      obtain ⟨y, hy⟩ := htotal id v hout
      have hy' := hagrees.evaluates h henv hcheck hg' hy
      have henv' : (r.apply g removed).Accepts env := fun w y hw => hg'.inputIds ▸ henv w y hw
      have hx : (r.apply g removed).Evaluates env v x := .computed hn hlen hxs hrun hcount hmem
      rwa [hx.unique hg'.linkable henv' hy']
  · exact .inr (Option.not_isSome_iff_eq_none.1 hv)

end Rewrite.Agrees

/-! ## Pruning -/

namespace Graph

variable {g : Graph} {env : IdMap Value} {v : NodeId} {x : Value}

theorem Evaluates.prune (hx : g.Evaluates env v x) (h : g.Linkable) (hv : v ∈ g.neededIds) :
    g.prune.1.Evaluates env v x := by
  obtain ⟨-, hmarks⟩ := marks_neededIds h.indexed h.formed
  induction hx with
  | given hgiven =>
    apply Evaluates.given
    rwa [given?_of_readable? (readable?_prune h.indexed hv)]
  | @computed v id x op xs ys hop hlen _ hrun hcount hmem ih =>
    have hid : v ∈ g.outputsOf id := outputsOf_of_operator? hop ▸ (List.of_mem_zip hmem).1
    have hkept : id ∈ g.neededIds := (hmarks.sources v hv id hid).resolve_right List.not_mem_nil
    have hop' := (operator?_prune h.indexed id).trans (if_pos hkept)
    refine .computed (hop'.trans hop) hlen (fun e he => ih e he (hmarks.reads id hkept ?_)) hrun hcount hmem
    exact inputsOf_of_operator? hop ▸ (List.of_mem_zip he).1

theorem EvaluatesAll.prune {xs : List Value} (h : g.Linkable) (hxs : g.EvaluatesAll env g.outputIds xs) :
    g.prune.1.EvaluatesAll env g.prune.1.outputIds xs := by
  obtain ⟨hends, -⟩ := marks_neededIds h.indexed h.formed
  rw [outputIds_prune h.indexed]
  refine List.forall₂_iff_zip.2 ⟨hxs.length_eq, fun {o x} he => ?_⟩
  exact Evaluates.prune (List.forall₂_zip hxs he) h (hends (List.mem_append_right _ (List.of_mem_zip he).1))

end Graph

end TensorGraph
