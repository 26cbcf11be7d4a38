import TensorGraph.Proofs.Operator.Identities
import TensorGraph.Proofs.Rewrite.Proposals
import TensorGraph.Proofs.Single.Integers

/-!
# Neutral elements

Arithmetic with a constant is bypassed if the constant is the neutral element, up to the tolerance of constants in
patterns. An integer constant that is within the tolerance is the neutral element, and a float constant is not further
from it than the float nearest to a ten thousandth (`constantMatches_iff`). All that the rule for useless arithmetic
proposes is of this kind (`uselessElementwise_bypasses`).
-/

namespace TensorGraph

/-! ## Constants near a number -/

/-- Whether a value has one element, which is an integer or, if it is a float, differs from it by at most
`13743895 / 2 ^ 37`, about a ten thousandth. -/
def Value.IsNear (n : Int) : Value → Prop
  | .ints t => ∃ w, t.item? = some w ∧ w.toInt = n
  | .floats t => ∃ x, t.item? = some x ∧ x.isFinite = true ∧ |x.toRat - n| ≤ 13743895 / 2 ^ 37

namespace Single

theorem unpacked_tolerance : Pattern.tolerance.unpacked = .finite .positive 13743895 (-37) (by decide) := by
  rw [show Pattern.tolerance = ⟨0x38d1b717⟩ by decide +kernel]
  rfl

theorem toRat_tolerance : Pattern.tolerance.toRat = 13743895 / 2 ^ 37 := by
  rw [toRat, unpacked_tolerance, number_finite]
  norm_num [Float.Model.UnpackedFloat.Sign.apply]

/-- The neutral elements of arithmetic. -/
def IsNeutral (x : Single) (n : Int) : Prop := x = .zero ∧ n = 0 ∨ x = .one ∧ n = 1

theorem near_iff {x c : Single} {n : Int} (h : c.IsNeutral n) :
    (x.sub c).abs.le Pattern.tolerance = true ↔ x.isFinite = true ∧ |x.toRat - n| ≤ 13743895 / 2 ^ 37 := by
  rw [← toRat_tolerance]
  rcases h with ⟨rfl, rfl⟩ | ⟨rfl, rfl⟩
  · simpa using abs_sub_zero_le_iff unpacked_tolerance
  · have hsmall : Pattern.tolerance.toRat < 1 / 2 := by
      rw [toRat_tolerance]
      norm_num
    simpa using abs_sub_one_le_iff unpacked_tolerance hsmall

/-- No integer but the neutral element is near to it. -/
theorem ofInt_near_iff {c : Single} {z n : Int} (h : c.IsNeutral n) :
    ((ofInt z).sub c).abs.le Pattern.tolerance = true ↔ z = n := by
  by_cases hz : 2 ≤ z.natAbs
  · have hn : |(n : ℚ)| ≤ 1 := by rcases h with ⟨-, rfl⟩ | ⟨-, rfl⟩ <;> simp
    refine iff_of_false (fun hnear => ?_) (by rcases h with ⟨-, rfl⟩ | ⟨-, rfl⟩ <;> omega)
    obtain ⟨hfinite, hle⟩ := (near_iff h).1 hnear
    have hlarge := two_le_of_isFinite_ofInt hz hfinite
    have hapart := abs_sub_abs_le_abs_sub (ofInt z).toRat n
    have hbound : (13743895 : ℚ) / 2 ^ 37 < 1 := by norm_num
    linarith
  · obtain rfl | rfl | rfl : z = 0 ∨ z = 1 ∨ z = -1 := by omega
    all_goals rcases h with ⟨rfl, rfl⟩ | ⟨rfl, rfl⟩ <;> decide +kernel

end Single

namespace Pattern

theorem constantMatches_iff {c : Single} {n : Int} (h : c.IsNeutral n) (v : Value) :
    constantMatches c v = true ↔ v.IsNear n := by
  cases v with
  | floats t => simp [constantMatches, Value.asScalar?, Value.IsNear, Single.near_iff h, Option.any_eq_true]
  | ints t =>
    simp [constantMatches, Value.asScalar?, Value.IsNear, Single.ofWord, Single.ofInt_near_iff h, Option.any_eq_true]

/-! ## Arithmetic with a constant -/

variable {g : Graph} {id x : NodeId} {found : Bindings}

/-- Forwards the first input is bound to the symbol and the second one is the constant. -/
theorem matchForward_constant {a b : NodeId} {c : Single}
    (h : matchForward g [a, b] [] [.any "x", .constant c] = some found) :
    found.lookup "x" = some a ∧ ∃ value, g.constant? b = some value ∧ constantMatches c value = true := by
  rw [matchForward] at h
  obtain ⟨bound, hbound, h⟩ := Option.bind_eq_some_iff.1 h
  rw [Pattern.any, matchNode] at hbound
  rw [matchForward, matchNode] at h
  obtain ⟨bound', hconstant, h⟩ := Option.bind_eq_some_iff.1 h
  split at hconstant
  · next hany =>
    cases hconstant
    simp only [matchForward, Option.some.injEq] at h
    subst h
    obtain ⟨value, hvalue, hmatches⟩ := (Option.any_eq_true ..).1 hany
    exact ⟨(bindSymbol_eq_some hbound).2, value, hvalue, hmatches⟩
  · cases hconstant

/-- Backwards it is the other way around. -/
theorem matchBackward_constant {a b : NodeId} {c : Single}
    (h : matchBackward g [b, a] [] [.any "x", .constant c] = some found) :
    found.lookup "x" = some b ∧ ∃ value, g.constant? a = some value ∧ constantMatches c value = true := by
  rw [matchBackward] at h
  obtain ⟨bound, hbound, h⟩ := Option.bind_eq_some_iff.1 h
  rw [Pattern.any, matchNode] at h
  rw [matchBackward] at hbound
  obtain ⟨bound', -, hconstant⟩ := Option.bind_eq_some_iff.1 hbound
  rw [matchNode] at hconstant
  split at hconstant
  · next hany =>
    obtain ⟨value, hvalue, hmatches⟩ := (Option.any_eq_true ..).1 hany
    exact ⟨(bindSymbol_eq_some h).2, value, hvalue, hmatches⟩
  · cases hconstant

/-- Whether an operator is applied to a value and a constant that a pattern's constant matches. -/
def AppliesConstant (g : Graph) (c : Single) (x : NodeId) (op : OperatorNode) : Prop :=
  ∃ k value, (op.inputs = [x, k] ∨ op.op.isCommutative = true ∧ op.inputs = [k, x]) ∧ g.constant? k = some value ∧
    constantMatches c value = true

/-- What a pattern for arithmetic with a constant matches. -/
theorem match?_binary_constant {name : String} {c : Single}
    (h : (Pattern.binary name (.any "x") (.constant c)).match? g id = some found) (hx : found.lookup "x" = some x) :
    ∃ opId op, operatorAt? g id = some (opId, op) ∧ op.op.name = name ∧ AppliesConstant g c x op := by
  rw [match?, Pattern.binary, matchNode] at h
  obtain ⟨⟨opId, op⟩, hop, h⟩ := Option.bind_eq_some_iff.1 h
  dsimp only at h
  split at h
  · cases h
  · next hshape =>
    simp only [bne_iff_ne, Bool.or_eq_true, not_or, ne_eq, Decidable.not_not] at hshape
    refine ⟨opId, op, hop, hshape.1, ?_⟩
    obtain ⟨a, b, hinputs⟩ := List.length_eq_two.1 hshape.2.symm
    have hforward (h : matchForward g op.inputs [] [.any "x", .constant c] = some found) :
        AppliesConstant g c x op := by
      rw [hinputs] at h
      obtain ⟨hbound, value, hvalue, hmatches⟩ := matchForward_constant h
      obtain rfl : a = x := Option.some.inj (hbound.symm.trans hx)
      exact ⟨b, value, .inl hinputs, hvalue, hmatches⟩
    split at h
    · next hcommutative =>
      obtain ⟨bound, hfound, h⟩ := Option.bind_eq_some_iff.1 h
      obtain rfl : bound = found := Option.some.inj h
      rcases (Option.orElse_eq_some ..).1 hfound with hmatch | ⟨-, hmatch⟩
      · exact hforward hmatch
      · rw [hinputs] at hmatch
        obtain ⟨hbound, value, hvalue, hmatches⟩ := matchBackward_constant hmatch
        obtain rfl : b = x := Option.some.inj (hbound.symm.trans hx)
        have hcommutes : op.op.isCommutative = true := (Bool.and_eq_true_iff.1 hcommutative).1
        exact ⟨a, value, .inr ⟨hcommutes, hinputs⟩, hvalue, hmatches⟩
    · obtain ⟨bound, hmatch, h⟩ := Option.bind_eq_some_iff.1 h
      obtain rfl : bound = found := Option.some.inj h
      exact hforward hmatch

end Pattern

/-! ## Useless arithmetic -/

/-- The neutral element of a function, as its second argument. -/
def ScalarFn.neutral? : ScalarFn → Option Int
  | .add | .sub => some 0
  | .mul | .div | .pow => some 1
  | _ => none

/-- Whether an operator is arithmetic of a value with a constant near the neutral element. -/
structure Graph.NeutralArithmetic (g : Graph) (x : NodeId) (op : OperatorNode) (fn : ScalarFn) (n : Int)
    (k : NodeId) (c : Value) : Prop where
  name : op.op.name = fn.name
  function : op.op.IsBuiltin → ∃ inPlace, op.op = .elementwise { fn, inPlace }
  neutral : fn.neutral? = some n
  inputs : op.inputs = [x, k] ∨ op.op.isCommutative = true ∧ op.inputs = [k, x]
  constant : g.constant? k = some c
  near : c.IsNear n

namespace Rules

variable {v : RewriteView} {id : NodeId} {op : OperatorNode} {r : Rewrite}

theorem exists_of_mem_neutralPatterns {p : Pattern} (hp : p ∈ neutralPatterns) : ∃ (fn : ScalarFn) (n : Int) (c : Single),
    p = .binary fn.name (.any "x") (.constant c) ∧ fn.neutral? = some n ∧ c.IsNeutral n := by
  simp only [neutralPatterns, List.mem_cons, List.not_mem_nil, or_false] at hp
  rcases hp with rfl | rfl | rfl | rfl | rfl
  · exact ⟨.add, 0, .zero, rfl, rfl, .inl ⟨rfl, rfl⟩⟩
  · exact ⟨.sub, 0, .zero, rfl, rfl, .inl ⟨rfl, rfl⟩⟩
  · exact ⟨.mul, 1, .one, rfl, rfl, .inr ⟨rfl, rfl⟩⟩
  · exact ⟨.div, 1, .one, rfl, rfl, .inr ⟨rfl, rfl⟩⟩
  · exact ⟨.pow, 1, .one, rfl, rfl, .inr ⟨rfl, rfl⟩⟩

/-- What is bypassed as useless arithmetic is computed, by the operator that the graph has for it, from the value it
is replaced by and a constant near the neutral element: an integer constant is the neutral element. -/
theorem uselessElementwise_bypasses (hr : uselessElementwise.propose v id op = .rewrite r) :
    ∃ output x sourceId source fn n k c, r = .alias [(output, x)] ∧ op.singleOutput? = some output ∧
      v.facts.sameShape output x = true ∧ Pattern.operatorAt? v.graph output = some (sourceId, source) ∧
      (v.graph.Indexed → v.graph.isReadable output = true → v.graph.operator? id = some op → source = op) ∧
      v.graph.NeutralArithmetic x source fn n k c := by
  have hr := Proposal.ofOption_eq_rewrite.1 hr
  unfold bypassNeutral at hr
  obtain ⟨output, houtput, hr⟩ := Option.bind_eq_some_iff.1 hr
  obtain ⟨found, hfound, hr⟩ := Option.bind_eq_some_iff.1 hr
  obtain ⟨x, hx, hr⟩ := Option.bind_eq_some_iff.1 hr
  obtain ⟨p, hp, hmatch⟩ := List.exists_of_findSome?_eq_some hfound
  obtain ⟨fn, n, c, rfl, hfn, hneutral⟩ := exists_of_mem_neutralPatterns hp
  obtain ⟨sourceId, source, hsource, hname, k, value, hinputs, hconstant, hmatches⟩ :=
    Pattern.match?_binary_constant hmatch hx
  split at hr
  · next hshape =>
    cases hr
    refine ⟨output, x, sourceId, source, fn, n, k, value, rfl, houtput, hshape, hsource, ?_, ?_⟩
    · intro hg hread hop
      obtain ⟨hsource, hproduced⟩ := Pattern.operatorAt?_eq_some hg hread hsource
      have hproduces : output ∈ v.graph.outputsOf id := by
        rw [Graph.outputsOf_of_operator? hop, singleOutput?_eq_some.1 houtput]
        exact List.mem_singleton_self output
      rw [hg.producer_unique hproduced hproduces] at hsource
      exact Option.some.inj (hsource.symm.trans hop)
    · exact ⟨hname, fun hbuiltin => Operator.eq_elementwise_of_name fn hbuiltin hname, hfn, hinputs, hconstant,
        (Pattern.constantMatches_iff hneutral value).1 hmatches⟩
  · cases hr

/-- Adds a constant near zero. -/
def nearZeroSum : OperatorNode := { name := "y", inputs := [0, 1], outputs := [2], op := .elementwise { fn := .add } }

/-- A graph that adds the constant 0.00005 to its input. -/
def shiftedSlightly : Graph :=
  let g := (Graph.empty.addValue "x" (some [.symbolic "n"]) none).1
  let g := (g.addConstant none (.floats (.scalar ⟨0x3851b717⟩))).1
  let g := (g.addValue "y" none none).1
  let g := (g.addOperator "y" nearZeroSum.op [0, 1] [2]).1
  (g.setInputs [0]).setOutputs [2]

def shiftedSlightlyView : RewriteView where
  graph := shiftedSlightly
  facts := { facts := ⟨[(0, .shape [.posVar "n"]), (2, .shape [.posVar "n"])]⟩ }

/-- The sum is replaced by the input, although the constant is not zero. -/
theorem uselessElementwise_bypasses_shiftedSlightly : shiftedSlightly.validate = .ok () ∧
    shiftedSlightly.operator? 3 = some nearZeroSum ∧ (⟨0x3851b717⟩ : Single).toRat ≠ 0 ∧
    uselessElementwise.propose shiftedSlightlyView 3 nearZeroSum = .rewrite (.alias [(2, 0)]) ∧
    ∃ output x sourceId source fn n k c, Rewrite.alias [(2, 0)] = .alias [(output, x)] ∧
      nearZeroSum.singleOutput? = some output ∧ shiftedSlightlyView.facts.sameShape output x = true ∧
      Pattern.operatorAt? shiftedSlightly output = some (sourceId, source) ∧
      (shiftedSlightly.Indexed → shiftedSlightly.isReadable output = true → shiftedSlightly.operator? 3 = some nearZeroSum →
        source = nearZeroSum) ∧
      shiftedSlightly.NeutralArithmetic x source fn n k c := by
  have hfound : Pattern.firstMatch? neutralPatterns shiftedSlightly 2 = some [("x", 0)] := by decide +kernel
  have hshape : shiftedSlightlyView.facts.sameShape 2 0 = true := by decide +kernel
  have hpropose : uselessElementwise.propose shiftedSlightlyView 3 nearZeroSum = .rewrite (.alias [(2, 0)]) := by
    change Proposal.ofOption (bypassNeutral shiftedSlightlyView nearZeroSum) = _
    have houtput : nearZeroSum.singleOutput? = some 2 := rfl
    have hx : List.lookup "x" [("x", (0 : NodeId))] = some 0 := rfl
    rw [Proposal.ofOption_eq_rewrite, bypassNeutral, houtput, Option.bind_eq_bind, Option.bind_some,
      show shiftedSlightlyView.graph = shiftedSlightly from rfl, hfound, Option.bind_eq_bind, Option.bind_some, hx,
      Option.bind_some, hshape]
    rfl
  have hvalue : (⟨0x3851b717⟩ : Single).unpacked = .finite .positive 13743895 (-38) (by decide) := rfl
  have hne : (⟨0x3851b717⟩ : Single).toRat ≠ 0 := by
    rw [Single.toRat, hvalue, Single.number_finite]
    norm_num [Float.Model.UnpackedFloat.Sign.apply]
  exact ⟨by decide +kernel, rfl, hne, hpropose, uselessElementwise_bypasses hpropose⟩

end Rules

end TensorGraph
