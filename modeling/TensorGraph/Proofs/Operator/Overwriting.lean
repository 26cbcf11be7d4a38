import TensorGraph.Proofs.Operator.Pointwise
import TensorGraph.Proofs.Tensor.Overwriting

/-!
# Operators that overwrite their first input

Elementwise and fused operators can overwrite their first input. They then have their own test for shapes, their own
order of checks and, where the result is larger than the first input, a run that overwrites nothing. They return a value
exactly if an ordinary run on all inputs does, and the same one (`runInPlace_eq_ok_iff_run`). The errors can differ.
-/

namespace TensorGraph

/-! ## Scalar functions -/

namespace Elementwise

variable {op : Elementwise} {fn : ScalarFn} {a b v : Value}

/-- Overwrites a value by its combination with another. -/
def overwriteBinary (fn : ScalarFn) (a b : Value) : OpResult Value :=
  match a, b with
  | .floats a, .floats b => do return .floats (← a.zipOverwrite (fun x y => pure (fn.binary x y)) b)
  | .ints a, .ints b =>
    if fn.supportsInts then do return .ints (← a.zipOverwrite fn.binaryInt b) else .error .unsupportedType
  | _, _ => .error .unsupportedType

theorem runInPlace_binary (h : op.fn.arity = 2) (a b : Value) : op.runInPlace a [b] =
    if Shape.canBroadcast b.shape a.shape then overwriteBinary op.fn a b else op.run [a, b] := by
  unfold runInPlace
  rw [if_neg (by omega)]
  change (if !Shape.canBroadcast b.shape a.shape then op.run [a, b] else _) = _
  cases Shape.canBroadcast b.shape a.shape
  · rfl
  · cases a <;> cases b <;> rfl

theorem overwriteBinary_eq_ok_iff (h : Shape.canBroadcast b.shape a.shape = true) :
    overwriteBinary fn a b = .ok v ↔ runBinary fn a b = .ok v := by
  cases a with
  | floats x =>
    cases b with
    | floats y => exact bind_eq_ok_congr fun t => Tensor.zipOverwrite_eq_ok_iff h
    | ints y => exact Iff.rfl
  | ints x =>
    cases b with
    | floats y => exact Iff.rfl
    | ints y =>
      unfold overwriteBinary runBinary
      dsimp only
      split
      · exact bind_eq_ok_congr fun t => Tensor.zipOverwrite_eq_ok_iff h
      · exact Iff.rfl

theorem runInPlace_unary_iff (h : op.fn.arity = 1) (rest : List Value) :
    op.runInPlace a rest = .ok v ↔ runUnary op.fn a = .ok v := by
  unfold runInPlace
  rw [if_pos h]
  cases a with
  | floats x =>
    have hmap : Tensor.generate x.shape (fun i => op.fn.unary (x.read i)) = x.map op.fn.unary :=
      Tensor.eq_of_read rfl fun i hi => (Tensor.read_generate _ hi).trans (x.read_map op.fn.unary hi).symm
    dsimp only
    rw [Tensor.overwrite_pure fun _ => op.fn.unary, hmap]
    rfl
  | ints x => exact bind_eq_ok_congr fun y => Tensor.overwrite_eq_ok_iff_mapM

/-- With as many inputs as the function takes, overwriting the first gives what an ordinary run gives. -/
theorem runInPlace_iff {rest : List Value} (h : rest.length + 1 = op.fn.arity) :
    op.runInPlace a rest = .ok v ↔ op.run (a :: rest) = .ok v := by
  rcases op.fn.arity_eq with harity | harity
  · rw [runInPlace_unary_iff harity, run_unary op harity]
  · obtain ⟨b, rfl⟩ := List.length_eq_one_iff.1 (show rest.length = 1 by omega)
    rw [runInPlace_binary harity]
    -- If the second input does not broadcast to the first, nothing is overwritten.
    split
    · next hcan => rw [overwriteBinary_eq_ok_iff hcan, run_binary op harity]
    · exact Iff.rfl

end Elementwise

/-! ## Scalar expressions -/

open Tensor (Combines)

namespace FusedElementwise

variable {op : FusedElementwise} {first v : Value} {rest : List Value} {x : Tensor Single}
  {ts others : List (Tensor Single)}

/-- The inputs that an operator reads, by the first one and the others. -/
theorem floatInputs_cons_iff {n : Nat} (hn : op.numInputs = n + 1) : op.floatInputs (first :: rest) = .ok ts ↔
    ∃ x others, ts = x :: others ∧ first = .floats x ∧ others.length = n ∧ rest.take n = others.map .floats := by
  rw [floatInputs_eq_ok_iff, hn, List.take_succ_cons]
  cases ts with
  | nil => simp
  | cons x others => simp [and_left_comm]

theorem run_of_floatInputs {inputs : List Value} (h : op.floatInputs inputs = .ok ts) :
    op.run inputs = apply (fun xs => op.expr.eval xs) ts := by
  unfold run
  rw [h]
  rfl

/-- Overwrites the first of the inputs that are read, unless the result is larger. -/
def overwriteFirst (op : FusedElementwise) (first : Value) (rest : List Value) (x : Tensor Single)
    (others : List (Tensor Single)) : OpResult Value := do
  let shape ← outputShape (x :: others)
  if shape ≠ x.shape then op.run (first :: rest)
  else
    let readers ← others.mapM (reader shape)
    let out ← x.overwrite fun i x => pure (op.expr.eval (x :: readers.map (· i)))
    return .floats out

theorem runInPlace_floats (x : Tensor Single) (rest : List Value) : op.runInPlace (.floats x) rest =
    if rest.length + 1 < op.numInputs then .error .missingInputs
    else (List.range (op.numInputs - 1)).mapM (Inputs.requireFloatsAfterFirst rest) >>=
      op.overwriteFirst (.floats x) rest x := by
  unfold runInPlace
  by_cases hfew : rest.length + 1 < op.numInputs
  · rw [if_pos hfew, if_pos hfew]
    rfl
  · rw [if_neg hfew, if_neg hfew]
    rfl

theorem not_runInPlace_ints (x : Tensor Int32) (rest : List Value) : op.runInPlace (.ints x) rest ≠ .ok v := by
  unfold runInPlace
  by_cases hfew : rest.length + 1 < op.numInputs
  · rw [if_pos hfew]
    nofun
  · rw [if_neg hfew]
    nofun

/-- Overwriting checks the inputs in another order, but reads the same ones. -/
theorem runInPlace_eq_ok_iff {n : Nat} (hn : op.numInputs = n + 1) : op.runInPlace first rest = .ok v ↔
    ∃ x others, op.floatInputs (first :: rest) = .ok (x :: others) ∧ op.overwriteFirst first rest x others = .ok v := by
  simp only [floatInputs_cons_iff hn, List.cons.injEq]
  cases first with
  | ints x =>
    refine iff_of_false (not_runInPlace_ints x rest) ?_
    rintro ⟨_, _, ⟨_, _, -, hfirst, -⟩, -⟩
    cases hfirst
  | floats x =>
    rw [runInPlace_floats, hn]
    split
    · next hfew =>
      refine iff_of_false nofun ?_
      rintro ⟨_, _, ⟨_, others, -, -, hlen, htake⟩, -⟩
      exact Nat.not_le.2 hfew (Nat.succ_le_succ (Inputs.le_length_of_take hlen htake))
    · refine bind_eq_ok.trans ?_
      simp only [Nat.add_sub_cancel, Inputs.mapM_range_eq_ok fun i t => Inputs.requireFloatsAfterFirst_eq_ok]
      constructor
      · rintro ⟨others, hothers, hrun⟩
        exact ⟨x, others, ⟨x, others, ⟨rfl, rfl⟩, rfl, hothers⟩, hrun⟩
      · rintro ⟨_, _, ⟨_, others, ⟨rfl, rfl⟩, hx, hothers⟩, hrun⟩
        cases hx
        exact ⟨_, hothers, hrun⟩

/-- What overwriting the first input computes, where the result is not larger. -/
theorem combines_overwritten {readers : List (Nat → Single)} (f : List Single → Single)
    (hjoins : Shape.Joins ((x :: others).map (·.shape)) x.shape)
    (hreaders : ∀ i < volume x.shape, readers.map (· i) = others.map (·.readIn x.shape i)) :
    Combines f (x :: others) (.generate x.shape fun i => f (x.read i :: readers.map (· i))) := by
  refine ⟨hjoins, fun i hi => ?_⟩
  have hi : i < volume x.shape := hi
  rw [Tensor.read_generate _ hi, hreaders i hi, ← x.readIn_shape hi]
  rfl

theorem overwriteFirst_eq_ok_iff (h : op.floatInputs (first :: rest) = .ok (x :: others)) :
    op.overwriteFirst first rest x others = .ok v ↔ apply (fun xs => op.expr.eval xs) (x :: others) = .ok v := by
  unfold overwriteFirst
  cases hshape : outputShape (x :: others) with
  | error e =>
    unfold apply
    rw [hshape]
    exact Iff.rfl
  | ok shape =>
    have hjoins := outputShape_eq_ok.1 hshape
    change (if shape ≠ x.shape then _ else _) = _ ↔ _
    split
    -- The result is larger than the first input, and all inputs are read again.
    · rw [run_of_floatInputs h]
    · next hsame =>
      obtain rfl := Decidable.not_not.1 hsame
      obtain ⟨readers, hreaders, hread⟩ := exists_readers fun t ht =>
        hjoins.canBroadcast (List.mem_map_of_mem (List.mem_cons_of_mem x ht))
      have hcombines := combines_overwritten (fun xs => op.expr.eval xs) hjoins hread
      rw [hreaders, apply_eq_ok]
      dsimp only [bind, Except.bind]
      rw [Tensor.overwrite_pure fun i y => op.expr.eval (y :: readers.map (· i))]
      constructor
      · intro hout
        cases hout
        exact ⟨_, rfl, hcombines⟩
      · rintro ⟨t, rfl, ht⟩
        rw [ht.unique hcombines]
        rfl

/-- With at least one input, overwriting the first gives what an ordinary run gives. -/
theorem runInPlace_iff (h : 1 ≤ op.numInputs) : op.runInPlace first rest = .ok v ↔ op.run (first :: rest) = .ok v := by
  obtain ⟨n, hn⟩ := Nat.exists_eq_add_of_le' h
  rw [runInPlace_eq_ok_iff hn]
  constructor
  · rintro ⟨x, others, hinputs, hrun⟩
    rw [run_of_floatInputs hinputs]
    exact (overwriteFirst_eq_ok_iff hinputs).1 hrun
  · intro hrun
    obtain ⟨ts, hinputs, happly⟩ := bind_eq_ok.1 hrun
    obtain ⟨x, others, rfl, -⟩ := (floatInputs_cons_iff hn).1 hinputs
    exact ⟨x, others, hinputs, (overwriteFirst_eq_ok_iff hinputs).2 happly⟩

end FusedElementwise

/-! ## Operators -/

/-- An elementwise operator on as many inputs as its function takes, and a fused operator that reads at least one input,
return a value when they overwrite the first input if and only if they return that value on all inputs: whether the
inputs have the types and shapes that they need, whether the result is larger than the first input, and whether some
element of it cannot be computed. -/
theorem runInPlace_eq_ok_iff_run (first v : Value) (rest : List Value) :
    (∀ op : Elementwise, rest.length + 1 = op.fn.arity →
      ((Operator.elementwise op).runInPlace first rest = .ok v ↔
        (Operator.elementwise op).run (first :: rest) = .ok [v])) ∧
    ∀ op : FusedElementwise, 1 ≤ op.numInputs →
      ((Operator.fused op).runInPlace first rest = .ok v ↔ (Operator.fused op).run (first :: rest) = .ok [v]) :=
  ⟨fun _ h => (Elementwise.runInPlace_iff h).trans singleton_eq_ok.symm,
    fun _ h => (FusedElementwise.runInPlace_iff h).trans singleton_eq_ok.symm⟩

/-- Integers that are overwritten by quotients: one by two, which gives a larger tensor; two by one; and two by two of
which the second is zero. Then a fused maximum of floats, which is larger than the first input. -/
theorem runInPlace_eq_ok_iff_run_quotients :
    let quotient := Operator.elementwise { fn := .div, inPlace := true }
    let larger := Operator.fused { expr := .binary .maximum (.input 0) (.input 1), numInputs := 2, inPlace := true }
    quotient.runInPlace (.ints (.vector #[12])) [.ints (.vector #[3, 5])] = .ok (.ints (.vector #[4, 2])) ∧
    quotient.runInPlace (.ints (.vector #[7, -7])) [.ints (.scalar 2)] = .ok (.ints (.vector #[3, -4])) ∧
    (∀ v, quotient.runInPlace (.ints (.vector #[6, 7])) [.ints (.vector #[3, 0])] ≠ .ok v) ∧
    larger.runInPlace (.floats (.vector #[.zero])) [.floats (.vector #[.zero, .one])] =
      .ok (.floats (.vector #[.zero, .one])) := by
  have hquotient (a b v : Value) := (runInPlace_eq_ok_iff_run a v [b]).1 { fn := .div, inPlace := true } rfl
  have hlarger (a b v : Value) := (runInPlace_eq_ok_iff_run a v [b]).2
    { expr := .binary .maximum (.input 0) (.input 1), numInputs := 2, inPlace := true } (by decide)
  have hfails : (Operator.elementwise { fn := .div, inPlace := true }).run
      [.ints (.vector #[6, 7]), .ints (.vector #[3, 0])] = .error (.invalidValue "integer division by zero") := by
    decide +kernel
  refine ⟨(hquotient ..).2 (by decide +kernel), (hquotient ..).2 (by decide +kernel), fun v h => ?_,
    (hlarger ..).2 (by decide +kernel)⟩
  have hrun := (hquotient ..).1 h
  rw [hfails] at hrun
  cases hrun

end TensorGraph
