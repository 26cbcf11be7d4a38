import TensorGraph.Program.Linking
import TensorGraph.Proofs.Operator.Pointwise

/-!
# The kernel of elementwise operators

The kernel looks at the inputs that are present, while the reference implementation looks at how many inputs the scalar
function takes. On floats the kernel leaves out the walk through both inputs where it can (`Elementwise.Handles`), which
changes no result of a function of two numbers (`Elementwise.zipBroadcast_of_handles`). It differs from the reference
implementation where there are more inputs, or fewer, than the function takes (`Elementwise.kernel_agrees_iff`).
-/

namespace TensorGraph

theorem ScalarFn.binary_eq_nan {fn : ScalarFn} (h : fn.arity = 1) (x y : Single) : fn.binary x y = .nan := by
  cases fn <;> first | rfl | cases h

namespace Elementwise

variable {a b : Tensor Single}

/-! ## Two float tensors -/

/-- Whether the kernel combines two tensors by itself: they have one shape, or the second has one element. -/
def Handles (a b : Tensor Single) : Prop := a.shape = b.shape ∨ b.size = 1 ∧ b.rank ≤ a.rank

/-- A tensor of one element broadcasts to every shape of at least its rank. -/
theorem canBroadcast_of_single {s t : List Nat} (hs : volume s = 1) (hlen : s.length ≤ t.length) :
    Shape.canBroadcast s t = true := by
  refine Shape.canBroadcast_iff.2 ⟨hlen, fun k => .inr ?_⟩
  have hones : ∀ n ∈ s, n = 1 := by
    intro n hn
    induction s with
    | nil => cases hn
    | cons m s ih =>
      have hm := Nat.eq_one_of_mul_eq_one_right hs
      rcases List.mem_cons.1 hn with rfl | hn
      · exact hm
      · exact ih (Nat.eq_one_of_mul_eq_one_left hs) (Nat.le_of_succ_le hlen) hn
  by_cases hk : k < s.reverse.length
  · rw [Shape.sizeAt, List.getD_eq_getElem _ _ hk]
    exact hones _ (List.mem_reverse.1 (List.getElem_mem hk))
  · exact Shape.sizeAt_eq_one (by simpa using hk)

theorem Handles.canBroadcast (h : Handles a b) : Shape.canBroadcast b.shape a.shape = true := by
  rcases h with h | ⟨hsize, hrank⟩
  · exact h ▸ Shape.canBroadcast_refl _
  · exact canBroadcast_of_single (b.size_data ▸ hsize) hrank

/-- What the kernel computes by itself. -/
theorem kernelFloats?_of_handles (fn : ScalarFn) (h : Handles a b) : kernelFloats? fn a (some b) =
    some (Tensor.generate a.shape fun i => fn.binary (a.read i) (b.readIn a.shape i)) := by
  unfold kernelFloats?
  by_cases hshape : a.shape = b.shape
  · simp only [if_pos hshape]
    refine congrArg some (Tensor.generate_congr fun i hi => ?_)
    rw [hshape, b.readIn_shape (hshape ▸ hi)]
  · obtain ⟨hsize, hrank⟩ := h.resolve_left hshape
    obtain ⟨y, hy⟩ : ∃ y, b.item? = some y := by
      have hsize : b.data.size = 1 := hsize
      exact ⟨b.data[0], by simp [Tensor.item?, hsize]⟩
    simp only [if_neg hshape, if_pos hrank, hy, Option.map_some]
    refine congrArg some (Tensor.eq_of_read rfl fun i hi => ?_)
    have hi : i < volume a.shape := hi
    rw [Tensor.read_generate _ hi, Tensor.readIn_of_item? hy]
    exact a.read_map _ hi

theorem kernelFloats?_of_not_handles (fn : ScalarFn) (h : ¬Handles a b) : kernelFloats? fn a (some b) = none := by
  obtain ⟨hshape, hsingle⟩ := not_or.1 h
  unfold kernelFloats?
  simp only [if_neg hshape]
  split
  · next hrank =>
    have hsize : b.data.size ≠ 1 := fun hsize => hsingle ⟨hsize, hrank⟩
    rw [Tensor.item?, if_neg hsize, Option.map_none]
  · rfl

/-- For functions of two numbers the kernel computes what the walk through both inputs computes. -/
theorem zipBroadcast_of_handles (fn : ScalarFn) (h : Handles a b) :
    a.zipBroadcast (fun x y => pure (fn.binary x y)) b =
      .ok (Tensor.generate a.shape fun i => fn.binary (a.read i) (b.readIn a.shape i)) := by
  rw [Tensor.zipBroadcast_pure, Shape.broadcast?_of_canBroadcast h.canBroadcast]
  refine congrArg Except.ok (Tensor.generate_congr fun i hi => ?_)
  rw [a.readIn_shape hi]

/-! ## All inputs -/

/-- Whether it makes no difference that the kernel counts the inputs, where the reference implementation goes by the
arity of the function. A second tensor for a function of one number makes none if the kernel does not handle both, or
if all results are the NaNs that the kernel returns for them. -/
def Dispatched (op : Elementwise) : List Value → Prop
  | [.floats _] => op.fn.arity = 1
  | .floats a :: .floats b :: _ =>
    op.fn.arity = 2 ∨ (Handles a b → ∀ i < volume a.shape, op.fn.unary (a.read i) = .nan)
  | .floats _ :: .ints _ :: _ => op.fn.arity = 2
  | _ => True

variable (op : Elementwise)

/-- As many inputs as the function takes are dispatched alike. -/
theorem dispatched_of_length {inputs : List Value} (h : inputs.length = op.fn.arity) : op.Dispatched inputs := by
  rcases op.fn.arity_eq with harity | harity
  · obtain ⟨a, rfl⟩ := List.length_eq_one_iff.1 (h.trans harity)
    cases a with
    | floats a => exact harity
    | ints a => trivial
  · obtain ⟨a, b, rfl⟩ := List.length_eq_two.1 (h.trans harity)
    cases a with
    | floats a =>
      cases b with
      | floats b => exact .inl harity
      | ints b => exact harity
    | ints a => trivial

theorem runKernel_floats (a b : Tensor Single) (rest : List Value) : op.runKernel (.floats a :: .floats b :: rest) =
    match kernelFloats? op.fn a (some b) with
    | some t => .ok (.floats t)
    | none => op.run (.floats a :: .floats b :: rest) := rfl

theorem runKernel_eq_run {inputs : List Value} (h : op.Dispatched inputs) : op.runKernel inputs = op.run inputs := by
  match inputs, h with
  | [], _ => rfl
  | .ints _ :: _, _ => rfl
  | [.floats a], h =>
    rw [op.run_unary h]
    rfl
  | .floats a :: .ints b :: rest, h =>
    rw [op.run_binary h]
    rfl
  | .floats a :: .floats b :: rest, h =>
    rw [runKernel_floats]
    by_cases hab : Handles a b
    · rw [kernelFloats?_of_handles op.fn hab]
      rcases op.fn.arity_eq with harity | harity
      · have hnan := h.resolve_left (by omega) hab
        rw [op.run_unary harity]
        refine congrArg (fun t => Except.ok (Value.floats t)) (Tensor.eq_of_read rfl fun i hi => ?_)
        have hi : i < volume a.shape := hi
        rw [Tensor.read_generate _ hi, ScalarFn.binary_eq_nan harity]
        exact ((a.read_map op.fn.unary hi).trans (hnan i hi)).symm
      · rw [op.run_binary harity, runBinary, zipBroadcast_of_handles op.fn hab]
        rfl
    · rw [kernelFloats?_of_not_handles op.fn hab]

/-- Elsewhere the kernel gives another result, or one of the two fails. -/
theorem dispatched_of_toOption_eq {inputs : List Value}
    (h : (op.runKernel inputs).toOption = (op.run inputs).toOption) : op.Dispatched inputs := by
  rcases op.fn.arity_eq with harity | harity
  · match inputs, h with
    | [], _ => trivial
    | .ints _ :: _, _ => trivial
    | [.floats a], _ => exact harity
    | .floats a :: .ints b :: rest, h =>
      rw [op.run_unary harity] at h
      cases h
    | .floats a :: .floats b :: rest, h =>
      refine .inr fun hab i hi => ?_
      rw [runKernel_floats, kernelFloats?_of_handles op.fn hab, op.run_unary harity] at h
      have hequal := congrArg (·.read i) (Value.floats.inj (Option.some.inj h))
      simp only [Tensor.read_generate _ hi, ScalarFn.binary_eq_nan harity] at hequal
      exact (a.read_map op.fn.unary hi).symm.trans hequal.symm
  · match inputs, h with
    | [], _ => trivial
    | .ints _ :: _, _ => trivial
    | [.floats a], h =>
      have hrun : op.run [.floats a] = .error .missingInputs := by
        change (if op.fn.arity = 1 then _ else Except.error OpError.missingInputs) = _
        rw [harity, if_neg (by decide)]
      rw [hrun] at h
      cases h
    | .floats a :: .ints b :: rest, _ => exact harity
    | .floats a :: .floats b :: rest, _ => exact .inl harity

theorem toOption_kernel_run (inputs : List Value) :
    (op.kernel.run inputs).toOption = (op.runKernel inputs).toOption.map ([·]) := by
  change (op.runKernel inputs >>= fun x => pure [x]).toOption = _
  cases op.runKernel inputs <;> rfl

theorem toOption_operator_run (inputs : List Value) :
    ((Operator.elementwise op).run inputs).toOption = (op.run inputs).toOption.map ([·]) := by
  change (op.run inputs >>= fun x => pure [x]).toOption = _
  cases op.run inputs <;> rfl

theorem toOption_kernel_run_iff (inputs : List Value) :
    (op.kernel.run inputs).toOption = ((Operator.elementwise op).run inputs).toOption ↔ op.Dispatched inputs := by
  rw [toOption_kernel_run, toOption_operator_run, Option.map_inj_right fun _ _ h => List.singleton_inj.1 h]
  exact ⟨op.dispatched_of_toOption_eq, fun h => by rw [op.runKernel_eq_run h]⟩

/-- The kernel and the reference implementation return the same tensor or both fail, and so do the steps that the hybrid
and the interpreted linker bind a node to, exactly where the inputs are dispatched alike, for instance where they are
as many as the function takes. There they also fail with the same error. In place they always agree. -/
theorem kernel_agrees_iff (inputs : List Value) :
    ((op.kernel.run inputs).toOption = ((Operator.elementwise op).run inputs).toOption ↔ op.Dispatched inputs) ∧
    (inputs.length = op.fn.arity → op.Dispatched inputs) ∧
    (op.Dispatched inputs → op.kernel.run inputs = (Operator.elementwise op).run inputs) ∧
    ∀ (g : Graph) (id : NodeId) (name : Option String) (ins outs : List NodeId) (frees : Bool), ∃ s s',
      Linker.interpreted.bind g id { name, inputs := ins, outputs := outs, op := .elementwise op } = .ok s ∧
      (Linker.hybrid frees).bind g id { name, inputs := ins, outputs := outs, op := .elementwise op } = .ok s' ∧
      ((s'.run inputs).toOption = (s.run inputs).toOption ↔ op.Dispatched inputs) ∧
      s'.mayRunInPlace = s.mayRunInPlace ∧ ∀ first rest, s'.runInPlace first rest = s.runInPlace first rest := by
  refine ⟨op.toOption_kernel_run_iff inputs, op.dispatched_of_length, fun h => ?_, fun g id name ins outs frees => ?_⟩
  · change (op.runKernel inputs >>= fun x => pure [x]) = (op.run inputs >>= fun x => pure [x])
    rw [op.runKernel_eq_run h]
  · exact ⟨_, _, rfl, rfl, op.toOption_kernel_run_iff inputs, rfl, fun _ _ => rfl⟩

end Elementwise

end TensorGraph
