import TensorGraph.Proofs.Operator.Results
import TensorGraph.Proofs.Tensor.Offsets

/-!
# What elementwise operators compute

An elementwise or fused operator returns the tensor that combines the elements of its inputs, which are broadcast
together, or fails if they have no common shape (`Elementwise.run_map_floats`, `FusedElementwise.run_map_floats`).
There is such a tensor if all inputs broadcast to some shape (`Tensor.exists_combines`).
-/

namespace TensorGraph

namespace Tensor

/-- Whether a tensor has the shape that the arguments broadcast to and elements that are computed from theirs. -/
structure Combines (f : List Single → Single) (args : List (Tensor Single)) (t : Tensor Single) : Prop where
  shape : Shape.Joins (args.map (·.shape)) t.shape
  read : ∀ i < volume t.shape, t.read i = f (args.map (·.readIn t.shape i))

variable {f : List Single → Single} {args : List (Tensor Single)} {t u : Tensor Single} {target : List Nat}

theorem Combines.unique (ht : Combines f args t) (hu : Combines f args u) : t = u := by
  have hshape := ht.shape.unique hu.shape
  refine eq_of_read hshape fun i hi => ?_
  rw [ht.read i hi, hu.read i (hshape ▸ hi), hshape]

theorem combines_generate {shape : List Nat} (h : Shape.Joins (args.map (·.shape)) shape) :
    Combines f args (generate shape fun i => f (args.map (·.readIn shape i))) :=
  ⟨h, fun _ hi => read_generate _ hi⟩

/-- Arguments that broadcast to some shape can be combined, and the result broadcasts to it too. -/
theorem exists_combines (f : List Single → Single) (h : ∀ a ∈ args, Shape.canBroadcast a.shape target = true) :
    ∃ t, Combines f args t ∧ Shape.canBroadcast t.shape target = true := by
  have hargs : ∀ s ∈ args.map (·.shape), Shape.canBroadcast s target = true := List.forall_mem_map.2 h
  obtain ⟨shape, hjoins⟩ := Shape.exists_joins hargs
  exact ⟨_, combines_generate hjoins, (hjoins target).2 hargs⟩

/-- Reading a combined tensor at an offset reads the arguments there. -/
theorem Combines.readIn (h : Combines f args t) (htarget : Shape.canBroadcast t.shape target = true) {i : Nat}
    (hi : i < volume target) : t.readIn target i = f (args.map (·.readIn target i)) := by
  have hargs : ∀ a ∈ args, a.readIn t.shape (Shape.offsetIn t.shape target i) = a.readIn target i := fun a ha =>
    a.readIn_of_offset (h.shape.canBroadcast (List.mem_map_of_mem ha)) htarget hi
  rw [Tensor.readIn, h.read _ (Shape.offsetIn_lt htarget hi), List.map_congr_left hargs]

end Tensor

open Tensor (Combines)

variable {args : List (Tensor Single)} {x : Value}

/-! ## Scalar functions -/

namespace ScalarFn

/-- The value at as many numbers as the function takes. -/
def value (fn : ScalarFn) : List Single → Single
  | [x] => fn.unary x
  | [x, y] => fn.binary x y
  | _ => .nan

theorem arity_eq (fn : ScalarFn) : fn.arity = 1 ∨ fn.arity = 2 := by
  cases fn <;> simp [arity]

end ScalarFn

namespace Elementwise

theorem run_unary (op : Elementwise) (h : op.fn.arity = 1) (a : Value) (rest : List Value) :
    op.run (a :: rest) = runUnary op.fn a := by
  change (if op.fn.arity = 1 then runUnary op.fn a else _) = _
  rw [if_pos h]

theorem run_binary (op : Elementwise) (h : op.fn.arity = 2) (a b : Value) (rest : List Value) :
    op.run (a :: b :: rest) = runBinary op.fn a b := by
  change (if op.fn.arity = 1 then _ else runBinary op.fn a b) = _
  rw [h, if_neg (by decide)]

theorem combines_map (fn : ScalarFn) (a : Tensor Single) : Combines fn.value [a] (a.map fn.unary) := by
  refine ⟨Shape.joins_singleton a.shape, fun i hi => ?_⟩
  exact (a.read_map fn.unary hi).trans (congrArg fn.unary (a.readIn_shape hi).symm)

theorem combines_of_zipBroadcast {fn : ScalarFn} {a b t : Tensor Single}
    (h : a.zipBroadcast (fun x y => pure (fn.binary x y)) b = .ok t) : Combines fn.value [a, b] t := by
  rw [Tensor.zipBroadcast_pure] at h
  split at h
  · cases h
  · next shape hshape =>
    cases h
    have hjoins : Shape.Joins ([a, b].map (·.shape)) shape := Shape.joins_of_broadcast? hshape
    exact Tensor.combines_generate hjoins

theorem exists_zipBroadcast {fn : ScalarFn} {a b t : Tensor Single} (h : Combines fn.value [a, b] t) :
    ∃ u, a.zipBroadcast (fun x y => pure (fn.binary x y)) b = .ok u := by
  have hshape : Shape.broadcast? a.shape b.shape = some t.shape := Shape.broadcast?_eq_some_iff_joins.2 h.shape
  rw [Tensor.zipBroadcast_pure, hshape]
  exact ⟨_, rfl⟩

/-- On as many float tensors as its function takes, an operator returns their combination. -/
theorem run_map_floats (op : Elementwise) (hargs : args.length = op.fn.arity) :
    op.run (args.map .floats) = .ok x ↔ ∃ t, x = .floats t ∧ Combines op.fn.value args t := by
  rcases op.fn.arity_eq with harity | harity
  · obtain ⟨a, rfl⟩ := List.length_eq_one_iff.1 (hargs.trans harity)
    rw [List.map_singleton, op.run_unary harity, runUnary]
    constructor
    · intro h
      cases h
      exact ⟨_, rfl, combines_map op.fn a⟩
    · rintro ⟨t, rfl, ht⟩
      rw [(combines_map op.fn a).unique ht]
  · obtain ⟨a, b, rfl⟩ := List.length_eq_two.1 (hargs.trans harity)
    have hrun : op.run [.floats a, .floats b] =
        (a.zipBroadcast (fun x y => pure (op.fn.binary x y)) b).map .floats := op.run_binary harity ..
    rw [List.map_cons, List.map_singleton, hrun, map_eq_ok]
    constructor
    · rintro ⟨t, ht, rfl⟩
      exact ⟨t, rfl, combines_of_zipBroadcast ht⟩
    · rintro ⟨t, rfl, ht⟩
      obtain ⟨u, hu⟩ := exists_zipBroadcast ht
      exact ⟨u, hu, by rw [(combines_of_zipBroadcast hu).unique ht]⟩

end Elementwise

/-! ## Scalar expressions -/

namespace FusedElementwise

theorem outputShape_eq_ok {shape : List Nat} :
    outputShape args = .ok shape ↔ Shape.Joins (args.map (·.shape)) shape := by
  rw [← Shape.broadcastAll?_eq_some, outputShape]
  cases Shape.broadcastAll? (args.map (·.shape)) <;> simp

/-- A tensor that broadcasts to a shape can be read there. -/
theorem exists_reader {shape : List Nat} {t : Tensor Single} (h : Shape.canBroadcast t.shape shape = true) :
    ∃ r, reader shape t = .ok r ∧ ∀ i < volume shape, r i = t.readIn shape i := by
  unfold reader
  cases hitem : t.item? with
  | some x => exact ⟨_, rfl, fun i _ => (Tensor.readIn_of_item? hitem shape i).symm⟩
  | none =>
    have hsome : (t.broadcast? shape).isSome := by
      unfold Tensor.broadcast?
      split_ifs <;> rfl
    obtain ⟨u, hu⟩ := Option.isSome_iff_exists.1 hsome
    exact ⟨u.read, by rw [hu], fun i hi => Tensor.read_of_broadcast? hu hi⟩

/-- Tensors that broadcast to a shape can be read there. -/
theorem exists_readers {shape : List Nat} (h : ∀ t ∈ args, Shape.canBroadcast t.shape shape = true) :
    ∃ readers, args.mapM (reader shape) = .ok readers ∧
      ∀ i < volume shape, readers.map (· i) = args.map (·.readIn shape i) := by
  obtain ⟨readers, hreaders, hread⟩ := exists_mapM (f := reader shape) fun t ht => exists_reader (h t ht)
  refine ⟨readers, hreaders, fun i hi => ?_⟩
  rw [← List.forall₂_eq_eq_eq, List.forall₂_map_left_iff, List.forall₂_map_right_iff]
  exact hread.flip.imp fun r t h => h i hi

theorem apply_eq_ok {f : List Single → Single} : apply f args = .ok x ↔ ∃ t, x = .floats t ∧ Combines f args t := by
  -- If the inputs have a common shape, then all of them can be read.
  have hrun (shape : List Nat) (hshape : Shape.Joins (args.map (·.shape)) shape) :
      apply f args = .ok (.floats (Tensor.generate shape fun i => f (args.map (·.readIn shape i)))) := by
    obtain ⟨readers, hreaders, hread⟩ := exists_readers fun t ht => hshape.canBroadcast (List.mem_map_of_mem ht)
    unfold apply
    rw [outputShape_eq_ok.2 hshape]
    simp only [bind, Except.bind, hreaders]
    exact congrArg (fun t => Except.ok (Value.floats t)) (Tensor.generate_congr fun i hi => congrArg f (hread i hi))
  constructor
  · intro h
    obtain ⟨shape, hshape, -⟩ := bind_eq_ok.1 h
    have hjoins := outputShape_eq_ok.1 hshape
    rw [hrun shape hjoins] at h
    cases h
    exact ⟨_, rfl, Tensor.combines_generate hjoins⟩
  · rintro ⟨t, rfl, ht⟩
    rw [hrun t.shape ht.shape]
    exact congrArg (fun t => Except.ok (Value.floats t)) ((Tensor.combines_generate ht.shape).unique ht)

theorem floatInputs_eq_ok (op : FusedElementwise) (hargs : args.length = op.numInputs) :
    op.floatInputs (args.map .floats) = .ok args :=
  floatInputs_eq_ok_iff.2 ⟨hargs, List.take_of_length_le (by rw [List.length_map, hargs])⟩

/-- On as many float tensors as it has inputs, an operator returns the combination by its expression. -/
theorem run_map_floats (op : FusedElementwise) (hargs : args.length = op.numInputs) :
    op.run (args.map .floats) = .ok x ↔ ∃ t, x = .floats t ∧ Combines (fun xs => op.expr.eval xs) args t := by
  have hrun : op.run (args.map .floats) = apply (fun xs => op.expr.eval xs) args := by
    unfold run
    rw [op.floatInputs_eq_ok hargs]
    rfl
  rw [hrun, apply_eq_ok]

end FusedElementwise

end TensorGraph
