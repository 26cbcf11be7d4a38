import TensorGraph.Operator.Basic
import TensorGraph.Proofs.Tensor.Elements

/-!
# Results of operators

What the reference implementations read and return when they succeed: which inputs there are, and the type
and shape of the output.
-/

namespace TensorGraph

/-! ## Reading inputs -/

/-- Whether `n` inputs are as many as the operator takes. -/
def Operator.Takes (op : Operator) (n : Nat) : Prop := ∀ m, op.maxInputs = some m → n = m

/-- What an operator returns that computes one value. -/
theorem eq_ok_singleton {x : OpResult Value} {vs : List Value} :
    (do return [← x]) = Except.ok vs ↔ ∃ v, vs = [v] ∧ x = .ok v := by
  constructor
  · intro h
    obtain ⟨v, hv, hvs⟩ := bind_eq_ok.1 h
    cases hvs
    exact ⟨v, rfl, hv⟩
  · rintro ⟨v, rfl, rfl⟩
    rfl

theorem singleton_eq_ok {x : OpResult Value} {v : Value} : (do return [← x]) = Except.ok [v] ↔ x = .ok v := by
  rw [eq_ok_singleton]
  simp

theorem Value.asFloats?_eq_ok {t : Tensor Single} (v : Value) : v.asFloats? = .ok t ↔ v = .floats t := by
  cases v <;> simp [asFloats?]

theorem Value.asInts?_eq_ok {t : Tensor Int32} (v : Value) : v.asInts? = .ok t ↔ v = .ints t := by
  cases v <;> simp [asInts?]

namespace Inputs

theorem require_eq_ok {vs : List Value} {i : Nat} {v : Value} : require vs i = .ok v ↔ vs[i]? = some v := by
  unfold require
  split
  · next w hw => simp [hw]
  · next hnone => simp [hnone]

variable {α : Type} {vs : List Value} {i n : Nat} {ts : List α}

/-- Reading an input in a way that undoes `wrap`. -/
theorem requireAs_eq_ok {read : Value → Except TypeMismatch α} {wrap : α → Value} {index : Nat} {t : α}
    (hread : ∀ v, read v = .ok t ↔ v = wrap t) : requireAs read vs i index = .ok t ↔ vs[i]? = some (wrap t) := by
  unfold requireAs
  constructor
  · intro h
    obtain ⟨v, hv, ht⟩ := bind_eq_ok.1 h
    split at ht
    · next hok =>
      cases ht
      rw [← (hread v).1 hok]
      exact require_eq_ok.1 hv
    · cases ht
  · intro h
    refine bind_eq_ok.2 ⟨_, require_eq_ok.2 h, ?_⟩
    rw [(hread _).2 rfl]
    rfl

theorem requireFloats_eq_ok {t : Tensor Single} : requireFloats vs i = .ok t ↔ vs[i]? = some (.floats t) :=
  requireAs_eq_ok Value.asFloats?_eq_ok

theorem requireInts_eq_ok {t : Tensor Int32} : requireInts vs i = .ok t ↔ vs[i]? = some (.ints t) :=
  requireAs_eq_ok Value.asInts?_eq_ok

theorem requireFloatsAfterFirst_eq_ok {t : Tensor Single} :
    requireFloatsAfterFirst vs i = .ok t ↔ vs[i]? = some (.floats t) :=
  requireAs_eq_ok Value.asFloats?_eq_ok

theorem le_length_of_take {wrap : α → Value} (hlen : ts.length = n) (h : vs.take n = ts.map wrap) : n ≤ vs.length := by
  have hle := List.length_take_le' n vs
  rwa [h, List.length_map, hlen] at hle

/-- Reading the first inputs in a way that undoes `wrap`. -/
theorem mapM_range_eq_ok {read : Nat → OpResult α} {wrap : α → Value}
    (hread : ∀ i t, read i = .ok t ↔ vs[i]? = some (wrap t)) :
    (List.range n).mapM read = .ok ts ↔ ts.length = n ∧ vs.take n = ts.map wrap := by
  have hat (i : Nat) (hi : i < ts.length) : (read i).toOption = some ts[i] ↔ vs[i]? = some (wrap ts[i]) :=
    toOption_eq_some.trans (hread i _)
  rw [mapM_eq_ok]
  constructor
  · intro h
    obtain rfl : ts.length = n := by simpa using (congrArg List.length h).symm
    refine ⟨rfl, List.ext_getElem? fun i => ?_⟩
    by_cases hi : i < ts.length
    · have hi' := congrArg (·[i]?) h
      simp only [List.getElem?_map, List.getElem?_range hi, Option.map_some, List.getElem?_eq_getElem hi,
        Option.some.injEq] at hi'
      rw [List.getElem?_take_of_lt hi, (hat i hi).1 hi', List.getElem?_map, List.getElem?_eq_getElem hi,
        Option.map_some]
    · simp [hi]
  · rintro ⟨rfl, h⟩
    refine List.ext_getElem (by simp) fun i hi hi' => ?_
    have hlt : i < ts.length := by simpa using hi
    have hv := congrArg (·[i]?) h
    simp only [List.getElem?_take_of_lt hlt, List.getElem?_map, List.getElem?_eq_getElem hlt, Option.map_some] at hv
    simpa using (hat i hlt).2 hv

/-- Reading all inputs in a way that undoes `wrap`. -/
theorem eq_map_of_mapM {read : Nat → OpResult α} {wrap : α → Value}
    (hread : ∀ i t, read i = .ok t ↔ vs[i]? = some (wrap t)) (h : (List.range vs.length).mapM read = .ok ts) :
    vs = ts.map wrap := by
  rw [← ((mapM_range_eq_ok hread).1 h).2, List.take_length]

end Inputs

/-! ## Shapes -/

/-- The dimension that an axis stands for: its number, counted from the end if the axis is negative. -/
def AxisOf (rank : Nat) (axis : Int) (d : Nat) : Prop := d < rank ∧ (axis = d ∨ axis + rank = d)

instance (rank : Nat) (axis : Int) (d : Nat) : Decidable (AxisOf rank axis d) :=
  inferInstanceAs (Decidable (_ ∧ _))

theorem AxisOf.unique {rank d e : Nat} {axis : Int} (hd : AxisOf rank axis d) (he : AxisOf rank axis e) : d = e := by
  unfold AxisOf at hd he
  omega

/-- An axis in range stands for a dimension. -/
theorem exists_axisOf {rank : Nat} {axis : Int} : (∃ d, AxisOf rank axis d) ↔ -(rank : Int) ≤ axis ∧ axis < rank := by
  unfold AxisOf
  constructor
  · rintro ⟨d, hd⟩
    omega
  · intro h
    by_cases hneg : axis < 0
    · exact ⟨(axis + rank).toNat, by omega⟩
    · exact ⟨axis.toNat, by omega⟩

theorem resolveAxis_eq_ok {rank d : Nat} {axis : Int} : resolveAxis rank axis = .ok d ↔ AxisOf rank axis d := by
  unfold resolveAxis AxisOf
  dsimp only
  split_ifs <;> simp only [Except.ok.injEq, false_iff] <;> omega

theorem resolveAxis_eq_error {rank : Nat} {axis : Int} (h : ¬∃ d, AxisOf rank axis d) :
    resolveAxis rank axis = .error (.invalidValue "Axis is invalid") := by
  cases hd : resolveAxis rank axis with
  | ok d => exact absurd ⟨d, resolveAxis_eq_ok.1 hd⟩ h
  | error e =>
    unfold resolveAxis at hd
    dsimp only at hd
    split_ifs at hd <;> exact hd.symm

theorem lt_of_resolveAxis {rank i : Nat} {axis : Int} (h : resolveAxis rank axis = .ok i) : i < rank :=
  (resolveAxis_eq_ok.1 h).1

theorem Value.size_eq (v : Value) : v.size = volume v.shape := by
  cases v with
  | floats t => exact t.size_data
  | ints t => exact t.size_data

theorem Tensor.reshape?_eq_some {α : Type} {t u : Tensor α} {shape : List Nat} :
    t.reshape? shape = some u ↔ u.shape = shape ∧ u.data = t.data := by
  rw [Tensor.reshape?, toOption_eq_some, Tensor.ofData?]
  constructor
  · intro h
    split at h
    · cases h
      exact ⟨rfl, rfl⟩
    · cases h
  · rintro ⟨rfl, hdata⟩
    obtain ⟨shape, data, hsize⟩ := u
    cases hdata
    exact dif_pos hsize

theorem Value.reshape?_eq_some {v out : Value} {shape : List Nat} (h : v.reshape? shape = some out) :
    out.shape = shape ∧ out.type = v.type ∧ ∀ x, v = .ints x → ∃ y, out = .ints y ∧ y.data = x.data := by
  cases v with
  | floats t =>
    obtain ⟨u, hu, rfl⟩ := Option.map_eq_some_iff.1 h
    exact ⟨(Tensor.reshape?_eq_some.1 hu).1, rfl, fun x hx => by cases hx⟩
  | ints t =>
    obtain ⟨u, hu, rfl⟩ := Option.map_eq_some_iff.1 h
    refine ⟨(Tensor.reshape?_eq_some.1 hu).1, rfl, fun x hx => ⟨u, rfl, ?_⟩⟩
    cases hx
    exact (Tensor.reshape?_eq_some.1 hu).2

theorem Value.size_of_reshape? {v w : Value} {shape : List Nat} (h : v.reshape? shape = some w) : w.size = v.size := by
  cases v with
  | floats t =>
    obtain ⟨u, hu, rfl⟩ := Option.map_eq_some_iff.1 h
    exact congrArg Array.size (Tensor.reshape?_eq_some.1 hu).2
  | ints t =>
    obtain ⟨u, hu, rfl⟩ := Option.map_eq_some_iff.1 h
    exact congrArg Array.size (Tensor.reshape?_eq_some.1 hu).2

/-- A reshaped tensor has as many elements. -/
theorem Value.volume_reshape? {v out : Value} {shape : List Nat} (h : v.reshape? shape = some out) :
    volume out.shape = volume v.shape := by
  rw [← Value.size_eq, ← Value.size_eq, Value.size_of_reshape? h]

theorem Elementwise.runUnary_eq_ok {fn : ScalarFn} {v out : Value} (h : runUnary fn v = .ok out) :
    out.shape = v.shape ∧ out.type = v.type ∧
      ∀ x, v = .ints x → ∃ y, out = .ints y ∧ x.mapM fn.unaryInt = .ok y := by
  cases v with
  | floats x =>
    cases h
    exact ⟨rfl, rfl, fun x hx => by cases hx⟩
  | ints x =>
    obtain ⟨y, hy, h⟩ := bind_eq_ok.1 h
    cases h
    refine ⟨(Tensor.mapM_eq_ok hy).1, rfl, fun x' hx => ?_⟩
    cases hx
    exact ⟨y, rfl, hy⟩

theorem Elementwise.runBinary_eq_ok {fn : ScalarFn} {v w out : Value} (h : runBinary fn v w = .ok out) :
    Shape.broadcast? v.shape w.shape = some out.shape ∧ out.type = v.type ∧ out.type = w.type ∧
      ∀ x y, v = .ints x → w = .ints y → ∃ t, out = .ints t ∧ x.zipBroadcast fn.binaryInt y = .ok t := by
  cases v with
  | floats x =>
    cases w with
    | floats y =>
      obtain ⟨t, ht, h⟩ := bind_eq_ok.1 h
      cases h
      exact ⟨(Tensor.zipBroadcast_eq_ok ht).1, rfl, rfl, fun x' y' hx => by cases hx⟩
    | ints y => cases h
  | ints x =>
    cases w with
    | floats y => cases h
    | ints y =>
      rw [runBinary] at h
      split at h
      · obtain ⟨t, ht, h⟩ := bind_eq_ok.1 h
        cases h
        refine ⟨(Tensor.zipBroadcast_eq_ok ht).1, rfl, rfl, fun x' y' hx hy => ?_⟩
        cases hx
        cases hy
        exact ⟨t, rfl, ht⟩
      · cases h

theorem Reduce.shape_reduceValue {op : Reduce} {p : Reduce.Plan} {v out : Value}
    (h : op.reduceValue p v = .ok out) : out.shape = p.outShape ∧ out.type = v.type := by
  unfold Reduce.reduceValue at h
  cases v with
  | floats x => cases hfn : op.fn <;> simp only [hfn] at h <;> cases h <;> exact ⟨rfl, rfl⟩
  | ints x => cases hfn : op.fn <;> simp only [hfn] at h <;> cases h <;> exact ⟨rfl, rfl⟩

/-- An elementwise operator applies its function to its only input, or to its two inputs. -/
theorem Elementwise.run_eq_ok {op : Elementwise} {vs : List Value} {out : Value} (hlen : vs.length = op.fn.arity)
    (h : op.run vs = .ok out) : (∃ v, op.fn.arity = 1 ∧ vs = [v] ∧ runUnary op.fn v = .ok out) ∨
      ∃ v w, op.fn.arity = 2 ∧ vs = [v, w] ∧ runBinary op.fn v w = .ok out := by
  obtain ⟨v, hv, happly⟩ := bind_eq_ok.1 h
  rw [Inputs.require_eq_ok] at hv
  split at happly
  · next harity =>
    obtain ⟨v', rfl⟩ := List.length_eq_one_iff.1 (hlen.trans harity)
    cases hv
    exact .inl ⟨v, harity, rfl, happly⟩
  · next harity =>
    have htwo : op.fn.arity = 2 := by
      cases hfn : op.fn <;> simp_all [ScalarFn.arity]
    obtain ⟨w, hw, hpair⟩ := bind_eq_ok.1 happly
    rw [Inputs.require_eq_ok] at hw
    obtain ⟨v', w', rfl⟩ := List.length_eq_two.1 (hlen.trans htwo)
    cases hv
    cases hw
    exact .inr ⟨v, w, htwo, rfl, hpair⟩

theorem Reduce.run_eq_ok {op : Reduce} {vs : List Value} {out : Value} (h : op.run vs = .ok out) :
    ∃ v p, vs[0]? = some v ∧ op.plan v.shape = .ok p ∧ out.shape = p.outShape ∧ out.type = v.type := by
  obtain ⟨v, hv, h⟩ := bind_eq_ok.1 h
  obtain ⟨p, hp, h⟩ := bind_eq_ok.1 h
  obtain ⟨_, -, h⟩ := bind_eq_ok.1 h
  exact ⟨v, p, Inputs.require_eq_ok.1 hv, hp, Reduce.shape_reduceValue h⟩

section Lanes

variable {α : Type} [Inhabited α] (f : List α → List α) (s : LaneSizes) (x : Tensor α)

theorem LaneSizes.shape_overwrite (o i : Nat) : (s.overwrite f x o i).shape = x.shape :=
  List.foldlRecOn (motive := fun t : Tensor α => t.shape = x.shape) _ _ rfl fun _ ht _ _ => ht

theorem LaneSizes.shape_overwriteAll : (s.overwriteAll f x).shape = x.shape :=
  List.foldlRecOn (motive := fun t : Tensor α => t.shape = x.shape) _ _ rfl fun _ ht o _ =>
    List.foldlRecOn (motive := fun t : Tensor α => t.shape = x.shape) _ _ ht fun _ ht i _ =>
      (shape_overwrite f s _ o i).trans ht

end Lanes

theorem Softmax.run_eq_ok {op : Softmax} {vs : List Value} {out : Value} (h : op.run vs = .ok out) :
    ∃ x y, vs[0]? = some (.floats x) ∧ out = .floats y ∧ y.shape = x.shape := by
  obtain ⟨x, hx, h⟩ := bind_eq_ok.1 h
  obtain ⟨sizes, -, h⟩ := bind_eq_ok.1 h
  cases h
  exact ⟨x, _, Inputs.requireFloats_eq_ok.1 hx, rfl, LaneSizes.shape_overwriteAll _ _ x⟩

theorem MatMul.run_eq_ok {vs : List Value} {out : Value} (h : MatMul.run vs = .ok out) :
    ∃ a b p y, vs[0]? = some (.floats a) ∧ vs[1]? = some (.floats b) ∧ MatMul.plan a.shape b.shape = .ok p ∧
      out = .floats y ∧ y.shape = p.outShape := by
  obtain ⟨a, ha, h⟩ := bind_eq_ok.1 h
  obtain ⟨b, hb, h⟩ := bind_eq_ok.1 h
  obtain ⟨p, hp, h⟩ := bind_eq_ok.1 h
  cases h
  exact ⟨a, b, p, _, Inputs.requireFloats_eq_ok.1 ha, Inputs.requireFloats_eq_ok.1 hb, hp, rfl, rfl⟩

theorem FusedElementwise.floatInputs_eq_ok_iff {op : FusedElementwise} {vs : List Value} {ts : List (Tensor Single)} :
    op.floatInputs vs = .ok ts ↔ ts.length = op.numInputs ∧ vs.take op.numInputs = ts.map .floats := by
  unfold floatInputs
  split
  · next hfew =>
    refine ⟨nofun, fun ⟨hlen, htake⟩ => ?_⟩
    exact absurd (Inputs.le_length_of_take hlen htake) (Nat.not_le.2 hfew)
  · exact Inputs.mapM_range_eq_ok fun _ _ => Inputs.requireFloats_eq_ok

theorem FusedElementwise.run_eq_ok {op : FusedElementwise} {vs : List Value} {out : Value}
    (hlen : vs.length = op.numInputs) (h : op.run vs = .ok out) : ∃ (ts : List (Tensor Single)) (y : Tensor Single),
      vs = ts.map .floats ∧ Shape.broadcastAll? (ts.map (·.shape)) = some out.shape ∧ out = .floats y := by
  obtain ⟨ts, hts, h⟩ := bind_eq_ok.1 h
  obtain ⟨shape, hshape, h⟩ := bind_eq_ok.1 h
  obtain ⟨readers, -, h⟩ := bind_eq_ok.1 h
  cases h
  have hvs := (floatInputs_eq_ok_iff.1 hts).2
  rw [← hlen, List.take_length] at hvs
  refine ⟨ts, _, hvs, ?_, rfl⟩
  unfold FusedElementwise.outputShape at hshape
  split at hshape
  · next hbroadcast =>
    cases hshape
    exact hbroadcast
  · cases hshape

/-! ## Rearranged elements -/

namespace Layout

theorem requireVector_eq_ok {vs : List Value} {i : Nat} {ws : List Int32} (h : requireVector vs i = .ok ws) :
    ∃ t, vs[i]? = some (.ints t) ∧ t.shape.length = 1 ∧ t.data.toList = ws := by
  obtain ⟨t, ht, h⟩ := bind_eq_ok.1 h
  split at h
  · cases h
  · next hrank =>
    cases h
    exact ⟨t, Inputs.requireInts_eq_ok.1 ht, Decidable.not_not.1 hrank, rfl⟩

theorem reshape_eq_ok {vs : List Value} {out : Value} (h : reshape vs = .ok out) :
    ∃ (v : Value) (ws : Tensor Int32), vs[0]? = some v ∧ vs[1]? = some (.ints ws) ∧ ws.shape.length = 1 ∧
      resolveTarget (volume v.shape) ws.data.toList = .ok out.shape ∧ out.type = v.type ∧
      ∀ x, v = .ints x → ∃ y, out = .ints y ∧ y.data = x.data := by
  obtain ⟨v, hv, h⟩ := bind_eq_ok.1 h
  obtain ⟨target, htarget, h⟩ := bind_eq_ok.1 h
  obtain ⟨ws, hws, hrank, rfl⟩ := requireVector_eq_ok htarget
  obtain ⟨shape, hshape, h⟩ := bind_eq_ok.1 h
  split at h
  · next u hu =>
    cases h
    obtain ⟨rfl, htype, hints⟩ := Value.reshape?_eq_some hu
    rw [Value.size_eq] at hshape
    exact ⟨v, ws, Inputs.require_eq_ok.1 hv, hws, hrank, hshape, htype, hints⟩
  · cases h

theorem volume_reshape {v out : Value} {vs : List Value} (h : reshape (v :: vs) = .ok out) :
    volume out.shape = volume v.shape := by
  obtain ⟨target, -, h⟩ := bind_eq_ok.1 h
  obtain ⟨shape, -, h⟩ := bind_eq_ok.1 h
  split at h
  · next u hu =>
    cases h
    exact Value.volume_reshape? hu
  · cases h

theorem transpose_eq_ok {perm? : Option (List Nat)} {vs : List Value} {out : Value}
    (h : transpose perm? vs = .ok out) : ∃ v perm, vs[0]? = some v ∧
      resolvePermutation perm? v.rank = .ok perm ∧
      out.shape = (perm.filterMap ((v.shape.zip (Shape.strides v.shape))[·]?)).map (·.1) ∧ out.type = v.type := by
  obtain ⟨v, hv, h⟩ := bind_eq_ok.1 h
  obtain ⟨perm, hperm, h⟩ := bind_eq_ok.1 h
  cases h
  refine ⟨v, perm, Inputs.require_eq_ok.1 hv, hperm, ?_⟩
  cases v with
  | floats x => exact ⟨rfl, rfl⟩
  | ints x => exact ⟨rfl, rfl⟩

theorem concat_eq_ok {axis : Int} {vs : List Value} {out : Value} (h : concat axis vs = .ok out) :
    (∃ (ts : List (Tensor Single)) (t : Tensor Single), vs = ts.map .floats ∧ join axis ts = .ok t ∧ out = .floats t) ∨
      ∃ (ts : List (Tensor Int32)) (t : Tensor Int32), vs = ts.map .ints ∧ join axis ts = .ok t ∧ out = .ints t := by
  obtain ⟨v, -, h⟩ := bind_eq_ok.1 h
  cases v with
  | floats x =>
    obtain ⟨ts, hts, h⟩ := bind_eq_ok.1 h
    obtain ⟨t, ht, h⟩ := bind_eq_ok.1 h
    cases h
    exact .inl ⟨ts, t, Inputs.eq_map_of_mapM (fun _ _ => Inputs.requireFloats_eq_ok) hts, ht, rfl⟩
  | ints x =>
    obtain ⟨ts, hts, h⟩ := bind_eq_ok.1 h
    obtain ⟨t, ht, h⟩ := bind_eq_ok.1 h
    cases h
    exact .inr ⟨ts, t, Inputs.eq_map_of_mapM (fun _ _ => Inputs.requireInts_eq_ok) hts, ht, rfl⟩

theorem cast_eq_ok {type : ElementType} {vs : List Value} {out : Value} (h : cast type vs = .ok out) :
    ∃ v, vs[0]? = some v ∧ out.shape = v.shape ∧ out.type = type ∧
      (type = .int32 → ∀ x, v = .ints x → out = v) := by
  obtain ⟨v, hv, h⟩ := bind_eq_ok.1 h
  cases h
  refine ⟨v, Inputs.require_eq_ok.1 hv, ?_⟩
  cases type with
  | float32 => cases v <;> exact ⟨rfl, rfl, fun h => by cases h⟩
  | int32 =>
    cases v with
    | floats x => exact ⟨rfl, rfl, fun _ x hx => by cases hx⟩
    | ints x => exact ⟨rfl, rfl, fun _ x hx => rfl⟩

end Layout

/-! ## Shapes as values -/

namespace ShapeAccess

theorem shape_eq_ok {vs : List Value} {out : Value} (h : shape vs = .ok out) :
    ∃ v ws, vs[0]? = some v ∧ v.shape.mapM sizeToWord = .ok ws ∧ out = .ints (.vector ws.toArray) := by
  obtain ⟨v, hv, h⟩ := bind_eq_ok.1 h
  obtain ⟨ws, hws, h⟩ := bind_eq_ok.1 h
  cases h
  exact ⟨v, ws, Inputs.require_eq_ok.1 hv, hws, rfl⟩

theorem size_eq_ok {index : Nat} {vs : List Value} {out : Value} (h : size index vs = .ok out) :
    ∃ v n w, vs[0]? = some v ∧ v.shape[index]? = some n ∧ sizeToWord n = .ok w ∧ out = .ints (.scalar w) := by
  obtain ⟨v, hv, h⟩ := bind_eq_ok.1 h
  split at h
  · next n hn =>
    obtain ⟨w, hw, h⟩ := bind_eq_ok.1 h
    cases h
    exact ⟨v, n, w, Inputs.require_eq_ok.1 hv, hn, hw, rfl⟩
  · cases h

theorem specify_eq_ok {spec : List (Option Nat)} {vs : List Value} {out : Value}
    (h : specify spec vs = .ok out) : vs[0]? = some out ∧ specMatches spec out.shape = true := by
  obtain ⟨v, hv, h⟩ := bind_eq_ok.1 h
  split at h
  · next hspec =>
    cases h
    exact ⟨Inputs.require_eq_ok.1 hv, hspec⟩
  · cases h

theorem fill_eq_ok {x : Single} {vs : List Value} {out : Value} (h : fill x vs = .ok out) :
    ∃ ws y, vs[0]? = some (.ints ws) ∧ ws.shape.length = 1 ∧
      ws.data.toList.map Word.toCount? = out.shape.map some ∧ out = .floats y := by
  obtain ⟨target, htarget, h⟩ := bind_eq_ok.1 h
  obtain ⟨ws, hws, hrank, rfl⟩ := Layout.requireVector_eq_ok htarget
  obtain ⟨sizes, hsizes, h⟩ := bind_eq_ok.1 h
  cases h
  refine ⟨ws, _, hws, hrank, ?_, rfl⟩
  rw [mapM_eq_ok] at hsizes
  rw [Value.shape, Tensor.full, ← hsizes]
  refine List.map_congr_left fun w _ => ?_
  cases Word.toCount? w <;> rfl

theorem assertAll_eq_ok {message : String} {vs : List Value} {out : Value} (h : assertAll message vs = .ok out) :
    vs[0]? = some out := by
  obtain ⟨v, hv, h⟩ := bind_eq_ok.1 h
  split at h
  · cases h
    exact Inputs.require_eq_ok.1 hv
  · cases h

end ShapeAccess

end TensorGraph
