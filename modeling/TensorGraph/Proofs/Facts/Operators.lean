import TensorGraph.Proofs.Facts.Arithmetic
import TensorGraph.Proofs.Facts.Concat
import TensorGraph.Proofs.Facts.Layout
import TensorGraph.Proofs.Operator.Results

/-!
# Rules of operators

Every built-in operator, given as many inputs as it takes, has a rule that describes its output
(`Operator.Returns.follows_outputFacts`) and gives the output's type (`Operator.Returns.type_eq`). What an operator can return is
said once for all operators, by `Operator.Returns`; the properties of rules are proved by cases on it.
-/

namespace TensorGraph

/-- Whether facts describe values one by one. -/
def DescribesAll (σ : Assignment) : List TensorFacts → List Value → Prop :=
  List.Forall₂ fun t v => t.Describes σ v

/-- Whether a rule, applied to facts that describe `vs`, gives facts that describe `out`. -/
def Follows (rule : DropTest → RuleM (List TensorFacts)) (ts : List TensorFacts) (vs : List Value)
    (out : Value) : Prop :=
  Yields rule fun σ drops outs =>
    SizeExpr.SoundDrops σ.valuation drops → DescribesAll σ ts vs → FirstDescribes σ outs out

theorem follows_of_draws {rule : DropTest → RuleM (List TensorFacts)} {ts : List TensorFacts} {vs : List Value}
    {out : Value} (h : ∀ (σ : Assignment) drops s outs s', Draws (rule drops) s outs s' →
      SizeExpr.SoundDrops σ.valuation drops → DescribesAll σ ts vs → FirstDescribes σ outs out) :
    Follows rule ts vs out := yields_of_draws h

theorem Yields.imp {α : Type} {x : DropTest → RuleM α} {P Q : Assignment → DropTest → α → Prop} (h : Yields x P)
    (himp : ∀ σ drops a, P σ drops a → Q σ drops a) : Yields x Q := by
  intro s
  obtain ⟨sizes, hsizes⟩ := h s
  exact ⟨sizes, fun drops a s' ha σ hσ => himp σ drops a (hsizes drops a s' ha σ hσ)⟩

theorem describesAll_one {σ : Assignment} {t : TensorFacts} {v : Value} : DescribesAll σ [t] [v] ↔ t.Describes σ v := by
  simp [DescribesAll]

theorem describesAll_two {σ : Assignment} {t u : TensorFacts} {v w : Value} :
    DescribesAll σ [t, u] [v, w] ↔ t.Describes σ v ∧ u.Describes σ w := by
  simp [DescribesAll]

/-- Rules with one input, which describe the output if the facts describe this input. -/
theorem follows_one {rule : DropTest → RuleM (List TensorFacts)} {t : TensorFacts} {v out : Value}
    (h : Yields rule fun σ _ outs => t.Describes σ v → FirstDescribes σ outs out) : Follows rule [t] [v] out :=
  h.imp fun _ _ _ hyields _ hall => hyields (describesAll_one.1 hall)

theorem follows_one_of_draws {rule : RuleM (List TensorFacts)} {t : TensorFacts} {v out : Value}
    (h : ∀ {σ s outs s'}, Draws rule s outs s' → t.Describes σ v → FirstDescribes σ outs out) :
    Follows (fun _ => rule) [t] [v] out :=
  follows_of_draws fun _ _ _ _ _ hdraws _ hall => h hdraws (describesAll_one.1 hall)

/-! ## What built-in operators return -/

namespace Operator

def IsBuiltin : Operator → Prop
  | .custom _ => False
  | _ => True

/-- Whether every entry -1 of a target shape that is read is known to be -1. -/
def KnownTarget : Operator → List TensorFacts → List Value → Prop
  | .reshape, [_, target], [_, .ints ws] => ∀ es, target.values? = some es → KnownInferred es ws.data.toList
  | _, _, _ => True

/-- Whether an operator, given as many inputs as it takes, can return a value, as far as its rule and the type of the
output depend on it. -/
inductive Returns : Operator → List Value → Value → Prop
  | unary {op : Elementwise} {v out : Value} (harity : op.fn.arity = 1)
      (hrun : Elementwise.runUnary op.fn v = .ok out) : Returns (.elementwise op) [v] out
  | binary {op : Elementwise} {v w out : Value} (harity : op.fn.arity = 2)
      (hrun : Elementwise.runBinary op.fn v w = .ok out) : Returns (.elementwise op) [v, w] out
  | fused {op : FusedElementwise} {xs : List (Tensor Single)} {y : Tensor Single} (hlen : xs.length = op.numInputs)
      (hshape : Shape.broadcastAll? (xs.map (·.shape)) = some y.shape) :
      Returns (.fused op) (xs.map .floats) (.floats y)
  | matMul {a b y : Tensor Single} {z : MatMul.Sizes} (hsizes : z.Fit a.shape b.shape)
      (hshape : y.shape = z.batch ++ [z.m, z.n]) : Returns .matMul [.floats a, .floats b] (.floats y)
  | reduce {op : Reduce} {v out : Value} {p : Reduce.Plan} (hplan : op.plan v.shape = .ok p)
      (hshape : out.shape = p.outShape) (htype : out.type = v.type) : Returns (.reduce op) [v] out
  | softmax {op : Softmax} {x y : Tensor Single} (hshape : y.shape = x.shape) :
      Returns (.softmax op) [.floats x] (.floats y)
  | reshape {v out : Value} {ws : Tensor Int32} (hrank : ws.shape.length = 1)
      (hresolve : Layout.resolveTarget (volume v.shape) ws.data.toList = .ok out.shape)
      (hvolume : volume out.shape = volume v.shape) (htype : out.type = v.type)
      (hints : ∀ x, v = .ints x → ∃ y, out = .ints y ∧ y.data = x.data) : Returns .reshape [v, .ints ws] out
  | transpose {perm? : Option (List Nat)} {perm : List Nat} {v out : Value}
      (hperm : Layout.resolvePermutation perm? v.rank = .ok perm) (hshape : out.shape = perm.filterMap (v.shape[·]?))
      (htype : out.type = v.type) : Returns (.transpose perm?) [v] out
  | concat {axis : Int} {v out : Value} {vs : List Value} {i : Nat} (haxis : resolveAxis v.rank axis = .ok i)
      (hsame : ∀ w ∈ v :: vs, w.shape = v.shape.set i (w.shape.getD i 0))
      (hshape : out.shape = v.shape.set i (total ((v :: vs).map fun w => w.shape.getD i 0)))
      (htype : out.type = v.type)
      (hints : v.rank = 1 → ∀ us : List (Tensor Int32), v :: vs = us.map .ints →
        ∃ y, out = .ints y ∧ y.data.toList = us.flatMap (·.data.toList)) : Returns (.concat axis) (v :: vs) out
  | cast {type : ElementType} {v out : Value} (hshape : out.shape = v.shape) (htype : out.type = type)
      (hints : type = .int32 → ∀ x, v = .ints x → out = v) : Returns (.cast type) [v] out
  | identity (v : Value) : Returns .identity [v] v
  | shape {v : Value} {ws : List Int32} (hws : v.shape.mapM ShapeAccess.sizeToWord = .ok ws) :
      Returns .shape [v] (.ints (.vector ws.toArray))
  | size {index n : Nat} {v : Value} {w : Int32} (hn : v.shape[index]? = some n)
      (hw : ShapeAccess.sizeToWord n = .ok w) : Returns (.size index) [v] (.ints (.scalar w))
  | specifyShape {spec : List (Option Nat)} {v : Value} (hspec : ShapeAccess.specMatches spec v.shape = true) :
      Returns (.specifyShape spec) [v] v
  | fill {x : Single} {ws : Tensor Int32} {y : Tensor Single} (hrank : ws.shape.length = 1)
      (hshape : ws.data.toList.map Word.toCount? = y.shape.map some) : Returns (.fill x) [.ints ws] (.floats y)
  | assertAll {message : String} (v : Value) (vs : List Value) : Returns (.assertAll message) (v :: vs) v

end Operator

/-- The only input. -/
theorem eq_of_input {vs : List Value} {v : Value} (hone : vs.length = 1) (hv : vs[0]? = some v) : vs = [v] := by
  obtain ⟨w, rfl⟩ := List.length_eq_one_iff.1 hone
  cases hv
  rfl

/-- The two inputs. -/
theorem eq_of_inputs {vs : List Value} {v w : Value} (htwo : vs.length = 2) (hv : vs[0]? = some v)
    (hw : vs[1]? = some w) : vs = [v, w] := by
  obtain ⟨v', w', rfl⟩ := List.length_eq_two.1 htwo
  cases hv
  cases hw
  rfl

/-- What joined tensors say about the values that they are. -/
theorem Layout.join_values_eq_ok {α : Type} [Inhabited α] (wrap : Tensor α → Value)
    (hwrap : ∀ t, (wrap t).shape = t.shape) {axis : Int} {first t : Tensor α} {rest : List (Tensor α)}
    (h : join axis (first :: rest) = .ok t) : ∃ i, resolveAxis (wrap first).rank axis = .ok i ∧
      (∀ v ∈ (first :: rest).map wrap, v.shape = (wrap first).shape.set i (v.shape.getD i 0)) ∧
      (wrap t).shape = (wrap first).shape.set i (total (((first :: rest).map wrap).map fun v => v.shape.getD i 0)) := by
  obtain ⟨i, haxis, hsame, hshape⟩ := join_eq_ok h
  refine ⟨i, ?_, fun v hv => ?_, ?_⟩
  · rw [Value.rank, hwrap]
    exact haxis
  · obtain ⟨u, hu, rfl⟩ := List.mem_map.1 hv
    rw [hwrap, hwrap]
    exact hsame u hu
  · simp only [List.map_map, hwrap, Function.comp_def]
    exact hshape

theorem Layout.returns_concat {axis : Int} {vs : List Value} {out : Value} (h : concat axis vs = .ok out) :
    (Operator.concat axis).Returns vs out := by
  rcases concat_eq_ok h with ⟨us, y, rfl, hjoin, rfl⟩ | ⟨us, y, rfl, hjoin, rfl⟩
  · cases us with
    | nil => cases hjoin
    | cons u us =>
      obtain ⟨i, haxis, hsame, hshape⟩ := join_values_eq_ok Value.floats (fun _ => rfl) hjoin
      exact .concat haxis hsame hshape rfl fun _ us' hus => by cases us' <;> cases hus
  · cases us with
    | nil => cases hjoin
    | cons u us =>
      obtain ⟨i, haxis, hsame, hshape⟩ := join_values_eq_ok Value.ints (fun _ => rfl) hjoin
      refine .concat haxis hsame hshape rfl fun hrank us' hus => ⟨y, rfl, ?_⟩
      have heq : u :: us = us' := List.map_injective_iff.2 (fun _ _ h => Value.ints.inj h) hus
      rw [join_vectors hrank hjoin, heq]

/-- A built-in operator, given as many inputs as it takes, returns one value. -/
theorem Operator.returns_of_run {op : Operator} {vs outs : List Value} (hbuiltin : op.IsBuiltin)
    (htakes : op.Takes vs.length) (h : op.run vs = .ok outs) : ∃ out, outs = [out] ∧ op.Returns vs out := by
  cases op with
  | custom op => exact hbuiltin.elim
  | elementwise op =>
    obtain ⟨out, rfl, hrun⟩ := eq_ok_singleton.1 h
    rcases Elementwise.run_eq_ok (htakes _ rfl) hrun with ⟨v, harity, rfl, hunary⟩ | ⟨v, w, harity, rfl, hbinary⟩
    · exact ⟨out, rfl, .unary harity hunary⟩
    · exact ⟨out, rfl, .binary harity hbinary⟩
  | fused op =>
    obtain ⟨out, rfl, hrun⟩ := eq_ok_singleton.1 h
    obtain ⟨xs, y, rfl, hshape, rfl⟩ := FusedElementwise.run_eq_ok (htakes _ rfl) hrun
    exact ⟨_, rfl, .fused (by simpa using htakes _ rfl) hshape⟩
  | matMul =>
    obtain ⟨out, rfl, hrun⟩ := eq_ok_singleton.1 h
    obtain ⟨a, b, p, y, ha, hb, hplan, rfl, hshape⟩ := MatMul.run_eq_ok hrun
    obtain rfl := eq_of_inputs (htakes _ rfl) ha hb
    obtain ⟨z, hsizes, rfl⟩ := MatMul.plan_eq_ok.1 hplan
    exact ⟨_, rfl, .matMul hsizes hshape⟩
  | reduce op =>
    obtain ⟨out, rfl, hrun⟩ := eq_ok_singleton.1 h
    obtain ⟨v, p, hv, hplan, hshape, htype⟩ := Reduce.run_eq_ok hrun
    obtain rfl := eq_of_input (htakes _ rfl) hv
    exact ⟨out, rfl, .reduce hplan hshape htype⟩
  | softmax op =>
    obtain ⟨out, rfl, hrun⟩ := eq_ok_singleton.1 h
    obtain ⟨x, y, hx, rfl, hshape⟩ := Softmax.run_eq_ok hrun
    obtain rfl := eq_of_input (htakes _ rfl) hx
    exact ⟨_, rfl, .softmax hshape⟩
  | reshape =>
    obtain ⟨out, rfl, hrun⟩ := eq_ok_singleton.1 h
    obtain ⟨v, ws, hv, hws, hrank, hresolve, htype, hints⟩ := Layout.reshape_eq_ok hrun
    obtain rfl := eq_of_inputs (htakes _ rfl) hv hws
    exact ⟨out, rfl, .reshape hrank hresolve (Layout.volume_reshape hrun) htype hints⟩
  | transpose perm =>
    obtain ⟨out, rfl, hrun⟩ := eq_ok_singleton.1 h
    obtain ⟨v, resolved, hv, hperm, hshape, htype⟩ := Layout.transpose_eq_ok hrun
    obtain rfl := eq_of_input (htakes _ rfl) hv
    rw [permuted_sizes] at hshape
    exact ⟨out, rfl, .transpose hperm hshape htype⟩
  | concat axis =>
    obtain ⟨out, rfl, hrun⟩ := eq_ok_singleton.1 h
    exact ⟨out, rfl, Layout.returns_concat hrun⟩
  | cast type =>
    obtain ⟨out, rfl, hrun⟩ := eq_ok_singleton.1 h
    obtain ⟨v, hv, hshape, htype, hints⟩ := Layout.cast_eq_ok hrun
    obtain rfl := eq_of_input (htakes _ rfl) hv
    exact ⟨out, rfl, .cast hshape htype hints⟩
  | identity =>
    obtain ⟨out, rfl, hrun⟩ := eq_ok_singleton.1 h
    obtain rfl := eq_of_input (htakes _ rfl) (Inputs.require_eq_ok.1 hrun)
    exact ⟨out, rfl, .identity out⟩
  | shape =>
    obtain ⟨out, rfl, hrun⟩ := eq_ok_singleton.1 h
    obtain ⟨v, ws, hv, hws, rfl⟩ := ShapeAccess.shape_eq_ok hrun
    obtain rfl := eq_of_input (htakes _ rfl) hv
    exact ⟨_, rfl, .shape hws⟩
  | size index =>
    obtain ⟨out, rfl, hrun⟩ := eq_ok_singleton.1 h
    obtain ⟨v, n, w, hv, hn, hw, rfl⟩ := ShapeAccess.size_eq_ok hrun
    obtain rfl := eq_of_input (htakes _ rfl) hv
    exact ⟨_, rfl, .size hn hw⟩
  | specifyShape spec =>
    obtain ⟨out, rfl, hrun⟩ := eq_ok_singleton.1 h
    obtain ⟨hv, hspec⟩ := ShapeAccess.specify_eq_ok hrun
    obtain rfl := eq_of_input (htakes _ rfl) hv
    exact ⟨out, rfl, .specifyShape hspec⟩
  | fill x =>
    obtain ⟨out, rfl, hrun⟩ := eq_ok_singleton.1 h
    obtain ⟨ws, y, hws, hrank, hshape, rfl⟩ := ShapeAccess.fill_eq_ok hrun
    obtain rfl := eq_of_input (htakes _ rfl) hws
    exact ⟨_, rfl, .fill hrank hshape⟩
  | assertAll message =>
    obtain ⟨out, rfl, hrun⟩ := eq_ok_singleton.1 h
    have hv := ShapeAccess.assertAll_eq_ok hrun
    cases vs with
    | nil => cases hv
    | cons v vs =>
      cases hv
      exact ⟨out, rfl, .assertAll out vs⟩

/-! ## Arithmetic that does not wrap -/

theorem isOk_iff {ε α : Type} {x : Except ε α} : x.isOk = true ↔ ∃ a, x = .ok a := by
  cases x with
  | error e => simp [Except.isOk, Except.toBool]
  | ok a => simp [Except.isOk, Except.toBool]

theorem mapM_of_mapM {α β ε : Type} {f g : α → Except ε β} (hfg : ∀ a b, f a = .ok b → g a = .ok b) {l : List α}
    {ys : List β} (h : l.mapM f = .ok ys) : l.mapM g = .ok ys := by
  induction l generalizing ys with
  | nil => exact h
  | cons a l ih =>
    rw [List.mapM_cons] at h ⊢
    obtain ⟨b, hb, h⟩ := bind_eq_ok.1 h
    obtain ⟨bs, hbs, h⟩ := bind_eq_ok.1 h
    exact bind_eq_ok.2 ⟨b, hfg a b hb, bind_eq_ok.2 ⟨bs, ih hbs, h⟩⟩

theorem mapM_checked {fn : ScalarFn} {x y : Tensor Int32} (hok : (x.mapM fn.checkedUnaryInt).isOk = true)
    (hy : x.mapM fn.unaryInt = .ok y) : x.data.toList.mapM fn.checkedUnaryInt = .ok y.data.toList := by
  obtain ⟨z, hz⟩ := isOk_iff.1 hok
  have hdata := (Tensor.mapM_eq_ok hz).2
  have hplain := mapM_of_mapM (fun _ _ => ScalarFn.unaryInt_of_checked) hdata
  rw [(Tensor.mapM_eq_ok hy).2] at hplain
  rwa [Except.ok.inj hplain]

theorem zipBroadcast_checked {fn : ScalarFn} {x y t : Tensor Int32}
    (hok : (x.zipBroadcast fn.checkedInt y).isOk = true) (ht : x.zipBroadcast fn.binaryInt y = .ok t) :
    x.zipBroadcast fn.checkedInt y = .ok t := by
  obtain ⟨z, hz⟩ := isOk_iff.1 hok
  obtain ⟨hshapez, hdataz⟩ := Tensor.zipBroadcast_eq_ok hz
  obtain ⟨hshapet, hdatat⟩ := Tensor.zipBroadcast_eq_ok ht
  have hshape : z.shape = t.shape := Option.some.inj (hshapez.symm.trans hshapet)
  have hplain := mapM_of_mapM (fun _ _ => ScalarFn.binaryInt_of_checked) hdataz
  rw [hshape, hdatat] at hplain
  rw [hz, Tensor.eq_of_data hshape (Except.ok.inj hplain).symm]

/-! ## Elementwise operators -/

theorem follows_unary {op : Elementwise} {t : TensorFacts} {v out : Value} (hfit : Shape.Fits v.shape)
    (hrun : Elementwise.runUnary op.fn v = .ok out) (hwrap : (Operator.elementwise op).NoWrap [v])
    (harity : op.fn.arity = 1) : Follows (fun drops => op.fn.shapeRuleBy drops [t]) [t] [v] out := by
  refine follows_of_draws fun σ drops s outs s' h hdrops hall => ?_
  have ht := describesAll_one.1 hall
  obtain ⟨hshape, -, hints⟩ := Elementwise.runUnary_eq_ok hrun
  unfold ScalarFn.shapeRuleBy at h
  split at h
  · next hneg =>
    refine describes_negation hdrops h ht hfit hshape fun x hx => ?_
    obtain ⟨y, hy, hmap⟩ := hints x hx
    subst hx
    have hchecked := mapM_checked hwrap hmap
    rw [hneg] at hchecked
    exact ⟨y, hy, hchecked⟩
  · exact describes_sameAsFirst h ht hfit hshape

/-- A function of two arguments is not the negation, whose rule is another. -/
theorem ScalarFn.shapeRuleBy_binary {fn : ScalarFn} (harity : fn.arity = 2) (drops : DropTest) :
    fn.shapeRuleBy drops = match fn.sizeOp? with
      | some op => ShapeRule.arithBy drops op
      | none => ShapeRule.broadcastPair := by
  have hone : fn.arity ≠ 1 := by omega
  have hneg : fn ≠ .neg := fun hneg => hone (by rw [hneg]; rfl)
  exact (if_neg hneg).trans (if_neg hone)

theorem follows_binary {op : Elementwise} {t u : TensorFacts} {v w out : Value} (hfitv : Shape.Fits v.shape)
    (hfitw : Shape.Fits w.shape) (hrun : Elementwise.runBinary op.fn v w = .ok out)
    (hwrap : (Operator.elementwise op).NoWrap [v, w]) (harity : op.fn.arity = 2) :
    Follows (fun drops => op.fn.shapeRuleBy drops [t, u]) [t, u] [v, w] out := by
  refine follows_of_draws fun σ drops s outs s' h hdrops hall => ?_
  obtain ⟨ht, hu⟩ := describesAll_two.1 hall
  obtain ⟨hshape, -, -, hints⟩ := Elementwise.runBinary_eq_ok hrun
  rw [ScalarFn.shapeRuleBy_binary harity] at h
  cases hop : op.fn.sizeOp? with
  | some op' =>
    rw [hop] at h
    refine describes_arith hdrops hop h ht hu hfitv hfitw hshape fun x y hx hy => ?_
    obtain ⟨z, hz, hzip⟩ := hints x y hx hy
    subst hx
    subst hy
    exact ⟨z, hz, zipBroadcast_checked hwrap hzip⟩
  | none =>
    rw [hop] at h
    exact describes_broadcastPair h ht hu hfitv hfitw hshape

/-! ## Rules -/

theorem follows_fused {op : FusedElementwise} {ts : List TensorFacts} {xs : List (Tensor Single)} {out : Value}
    (hfits : ∀ v ∈ xs.map Value.floats, Shape.Fits v.shape)
    (hshape : Shape.broadcastAll? (xs.map (·.shape)) = some out.shape) :
    Follows (fun _ => op.shapeRule ts) ts (xs.map .floats) out := by
  refine follows_of_draws fun σ drops s outs s' h _ hall => ?_
  unfold FusedElementwise.shapeRule at h
  split at h
  · exact absurd h draws_throw
  · refine describes_broadcastAll h hall hfits ?_
    rw [List.map_map]
    exact hshape

theorem TensorFacts.Describes.toInts {σ : Assignment} {t : TensorFacts} {v out : Value} (h : t.Describes σ v)
    (hshape : out.shape = v.shape) (hints : ∀ x, v = .ints x → out = v) : t.Describes σ out := by
  cases v with
  | ints x =>
    rw [hints x rfl]
    exact h
  | floats x =>
    cases t with
    | scalar e =>
      obtain ⟨u, hu, -⟩ := h
      cases hu
    | vector es =>
      obtain ⟨u, hu, -⟩ := h
      cases hu
    | shape dims =>
      rw [TensorFacts.Describes, hshape]
      exact h
    | unknown note => trivial

/-- The rule of each built-in operator describes what the operator returns. -/
theorem Operator.Returns.follows_rule {op : Operator} {ts : List TensorFacts} {vs : List Value} {out : Value}
    (h : op.Returns vs out) (hts : ts.length = vs.length) (hfits : ∀ v ∈ vs, Shape.Fits v.shape)
    (hfit : Shape.Fits out.shape) (hwrap : op.NoWrap vs) (hknown : op.KnownTarget ts vs) :
    ∃ rule : DropTest → ShapeRule, (∀ drops, op.shapeRuleBy? drops = some (rule drops)) ∧
      Follows (fun drops => rule drops ts) ts vs out := by
  cases h with
  | unary harity hrun =>
    obtain ⟨t, rfl⟩ := List.length_eq_one_iff.1 hts
    exact ⟨_, fun _ => rfl, follows_unary (hfits _ (by simp)) hrun hwrap harity⟩
  | binary harity hrun =>
    obtain ⟨t, u, rfl⟩ := List.length_eq_two.1 hts
    exact ⟨_, fun _ => rfl, follows_binary (hfits _ (by simp)) (hfits _ (by simp)) hrun hwrap harity⟩
  | fused _ hshape => exact ⟨_, fun _ => rfl, follows_fused hfits hshape⟩
  | matMul hsizes hshape =>
    obtain ⟨t, u, rfl⟩ := List.length_eq_two.1 hts
    refine ⟨_, fun _ => rfl, follows_of_draws fun σ drops s outs s' hdraws _ hall => ?_⟩
    obtain ⟨ht, hu⟩ := describesAll_two.1 hall
    exact describes_matMul hdraws ht hu (hfits _ (by simp)) (hfits _ (by simp)) hsizes hshape
  | reduce hplan hshape _ =>
    obtain ⟨t, rfl⟩ := List.length_eq_one_iff.1 hts
    refine ⟨_, fun _ => rfl, follows_one_of_draws fun hdraws ht => ?_⟩
    exact describes_reduction hdraws ht (hfits _ (by simp)) hplan hshape
  | softmax hshape =>
    obtain ⟨t, rfl⟩ := List.length_eq_one_iff.1 hts
    refine ⟨_, fun _ => rfl, follows_one_of_draws fun hdraws ht => ?_⟩
    exact describes_sameAsFirst hdraws ht (hfits _ (by simp)) hshape
  | @reshape v out ws hrank hresolve _ _ hints =>
    obtain ⟨t, u, rfl⟩ := List.length_eq_two.1 hts
    refine ⟨_, fun _ => rfl, ?_⟩
    refine (yields_reshape (hfits v (by simp)) hrank (hfits (.ints ws) (by simp)) hresolve hints hknown).imp
      fun σ drops outs hyields hdrops hall => ?_
    obtain ⟨ht, hu⟩ := describesAll_two.1 hall
    exact hyields hdrops ht hu
  | transpose hperm hshape _ =>
    obtain ⟨t, rfl⟩ := List.length_eq_one_iff.1 hts
    exact ⟨_, fun _ => rfl, follows_one (yields_transpose (hfits _ (by simp)) hperm hshape)⟩
  | concat haxis hsame hshape _ hints =>
    cases ts with
    | nil => cases hts
    | cons t ts => exact ⟨_, fun _ => rfl, yields_concat hfits hfit haxis hsame hshape hints⟩
  | @cast type v out hshape _ hints =>
    obtain ⟨t, rfl⟩ := List.length_eq_one_iff.1 hts
    -- Elements are tracked through casts to integers only.
    cases type with
    | float32 =>
      refine ⟨_, fun _ => rfl, follows_one_of_draws fun hdraws ht => ?_⟩
      exact describes_sameAsFirst hdraws ht (hfits _ (by simp)) hshape
    | int32 =>
      refine ⟨_, fun _ => rfl, follows_one_of_draws fun hdraws ht => ?_⟩
      exact describes_passFirst hdraws (ht.toInts hshape (hints rfl))
  | identity v =>
    obtain ⟨t, rfl⟩ := List.length_eq_one_iff.1 hts
    exact ⟨_, fun _ => rfl, follows_one_of_draws describes_passFirst⟩
  | shape hws =>
    obtain ⟨t, rfl⟩ := List.length_eq_one_iff.1 hts
    exact ⟨_, fun _ => rfl, follows_one (yields_shapeOf (hfits _ (by simp)) hws)⟩
  | size hn hw =>
    obtain ⟨t, rfl⟩ := List.length_eq_one_iff.1 hts
    exact ⟨_, fun _ => rfl, follows_one (yields_sizeOf (hfits _ (by simp)) hn hw)⟩
  | specifyShape hspec =>
    obtain ⟨t, rfl⟩ := List.length_eq_one_iff.1 hts
    exact ⟨_, fun _ => rfl, follows_one (yields_specifyShape hfit hspec)⟩
  | @fill _ ws y hrank hshape =>
    obtain ⟨t, rfl⟩ := List.length_eq_one_iff.1 hts
    have hcounts : ws.data.toList.map Word.toCount? = (Value.floats y).shape.map some := hshape
    exact ⟨_, fun _ => rfl, follows_one (yields_fill hrank (hfits (.ints ws) (by simp)) hcounts)⟩
  | assertAll v vs =>
    cases ts with
    | nil => cases hts
    | cons t ts =>
      refine ⟨_, fun _ => rfl, follows_of_draws fun σ drops s outs s' hdraws _ hall => ?_⟩
      exact describes_passFirst hdraws (List.forall₂_cons.1 hall).1

theorem follows_simplify {rule : DropTest → RuleM (List TensorFacts)} {ts : List TensorFacts} {vs : List Value}
    {out : Value} (h : Follows rule ts vs out) :
    Follows (fun drops => do return (← rule drops).map (TensorFacts.simplifyBy drops)) ts vs out := by
  intro s
  obtain ⟨sizes, hsizes⟩ := h s
  refine ⟨sizes, fun drops outs s' ha σ hσ hdrops hall => ?_⟩
  obtain ⟨found, s₁, hfound, hout⟩ := draws_bind.1 ha
  obtain ⟨rfl, rfl⟩ := draws_pure.1 hout
  have hfirst := hsizes drops found s₁ hfound σ hσ hdrops hall
  intro t ht
  rw [List.head?_map] at ht
  obtain ⟨u, hu, rfl⟩ := Option.map_eq_some_iff.1 ht
  exact (hfirst u hu).simplifyBy hdrops

/-- The facts about the output of a built-in operator describe what the operator returns. -/
theorem Operator.Returns.follows_outputFacts {op : Operator} {ts : List TensorFacts} {vs : List Value} {out : Value}
    (h : op.Returns vs out) (hts : ts.length = vs.length) (hfits : ∀ v ∈ vs, Shape.Fits v.shape)
    (hfit : Shape.Fits out.shape) (hwrap : op.NoWrap vs) (hknown : op.KnownTarget ts vs) :
    Follows (fun drops => op.outputFactsBy drops ts) ts vs out := by
  obtain ⟨rule, hrule, hfollows⟩ := h.follows_rule hts hfits hfit hwrap hknown
  have hfacts (drops : DropTest) : op.outputFactsBy drops ts =
      (do return (← rule drops ts).map (TensorFacts.simplifyBy drops)) := by
    simp only [Operator.outputFactsBy, hrule]
  simp only [hfacts]
  exact follows_simplify hfollows

/-! ## Types -/

/-- Whether the types, as far as they are known, are those of the values. -/
def TypesOf : List (Option ElementType) → List Value → Prop :=
  List.Forall₂ fun type v => ∀ t, type = some t → t = v.type

theorem type_of_head {types : List (Option ElementType)} {vs : List Value} {v : Value} {t : ElementType}
    (h : TypesOf types vs) (hv : vs[0]? = some v) (ht : types.head?.join = some t) : t = v.type := by
  cases h with
  | nil => cases hv
  | @cons type w types vs hw _ =>
    cases hv
    exact hw t ht

/-- The first known type is that of all values, if they have the same type. -/
theorem type_of_findSome? {types : List (Option ElementType)} {vs : List Value} {type t : ElementType}
    (h : TypesOf types vs) (hvs : ∀ v ∈ vs, v.type = type) (ht : types.findSome? id = some t) : t = type := by
  induction h with
  | nil => cases ht
  | @cons ty w types vs hw _ ih =>
    obtain ⟨hwtype, hvs⟩ := List.forall_mem_cons.1 hvs
    cases ty with
    | some u =>
      cases ht
      exact (hw _ rfl).trans hwtype
    | none => exact ih hvs ht

/-- The inferred type of the output of a built-in operator is that of what it returns. -/
theorem Operator.Returns.type_eq {op : Operator} {types : List (Option ElementType)} {vs : List Value} {out : Value}
    {t : ElementType} (h : op.Returns vs out) (htypes : TypesOf types vs)
    (ht : (op.outputTypes types)[0]?.join = some t) : t = out.type := by
  have hhead {v : Value} {rest : List Value} (htypes : TypesOf types (v :: rest)) (ht : types.head?.join = some t)
      (htype : out.type = v.type) : t = out.type := htype ▸ type_of_head htypes rfl ht
  have hfixed {type : ElementType} (ht : some type = some t) (htype : out.type = type) : t = out.type := by
    cases ht
    exact htype.symm
  cases h with
  | unary _ hrun =>
    have htype := (Elementwise.runUnary_eq_ok hrun).2.1
    exact type_of_findSome? htypes (by simp [htype]) ht
  | binary _ hrun =>
    obtain ⟨-, hleft, hright, -⟩ := Elementwise.runBinary_eq_ok hrun
    exact type_of_findSome? htypes (by simp [← hleft, ← hright]) ht
  | fused _ _ => exact hfixed ht rfl
  | matMul _ _ => exact hfixed ht rfl
  | reduce _ _ htype => exact hhead htypes ht htype
  | softmax _ => exact hhead htypes ht rfl
  | reshape _ _ _ htype _ => exact hhead htypes ht htype
  | transpose _ _ htype => exact hhead htypes ht htype
  | concat _ _ _ htype _ => exact hhead htypes ht htype
  | cast _ htype _ => exact hfixed ht htype
  | identity v => exact hhead htypes ht rfl
  | shape _ => exact hfixed ht rfl
  | size _ _ => exact hfixed ht rfl
  | specifyShape _ => exact hhead htypes ht rfl
  | fill _ _ => exact hfixed ht rfl
  | assertAll v vs => exact hhead htypes ht rfl

end TensorGraph
