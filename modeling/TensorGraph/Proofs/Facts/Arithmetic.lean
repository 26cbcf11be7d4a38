import TensorGraph.Proofs.Facts.Shapes
import TensorGraph.Proofs.Tensor.Elements

/-!
# Rules for arithmetic

Arithmetic on tracked elements denotes the elements that the operator computes, if it does not wrap.
-/

namespace TensorGraph

namespace ScalarFn

/-- The given value, or a failure in place of one that wraps. -/
def unlessWrapped : Option Int32 → OpResult Int32
  | some x => .ok x
  | none => .error (.invalidValue "integer overflow")

/-- The value at one integer, if it is not a negation that wraps. -/
def checkedUnaryInt (fn : ScalarFn) (x : Int32) : OpResult Int32 :=
  match fn with
  | .neg => unlessWrapped (Word.neg? x)
  | fn => fn.unaryInt x

/-- The value at two integers, if it does not wrap. -/
def checkedInt (fn : ScalarFn) (x y : Int32) : OpResult Int32 :=
  match fn with
  | .add => unlessWrapped (Word.add? x y)
  | .sub => unlessWrapped (Word.sub? x y)
  | .mul => unlessWrapped (Word.mul? x y)
  | fn => fn.binaryInt x y

theorem unlessWrapped_eq_ok {x : Int} {w : Int32} : unlessWrapped (Word.ofInt? x) = .ok w ↔ w.toInt = x := by
  rw [← Word.ofInt?_eq_some_iff]
  cases Word.ofInt? x <;> simp [unlessWrapped]

theorem eq_of_toInt {x : Int} {v w : Int32} (hv : v.toInt = x) (hw : w.toInt = x.bmod (2 ^ 32)) : w = v := by
  have h₁ := v.le_toInt
  have h₂ := v.toInt_lt
  rw [← Int32.toInt_inj, hw, hv]
  exact Int.bmod_eq_of_le (by omega) (by omega)

theorem unaryInt_of_checked {fn : ScalarFn} {x z : Int32} (h : fn.checkedUnaryInt x = .ok z) :
    fn.unaryInt x = .ok z := by
  cases fn with
  | neg => exact congrArg _ (eq_of_toInt (unlessWrapped_eq_ok.1 h) (Int32.toInt_neg x))
  | _ => exact h

theorem binaryInt_of_checked {fn : ScalarFn} {x y z : Int32} (h : fn.checkedInt x y = .ok z) :
    fn.binaryInt x y = .ok z := by
  cases fn with
  | add => exact congrArg _ (eq_of_toInt (unlessWrapped_eq_ok.1 h) (Int32.toInt_add x y))
  | sub => exact congrArg _ (eq_of_toInt (unlessWrapped_eq_ok.1 h) (Int32.toInt_sub x y))
  | mul => exact congrArg _ (eq_of_toInt (unlessWrapped_eq_ok.1 h) (Int32.toInt_mul x y))
  | _ => exact h

end ScalarFn

/-- Whether no integer arithmetic of the operator wraps. -/
def Operator.NoWrap : Operator → List Value → Prop
  | .elementwise op, [.ints x] => (x.mapM op.fn.checkedUnaryInt).isOk = true
  | .elementwise op, [.ints x, .ints y] => (x.zipBroadcast op.fn.checkedInt y).isOk = true
  | _, _ => True

variable {σ : Assignment} {drops : DropTest} {s s' : SymbolSupply}

/-! ## Single elements -/

theorem toInt_le (w : Int32) : w.toInt ≤ 2147483647 := by
  have := w.toInt_lt
  omega

theorem toInt_of_divideInts {v w z : Int32} (h : ScalarFn.divideInts v w = .ok z) :
    w.toInt ≠ 0 ∧ z.toInt = v.toInt.fdiv w.toInt := by
  unfold ScalarFn.divideInts at h
  split at h
  · cases h
  · next hne =>
    refine ⟨fun hzero => hne (Int32.toInt_inj.1 hzero), ?_⟩
    rw [Word.floorDiv?, if_neg hne] at h
    split at h
    · next q hq =>
      cases h
      exact Word.ofInt?_eq_some_iff.1 hq
    · cases h

theorem denotes_apply (hdrops : SizeExpr.SoundDrops σ.valuation drops) {fn : ScalarFn} {op : SizeOp}
    (hop : fn.sizeOp? = some op) {a b : SizeExpr} {v w z : Int32} (ha : a.Denotes σ v.toInt)
    (hb : b.Denotes σ w.toInt) (hz : fn.checkedInt v w = .ok z) : (op.apply drops a b).Denotes σ z.toInt := by
  refine SizeExpr.Denotes.simplifyBy hdrops ?_
  cases fn with
  | add =>
    cases hop
    rw [ScalarFn.unlessWrapped_eq_ok.1 hz]
    exact ha.add hb (toInt_le v) (toInt_le w)
  | sub =>
    cases hop
    rw [ScalarFn.unlessWrapped_eq_ok.1 hz]
    exact ha.sub hb (toInt_le v) (toInt_le w)
  | mul =>
    cases hop
    rw [ScalarFn.unlessWrapped_eq_ok.1 hz]
    exact ha.mul hb (toInt_le v) (toInt_le w)
  | div =>
    cases hop
    obtain ⟨hne, hz⟩ := toInt_of_divideInts hz
    rw [hz]
    exact ha.div hb hne
  | maximum =>
    cases hop
    cases hz
    rw [SizeExpr.toInt_max]
    exact ha.max hb
  | minimum =>
    cases hop
    cases hz
    rw [SizeExpr.toInt_min]
    exact ha.min hb
  | _ => cases hop

/-! ## Negation -/

theorem denoteWords_negation (hdrops : SizeExpr.SoundDrops σ.valuation drops) {xs : List SizeExpr}
    {vs zs : List Int32} (h : DenoteWords σ xs vs) (hz : vs.mapM (ScalarFn.checkedUnaryInt .neg) = .ok zs) :
    DenoteWords σ (xs.map fun x => (SizeExpr.neg x).simplifyBy drops) zs := by
  induction h generalizing zs with
  | nil =>
    cases hz
    exact .nil
  | @cons x v xs vs hx _ ih =>
    rw [List.mapM_cons] at hz
    obtain ⟨z, hv, hz⟩ := bind_eq_ok.1 hz
    obtain ⟨zs, hvs, hz⟩ := bind_eq_ok.1 hz
    cases hz
    refine .cons (SizeExpr.Denotes.simplifyBy hdrops ?_) (ih hvs)
    rw [ScalarFn.unlessWrapped_eq_ok.1 hv]
    exact hx.neg (toInt_le v)

theorem describes_negation (hdrops : SizeExpr.SoundDrops σ.valuation drops) {t : TensorFacts}
    {outs : List TensorFacts} {v out : Value} (h : Draws (ShapeRule.negationBy drops [t]) s outs s')
    (ht : t.Describes σ v) (hfit : Shape.Fits v.shape) (hshape : out.shape = v.shape)
    (hints : ∀ x, v = .ints x → ∃ y, out = .ints y ∧ x.data.toList.mapM (ScalarFn.checkedUnaryInt .neg) =
      .ok y.data.toList) : FirstDescribes σ outs out := by
  cases t with
  | scalar x =>
    obtain ⟨u, rfl, hu, hx⟩ := ht
    obtain ⟨y, rfl, hy⟩ := hints u rfl
    obtain ⟨rfl, -⟩ := draws_pure.1 h
    exact firstDescribes_cons.2 ⟨y, rfl, hshape.trans hu, denoteWords_negation hdrops hx hy⟩
  | vector xs =>
    obtain ⟨u, rfl, hu, hx⟩ := ht
    obtain ⟨y, rfl, hy⟩ := hints u rfl
    obtain ⟨rfl, -⟩ := draws_pure.1 h
    refine firstDescribes_cons.2 ⟨y, rfl, ?_, denoteWords_negation hdrops hx hy⟩
    rw [List.length_map]
    exact hshape.trans hu
  | shape dims =>
    have hsame : Draws (ShapeRule.sameAsFirst [.shape dims]) s outs s' := h
    exact describes_sameAsFirst hsame ht hfit hshape
  | unknown note =>
    have hsame : Draws (ShapeRule.sameAsFirst [.unknown note]) s outs s' := h
    exact describes_sameAsFirst hsame ht hfit hshape

/-! ## Arithmetic on two inputs -/

/-- The elements of two lists, combined one by one. -/
theorem denoteWords_zipWith {f : Int32 → Int32 → OpResult Int32} {g : SizeExpr → SizeExpr → SizeExpr}
    (step : ∀ a b v w z, SizeExpr.Denotes σ a (Int32.toInt v) → SizeExpr.Denotes σ b (Int32.toInt w) →
      f v w = .ok z → SizeExpr.Denotes σ (g a b) z.toInt)
    {xs ys : List SizeExpr} {vs ws zs : List Int32} (hx : DenoteWords σ xs vs) (hy : DenoteWords σ ys ws)
    (hz : (vs.zip ws).mapM (fun p => f p.1 p.2) = .ok zs) : DenoteWords σ (List.zipWith g xs ys) zs := by
  induction hx generalizing ys ws zs with
  | nil =>
    cases hz
    exact .nil
  | @cons x v xs vs hxv _ ih =>
    cases hy with
    | nil =>
      cases hz
      exact .nil
    | @cons y w ys ws hyw hys =>
      rw [List.zip_cons_cons, List.mapM_cons] at hz
      obtain ⟨z, hvw, hz⟩ := bind_eq_ok.1 hz
      obtain ⟨zs, hzs, hz⟩ := bind_eq_ok.1 hz
      cases hz
      exact .cons (step x y v w z hxv hyw hvw) (ih hys hzs)

theorem denoteWords_replicate {x : SizeExpr} {v : Int32} (h : x.Denotes σ v.toInt) (n : Nat) :
    DenoteWords σ (List.replicate n x) (List.replicate n v) := by
  induction n with
  | zero => exact .nil
  | succ n ih => exact .cons h ih

/-- The tracked elements of a scalar or vector that is broadcast to a vector of size `n`: all of them, or the
only one everywhere. -/
theorem denoteWords_spread {xs : List SizeExpr} {u : Tensor Int32} (h : DenoteWords σ xs u.data.toList)
    (hu : u.shape = [] ∨ u.shape = [xs.length]) {n : Nat} (hlen : xs.length = n ∨ xs.length = 1) :
    xs.length = n ∧ DenoteWords σ xs (u.spread [n]) ∨
      ∃ x, xs = [x] ∧ DenoteWords σ (List.replicate n x) (u.spread [n]) := by
  have hvector (hlen : xs.length = n) (hu : u.shape = [xs.length]) : DenoteWords σ xs (u.spread [n]) := by
    rw [hlen] at hu
    rwa [Tensor.spread_vector hu]
  have hsingle (hlen : xs.length = 1) (hu : u.shape = [] ∨ u.shape = [1]) :
      ∃ x, xs = [x] ∧ DenoteWords σ (List.replicate n x) (u.spread [n]) := by
    obtain ⟨x, rfl⟩ := List.length_eq_one_iff.1 hlen
    obtain ⟨v, hv⟩ : ∃ v, u.data.toList = [v] := List.length_eq_one_iff.1 h.length_eq.symm
    rw [Tensor.spread_of_single hv hu n]
    rw [hv] at h
    cases h with | cons hx _ => exact ⟨x, rfl, denoteWords_replicate hx n⟩
  rcases hu with hu | hu
  · have hone : xs.length = 1 := by
      rw [h.length_eq, Array.length_toList, u.size_data, hu]
      rfl
    exact .inr (hsingle hone (.inl hu))
  · rcases hlen with hlen | hlen
    · exact .inl ⟨hlen, hvector hlen hu⟩
    · exact .inr (hsingle hlen (.inr (hlen ▸ hu)))

/-- A scalar or vector and another one, not both scalars, broadcast to a vector. -/
theorem broadcast_rows {a b c : List Nat} {m n : Nat} (hm : 1 ≤ m) (hn : 1 ≤ n) (ha : a = [] ∧ m = 1 ∨ a = [m])
    (hb : b = [] ∧ n = 1 ∨ b = [n]) (hvector : a ≠ [] ∨ b ≠ []) (h : Shape.broadcast? a b = some c) :
    ∃ r, c = [r] ∧ 1 ≤ r ∧ (m = r ∨ m = 1) ∧ (n = r ∨ n = 1) ∧ (m = r ∨ n = r) := by
  rcases ha with ⟨rfl, rfl⟩ | rfl
  · rcases hb with ⟨rfl, rfl⟩ | rfl
    · simp at hvector
    · cases h
      exact ⟨n, rfl, hn, by omega, by omega, by omega⟩
  · rcases hb with ⟨rfl, rfl⟩ | rfl
    · cases h
      exact ⟨m, rfl, hm, by omega, by omega, by omega⟩
    · obtain ⟨r, hr, rfl⟩ : ∃ r, Shape.broadcastSize? m n = some r ∧ c = [r] := by
        simp only [Shape.broadcast?, List.reverse_singleton, Shape.broadcastReversed?, Option.bind_eq_bind] at h
        cases hsize : Shape.broadcastSize? m n with
        | none => simp [hsize] at h
        | some r => exact ⟨r, rfl, by simpa [hsize] using h.symm⟩
      have := broadcastSize?_cases hr
      exact ⟨r, rfl, by omega, by omega, by omega, by omega⟩

theorem zipWith_replicate_left {g : SizeExpr → SizeExpr → SizeExpr} (x : SizeExpr) (ys : List SizeExpr) :
    List.zipWith g (List.replicate ys.length x) ys = ys.map (g x) := by
  induction ys with
  | nil => rfl
  | cons y ys ih => simpa [List.replicate_succ] using ih

theorem zipWith_replicate_right {g : SizeExpr → SizeExpr → SizeExpr} (xs : List SizeExpr) (y : SizeExpr) :
    List.zipWith g xs (List.replicate xs.length y) = xs.map (g · y) := by
  induction xs with
  | nil => rfl
  | cons x xs ih => simpa [List.replicate_succ] using ih

/-- The elements that are combined when one list may be a single element. -/
theorem zipElements_eq_some {g : SizeExpr → SizeExpr → SizeExpr} {xs ys zs as bs : List SizeExpr} {r : Nat}
    (hx : xs.length = r ∧ as = xs ∨ ∃ x, xs = [x] ∧ as = List.replicate r x)
    (hy : ys.length = r ∧ bs = ys ∨ ∃ y, ys = [y] ∧ bs = List.replicate r y)
    (hr : xs.length = r ∨ ys.length = r) (h : ShapeRule.zipElements g xs ys = some zs) :
    zs = List.zipWith g as bs := by
  unfold ShapeRule.zipElements at h
  rcases hx with ⟨hxr, rfl⟩ | ⟨x, rfl, rfl⟩
  · rcases hy with ⟨hyr, rfl⟩ | ⟨y, rfl, rfl⟩
    · rw [if_pos (hxr.trans hyr.symm)] at h
      cases h
      rfl
    · subst hxr
      rw [zipWith_replicate_right]
      split at h
      · next hlen =>
        obtain ⟨x, rfl⟩ := List.length_eq_one_iff.1 hlen
        cases h
        rfl
      · split at h
        · next hlen => exact absurd rfl hlen
        · next heq _ =>
          cases heq
          cases h
          rfl
        · next hne => exact absurd rfl (hne _)
  · rcases hy with ⟨hyr, rfl⟩ | ⟨y, rfl, rfl⟩
    · subst hyr
      rw [zipWith_replicate_left]
      split at h
      · next hlen =>
        obtain ⟨y, rfl⟩ := List.length_eq_one_iff.1 hlen.symm
        cases h
        rfl
      · cases h
        rfl
    · obtain rfl : 1 = r := by simpa using hr
      cases h
      rfl

theorem denoteWords_zipElements {fn : ScalarFn} {g : SizeExpr → SizeExpr → SizeExpr}
    (step : ∀ a b v w z, SizeExpr.Denotes σ a (Int32.toInt v) → SizeExpr.Denotes σ b (Int32.toInt w) →
      fn.checkedInt v w = .ok z → SizeExpr.Denotes σ (g a b) z.toInt) {xs ys zs : List SizeExpr}
    {x y t : Tensor Int32} (hx : DenoteWords σ xs x.data.toList) (hy : DenoteWords σ ys y.data.toList)
    (hxshape : x.shape = [] ∨ x.shape = [xs.length]) (hyshape : y.shape = [] ∨ y.shape = [ys.length])
    (hfitx : Shape.Fits x.shape) (hfity : Shape.Fits y.shape) (hvector : x.shape ≠ [] ∨ y.shape ≠ [])
    (hzs : ShapeRule.zipElements g xs ys = some zs) (ht : x.zipBroadcast fn.checkedInt y = .ok t) :
    t.shape = [zs.length] ∧ DenoteWords σ zs t.data.toList := by
  obtain ⟨hshape, hdata⟩ := Tensor.zipBroadcast_eq_ok ht
  have hrow {xs : List SizeExpr} {u : Tensor Int32} (h : DenoteWords σ xs u.data.toList)
      (hu : u.shape = [] ∨ u.shape = [xs.length]) (hfit : Shape.Fits u.shape) :
      1 ≤ xs.length ∧ (u.shape = [] ∧ xs.length = 1 ∨ u.shape = [xs.length]) := by
    rcases hu with hu | hu
    · have hone : xs.length = 1 := by
        rw [h.length_eq, Array.length_toList, u.size_data, hu]
        rfl
      exact ⟨by omega, .inl ⟨hu, hone⟩⟩
    · exact ⟨(hfit _ (by simp [hu])).1, .inr hu⟩
  obtain ⟨hxpos, hxrow⟩ := hrow hx hxshape hfitx
  obtain ⟨hypos, hyrow⟩ := hrow hy hyshape hfity
  obtain ⟨r, htshape, hr, hxr, hyr, hlen⟩ := broadcast_rows hxpos hypos hxrow hyrow hvector hshape
  rw [htshape] at hdata ⊢
  have hlenout : t.data.toList.length = r := by
    rw [Array.length_toList, t.size_data, htshape]
    exact Nat.mul_one r
  -- both lists of elements, brought to the length of the result
  obtain ⟨as, has, hdenx⟩ : ∃ as, (xs.length = r ∧ as = xs ∨ ∃ a, xs = [a] ∧ as = List.replicate r a) ∧
      DenoteWords σ as (x.spread [r]) := by
    rcases denoteWords_spread hx hxshape hxr with ⟨hlen, h⟩ | ⟨a, ha, h⟩
    · exact ⟨xs, .inl ⟨hlen, rfl⟩, h⟩
    · exact ⟨_, .inr ⟨a, ha, rfl⟩, h⟩
  obtain ⟨bs, hbs, hdeny⟩ : ∃ bs, (ys.length = r ∧ bs = ys ∨ ∃ b, ys = [b] ∧ bs = List.replicate r b) ∧
      DenoteWords σ bs (y.spread [r]) := by
    rcases denoteWords_spread hy hyshape hyr with ⟨hlen, h⟩ | ⟨b, hb, h⟩
    · exact ⟨ys, .inl ⟨hlen, rfl⟩, h⟩
    · exact ⟨_, .inr ⟨b, hb, rfl⟩, h⟩
  have hout := denoteWords_zipWith step hdenx hdeny hdata
  rw [zipElements_eq_some has hbs hlen hzs]
  exact ⟨by rw [hout.length_eq, hlenout], hout⟩

section Arith

variable {fn : ScalarFn} {op : SizeOp} {v w out : Value}

theorem describes_scalars (hdrops : SizeExpr.SoundDrops σ.valuation drops) (hop : fn.sizeOp? = some op)
    {x y : SizeExpr} (hx : (TensorFacts.scalar x).Describes σ v) (hy : (TensorFacts.scalar y).Describes σ w)
    (hints : ∀ x y, v = .ints x → w = .ints y → ∃ t, out = .ints t ∧ x.zipBroadcast fn.checkedInt y = .ok t) :
    (TensorFacts.scalar (op.apply drops x y)).Describes σ out := by
  obtain ⟨u, rfl, hu, hxu⟩ := hx
  obtain ⟨u', rfl, hu', hyu⟩ := hy
  obtain ⟨t, rfl, ht⟩ := hints u u' rfl rfl
  obtain ⟨hbroadcast, hdata⟩ := Tensor.zipBroadcast_eq_ok ht
  have htshape : t.shape = [] := by
    rw [hu, hu'] at hbroadcast
    exact (Option.some.inj hbroadcast).symm
  rw [htshape, Tensor.spread_scalar hu, Tensor.spread_scalar hu'] at hdata
  refine ⟨t, rfl, htshape, ?_⟩
  exact denoteWords_zipWith (fun _ _ _ _ _ ha hb hz => denotes_apply hdrops hop ha hb hz) hxu hyu hdata

/-- Tracked elements, not both of scalars, are combined to those of a vector. -/
theorem describes_zipElements (hdrops : SizeExpr.SoundDrops σ.valuation drops) (hop : fn.sizeOp? = some op)
    {a b : TensorFacts} {xs ys zs : List SizeExpr} (ha : a.Describes σ v) (hb : b.Describes σ w)
    (hxs : a.values? = some xs) (hys : b.values? = some ys)
    (hnot : ∀ x y, a.asScalar? = some x → b.asScalar? = some y → False) (hfitv : Shape.Fits v.shape)
    (hfitw : Shape.Fits w.shape) (hzs : ShapeRule.zipElements (op.apply drops) xs ys = some zs)
    (hints : ∀ x y, v = .ints x → w = .ints y → ∃ t, out = .ints t ∧ x.zipBroadcast fn.checkedInt y = .ok t) :
    (TensorFacts.vector zs).Describes σ out := by
  have hvector : v.shape ≠ [] ∨ w.shape ≠ [] := by
    rcases TensorFacts.values?_eq_some hxs with ⟨x, rfl, -⟩ | rfl
    · rcases TensorFacts.values?_eq_some hys with ⟨y, rfl, -⟩ | rfl
      · exact (hnot x y rfl rfl).elim
      · obtain ⟨u', rfl, hshape, -⟩ := hb
        exact .inr (by simp [Value.shape, hshape])
    · obtain ⟨u, rfl, hshape, -⟩ := ha
      exact .inl (by simp [Value.shape, hshape])
  obtain ⟨u, rfl, hu, hxu⟩ := ha.elements hxs
  obtain ⟨u', rfl, hu', hyu⟩ := hb.elements hys
  obtain ⟨t, rfl, ht⟩ := hints u u' rfl rfl
  obtain ⟨htshape, hzt⟩ := denoteWords_zipElements
    (fun _ _ _ _ _ ha hb hz => denotes_apply hdrops hop ha hb hz) hxu hyu hu hu' hfitv hfitw hvector hzs ht
  exact ⟨t, rfl, htshape, hzt⟩

theorem describes_arith (hdrops : SizeExpr.SoundDrops σ.valuation drops) (hop : fn.sizeOp? = some op)
    {a b : TensorFacts} {outs : List TensorFacts} (h : Draws (ShapeRule.arithBy drops op [a, b]) s outs s')
    (ha : a.Describes σ v) (hb : b.Describes σ w) (hfitv : Shape.Fits v.shape) (hfitw : Shape.Fits w.shape)
    (hshape : Shape.broadcast? v.shape w.shape = some out.shape)
    (hints : ∀ x y, v = .ints x → w = .ints y → ∃ t, out = .ints t ∧ x.zipBroadcast fn.checkedInt y = .ok t) :
    FirstDescribes σ outs out := by
  rw [ShapeRule.arithBy] at h
  split at h
  · next x y hx hy =>
    obtain rfl : a = .scalar x := by cases a <;> simp_all [TensorFacts.asScalar?]
    obtain rfl : b = .scalar y := by cases b <;> simp_all [TensorFacts.asScalar?]
    obtain ⟨rfl, -⟩ := draws_pure.1 h
    exact firstDescribes_cons.2 (describes_scalars hdrops hop ha hb hints)
  · next hnot =>
    split at h
    · next xs ys hxs hys =>
      split at h
      · next zs hzs =>
        obtain ⟨rfl, -⟩ := draws_pure.1 h
        exact firstDescribes_cons.2 (describes_zipElements hdrops hop ha hb hxs hys hnot hfitv hfitw hzs hints)
      · exact absurd h draws_throw
    · exact describes_broadcastPair h ha hb hfitv hfitw hshape

end Arith

end TensorGraph
