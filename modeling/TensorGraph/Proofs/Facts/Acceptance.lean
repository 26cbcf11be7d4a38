import TensorGraph.Proofs.Facts.Operators
import TensorGraph.Proofs.Facts.Targets

/-!
# What rules accept

A shape rule checks symbolically what the operator checks at run time. If an operator returns a result for values
that the facts match, zero sizes included, its rule returns facts too (`Operator.succeeds_outputFacts`), so an
error of a rule means that the operator fails (`Operator.fails_of_rejected`). The rules are stricter than the
operators in three places, which `Operator.ChecksAgree` excludes.
-/

namespace TensorGraph

variable {σ : Assignment} {t u : TensorFacts} {v w : Value}

/-- Whether facts match values one by one. -/
def MatchesAll (σ : Assignment) : List TensorFacts → List Value → Prop :=
  List.Forall₂ fun t v => t.Matches σ v

/-! ## Equal and broadcast shapes -/

theorem succeeds_sameAsFirst (t : TensorFacts) (ts : List TensorFacts) : Succeeds (ShapeRule.sameAsFirst (t :: ts)) := by
  rw [ShapeRule.sameAsFirst]
  split
  · exact succeeds_pure _
  · exact succeeds_pure _

theorem succeeds_broadcastPair {shape : List Nat} (ht : t.Matches σ v) (hu : u.Matches σ w)
    (h : Shape.broadcast? v.shape w.shape = some shape) : Succeeds (ShapeRule.broadcastPair [t, u]) := by
  rw [ShapeRule.broadcastPair]
  split
  · next as bs has hbs =>
    obtain ⟨cs, hcs, -⟩ := ShapeRule.exists_broadcastDims (ht.sizes has) (hu.sizes hbs) h
    exact succeeds_lift_bind hcs (succeeds_pure _)
  · exact succeeds_pure _

theorem succeeds_broadcastAll_go {ts : List TensorFacts} {vs : List Value} {acc : List SizeExpr}
    {shape out : List Nat} (hacc : HasSizes σ acc shape) (hts : MatchesAll σ ts vs)
    (h : (vs.map Value.shape).foldlM Shape.broadcast? shape = some out) :
    Succeeds (ShapeRule.broadcastAll.go acc ts) := by
  induction hts generalizing acc shape with
  | nil => exact succeeds_pure _
  | @cons t v ts vs ht _ ih =>
    rw [List.map_cons, List.foldlM_cons, Option.bind_eq_bind, Option.bind_eq_some_iff] at h
    obtain ⟨next, hnext, h⟩ := h
    rw [ShapeRule.broadcastAll.go]
    split
    · next dims hdims =>
      obtain ⟨cs, hcs, hsizes⟩ := ShapeRule.exists_broadcastDims hacc (ht.sizes hdims) hnext
      exact succeeds_lift_bind hcs (ih hsizes h)
    · exact succeeds_pure _

/-! ## Arithmetic -/

/-- Tracked elements can be combined if the shapes can be broadcast. -/
theorem zipElements_isSome {xs ys : List SizeExpr} {shape : List Nat} (f : SizeExpr → SizeExpr → SizeExpr)
    (ht : t.Matches σ v) (hu : u.Matches σ w) (hxs : t.values? = some xs) (hys : u.values? = some ys)
    (h : Shape.broadcast? v.shape w.shape = some shape) : (ShapeRule.zipElements f xs ys).isSome := by
  have hlen : xs.length = ys.length ∨ xs.length = 1 ∨ ys.length = 1 := by
    rcases ht.shape_of_values hxs with ⟨-, hone⟩ | ⟨hv, -⟩
    · exact .inr (.inl hone)
    · rcases hu.shape_of_values hys with ⟨-, hone⟩ | ⟨hw, -⟩
      · exact .inr (.inr hone)
      · rw [hv, hw, Shape.broadcast?_eq_some] at h
        simp only [List.length_singleton, Nat.max_self, Shape.padTo, Nat.sub_self, List.replicate_zero,
          List.nil_append, List.zipWith_cons_cons] at h
        cases shape with
        | nil => cases h
        | cons n shape =>
          have := broadcastSize?_cases (List.cons.inj h).1
          omega
  unfold ShapeRule.zipElements
  split
  · rfl
  · next hne =>
    split
    · rfl
    · rfl
    · next hx hy =>
      rcases hlen with hlen | hlen | hlen
      · exact absurd hlen hne
      · obtain ⟨x, rfl⟩ := List.length_eq_one_iff.1 hlen
        exact absurd rfl (hx x)
      · obtain ⟨y, rfl⟩ := List.length_eq_one_iff.1 hlen
        exact absurd rfl (hy y)

theorem succeeds_arith (drops : DropTest) (op : SizeOp) {shape : List Nat} (ht : t.Matches σ v) (hu : u.Matches σ w)
    (h : Shape.broadcast? v.shape w.shape = some shape) : Succeeds (ShapeRule.arithBy drops op [t, u]) := by
  rw [ShapeRule.arithBy]
  split
  · exact succeeds_pure _
  · split
    · next xs ys hxs hys =>
      obtain ⟨zs, hzs⟩ := Option.isSome_iff_exists.1 (zipElements_isSome (op.apply drops) ht hu hxs hys h)
      rw [hzs]
      exact succeeds_pure _
    · exact succeeds_broadcastPair ht hu h

theorem succeeds_negation (drops : DropTest) (t : TensorFacts) : Succeeds (ShapeRule.negationBy drops [t]) := by
  cases t with
  | scalar x => exact succeeds_pure _
  | vector xs => exact succeeds_pure _
  | shape dims => exact succeeds_sameAsFirst (.shape dims) []
  | unknown note => exact succeeds_sameAsFirst (.unknown note) []

theorem succeeds_unary (drops : DropTest) {fn : ScalarFn} (harity : fn.arity = 1) (t : TensorFacts) :
    Succeeds (fn.shapeRuleBy drops [t]) := by
  rw [ScalarFn.shapeRuleBy]
  split
  · exact succeeds_negation drops t
  · exact succeeds_sameAsFirst t []

theorem succeeds_binary (drops : DropTest) {fn : ScalarFn} {out : Value} (harity : fn.arity = 2) (ht : t.Matches σ v)
    (hu : u.Matches σ w) (hrun : Elementwise.runBinary fn v w = .ok out) : Succeeds (fn.shapeRuleBy drops [t, u]) := by
  have hshape := (Elementwise.runBinary_eq_ok hrun).1
  rw [ScalarFn.shapeRuleBy_binary harity]
  cases fn.sizeOp? with
  | some op => exact succeeds_arith drops op ht hu hshape
  | none => exact succeeds_broadcastPair ht hu hshape

theorem succeeds_fused {op : FusedElementwise} {ts : List TensorFacts} {xs : List (Tensor Single)} {shape : List Nat}
    (hts : MatchesAll σ ts (xs.map .floats)) (hlen : xs.length = op.numInputs) (hinputs : op.numInputs ≠ 0)
    (hshape : Shape.broadcastAll? (xs.map (·.shape)) = some shape) : Succeeds (op.shapeRule ts) := by
  have hcount : ts.length = op.numInputs := by
    rw [hts.length_eq, List.length_map, hlen]
  unfold FusedElementwise.shapeRule
  rw [if_neg (not_not_intro hcount)]
  cases ts with
  | nil => exact absurd hcount.symm hinputs
  | cons t ts =>
    have hscalar : HasSizes σ [] [] := .nil
    have hfold : ((xs.map Value.floats).map Value.shape).foldlM Shape.broadcast? [] = some shape := by
      rw [List.map_map]
      exact hshape
    exact succeeds_broadcastAll_go hscalar hts hfold

/-! ## Matrix products -/

theorem succeeds_matMul {z : MatMul.Sizes} (ht : t.Matches σ v) (hu : u.Matches σ w)
    (hsizes : z.Fit v.shape w.shape) : Succeeds (ShapeRule.matMul [t, u]) := by
  cases has : t.dims? with
  | none =>
    simp only [ShapeRule.matMul, has]
    exact succeeds_pure _
  | some as =>
    cases hbs : u.dims? with
    | none =>
      simp only [ShapeRule.matMul, has, hbs]
      exact succeeds_pure _
    | some bs =>
      obtain ⟨aBatch, m, ka, rfl, habatch, -, hka⟩ := exists_rows_columns (hsizes.left ▸ ht.sizes has)
      obtain ⟨bBatch, kb, n, rfl, hbbatch, hkb, -⟩ := exists_rows_columns (hsizes.right ▸ hu.sizes hbs)
      obtain ⟨cs, hcs, -⟩ := ShapeRule.exists_broadcastDims habatch hbbatch hsizes.batch
      have hjoin : Succeeds (do
          let batch ← liftM (ShapeRule.broadcastDims aBatch bBatch)
          pure [TensorFacts.shape (batch ++ [m, n])] : RuleM (List TensorFacts)) :=
        succeeds_lift_bind hcs (succeeds_pure _)
      rw [ShapeRule.matMul_eq has hbs]
      dsimp only
      split
      · next x y hxy =>
        -- Both constants are the number of columns on the left.
        obtain ⟨hx, hy⟩ := Prod.mk.inj hxy
        have hsame : x = y := by
          rw [← Int32.toInt_inj, ← SizeExpr.eq_of_asValue? hka hx, ← SizeExpr.eq_of_asValue? hkb hy]
        rw [if_neg (not_not_intro hsame)]
        exact hjoin
      · exact hjoin

/-! ## Reductions -/

theorem ruleAxis_of_resolveAxis {rank i : Nat} {axis : Int} (h : resolveAxis rank axis = .ok i) :
    ShapeRule.resolveAxis rank axis = .ok i := by
  unfold resolveAxis at h
  dsimp only at h
  unfold ShapeRule.resolveAxis
  by_cases hneg : axis < 0
  · rw [if_pos hneg] at h
    rw [if_pos hneg]
    split at h
    · cases h
    · next hrange =>
      cases h
      rw [if_neg (by omega)]
  · rw [if_neg hneg] at h
    rw [if_neg hneg]
    split at h
    · cases h
    · next hrange =>
      cases h
      rw [if_neg (by omega)]

/-- The rule resolves axes as the operator does, unless two of them name one dimension. -/
theorem foldlM_ruleAxis {rank : Nat} {axes : List Int} {found rest : List Nat}
    (h : axes.mapM (resolveAxis rank) = .ok rest) (hfound : found.Nodup) :
    axes.foldlM (fun found axis => do
      let i ← ShapeRule.resolveAxis rank axis
      if found.contains i then .error .invalidValue else pure (found ++ [i])) found =
        if (found ++ rest).Nodup then .ok (found ++ rest) else .error .invalidValue := by
  induction axes generalizing found rest with
  | nil =>
    obtain rfl : rest = [] := (Except.ok.inj h).symm
    rw [List.append_nil, if_pos hfound]
    rfl
  | cons axis axes ih =>
    rw [List.mapM_cons] at h
    obtain ⟨i, hi, h⟩ := bind_eq_ok.1 h
    obtain ⟨rest', hrest, h⟩ := bind_eq_ok.1 h
    cases h
    have hsplit : found ++ i :: rest' = (found ++ [i]) ++ rest' := List.append_cons found i rest'
    rw [List.foldlM_cons, ruleAxis_of_resolveAxis hi]
    change (if found.contains i = true then _ else _ : Except ShapeRuleError (List Nat)).bind _ = _
    by_cases hmem : i ∈ found
    · -- The fold stops at the first dimension that was found before.
      have hrepeated : ¬(found ++ i :: rest').Nodup := fun hnodup =>
        (List.nodup_append.1 hnodup).2.2 i hmem i List.mem_cons_self rfl
      rw [if_pos (List.contains_iff_mem.2 hmem), if_neg hrepeated]
      rfl
    · have hnext : (found ++ [i]).Nodup := List.nodup_append.2
        ⟨hfound, List.nodup_singleton i, fun j hj k hk => by rintro rfl; exact hmem (List.mem_singleton.1 hk ▸ hj)⟩
      rw [if_neg (mt List.contains_iff_mem.1 hmem), hsplit]
      exact ih hrest hnext

theorem resolveAxes_eq {rank : Nat} {axes : List Int} {reduced : List Nat}
    (h : axes.mapM (resolveAxis rank) = .ok reduced) : ShapeRule.resolveAxes rank axes =
      if reduced.Nodup then .ok reduced else .error .invalidValue := by
  unfold ShapeRule.resolveAxes
  exact foldlM_ruleAxis h List.nodup_nil

/-- Whether the axes, which have to be in range for that, name different dimensions. -/
def DistinctAxes (rank : Nat) (axes : List Int) : Prop :=
  ∀ reduced, axes.mapM (resolveAxis rank) = .ok reduced → reduced.Nodup

theorem succeeds_reduction {op : Reduce} {p : Reduce.Plan} (ht : t.Matches σ v) (hplan : op.plan v.shape = .ok p)
    (haxes : t.dims?.isSome → ∀ axes, op.axes = some axes → DistinctAxes v.rank axes) :
    Succeeds (ShapeRule.reduction op.axes op.keepDims [t]) := by
  rw [ShapeRule.reduction]
  split
  · exact succeeds_pure _
  · next dims hdims =>
    unfold Reduce.plan at hplan
    cases hop : op.axes with
    | none => exact succeeds_bind (succeeds_pure _) fun _ => succeeds_pure _
    | some axes =>
      rw [hop] at hplan
      obtain ⟨reduced, hreduced, -⟩ := bind_eq_ok.1 hplan
      have hnodup := haxes (by rw [hdims]; rfl) axes hop reduced hreduced
      rw [(ht.sizes hdims).length_eq]
      exact succeeds_lift_bind ((resolveAxes_eq hreduced).trans (if_pos hnodup)) (succeeds_pure _)

/-- The operator reduces a dimension once that its axes name twice, but the rule rejects the axes. -/
theorem reduction_repeated {op : Reduce} {dims : List SizeExpr} {axes : List Int} {reduced : List Nat}
    (ht : t.Matches σ v) (hdims : t.dims? = some dims) (haxes : op.axes = some axes)
    (hreduced : axes.mapM (resolveAxis v.rank) = .ok reduced) (hrepeated : ¬reduced.Nodup) (s : SymbolSupply) :
    (∃ p, op.plan v.shape = .ok p) ∧
      ((ShapeRule.reduction op.axes op.keepDims [t]).run.run s).1 = .error .invalidValue := by
  have hrank : dims.length = v.rank := (ht.sizes hdims).length_eq
  constructor
  · unfold Reduce.plan
    rw [haxes]
    exact ⟨_, bind_eq_ok.2 ⟨reduced, hreduced, rfl⟩⟩
  · rw [ShapeRule.reduction, hdims, haxes]
    dsimp only
    rw [hrank, resolveAxes_eq hreduced, if_neg hrepeated]
    rfl

/-! ## Transposition and concatenation -/

theorem succeeds_transpose {perm? : Option (List Nat)} {perm : List Nat} (ht : t.Matches σ v)
    (hperm : Layout.resolvePermutation perm? v.rank = .ok perm) : Succeeds (ShapeRule.transpose perm? [t]) := by
  cases hdims : t.dims? with
  | some dims =>
    have hrank : dims.length = v.rank := (ht.sizes hdims).length_eq
    rw [ShapeRule.transpose_known hdims (hrank ▸ hperm)]
    exact succeeds_pure _
  | none =>
    cases perm? with
    | none =>
      simp only [ShapeRule.transpose, hdims]
      exact succeeds_pure _
    | some axes =>
      simp only [ShapeRule.transpose, hdims]
      exact succeeds_bind (succeeds_freshSizes _) fun _ => succeeds_pure _

/-- Whether the expressions have the sizes as values, except for dimension `i`. -/
structure HasSizesOff (σ : Assignment) (i : Nat) (es : List SizeExpr) (shape : List Nat) : Prop where
  length : es.length = shape.length
  sizes : ∀ j e n, j ≠ i → es[j]? = some e → shape[j]? = some n → e.exactValue? σ = some (n : Int)

theorem HasSizes.off {es : List SizeExpr} {shape base : List Nat} (h : HasSizes σ es shape) {i k : Nat}
    (hshape : shape = base.set i k) : HasSizesOff σ i es base := by
  subst hshape
  refine ⟨by simpa using h.length_eq, fun j e n hj he hn => ?_⟩
  obtain ⟨hlt, rfl⟩ := List.getElem?_eq_some_iff.1 he
  obtain ⟨hlt', rfl⟩ := List.getElem?_eq_some_iff.1 hn
  have hget := List.Forall₂.get h hlt (by simpa using hlt')
  simpa only [List.get_eq_getElem, List.getElem_set_ne (Ne.symm hj)] using hget

theorem exists_appendDims (drops : DropTest) {i : Nat} {acc dims : List SizeExpr} {base : List Nat}
    (hacc : HasSizesOff σ i acc base) (hdims : HasSizesOff σ i dims base) :
    ∃ es, ShapeRule.appendDims drops i acc dims = .ok es ∧ HasSizesOff σ i es base := by
  unfold ShapeRule.appendDims
  rw [if_neg (not_not_intro (hdims.length.trans hacc.length.symm))]
  -- Off the axis the sizes are the same, so that no entry is rejected and that of `acc` is kept.
  have hentry : ∀ p ∈ (acc.zip dims).zipIdx, ∃ e, (if p.2 = i then .ok ((SizeExpr.add p.1.1 p.1.2).simplifyBy drops)
      else if ShapeRule.knownDifferent p.1.1 p.1.2 then .error .incompatibleShapes else .ok p.1.1 :
        Except ShapeRuleError SizeExpr) = .ok e ∧ (p.2 ≠ i → e = p.1.1) := by
    rintro ⟨⟨a, d⟩, j⟩ hmem
    obtain ⟨ha, hd⟩ := List.getElem?_zip_eq_some.1 (List.mk_mem_zipIdx_iff_getElem?.1 hmem)
    by_cases hj : j = i
    · exact ⟨_, if_pos hj, fun hne => absurd hj hne⟩
    · have hlt : j < base.length := hacc.length ▸ (List.getElem?_eq_some_iff.1 ha).1
      have hbase := List.getElem?_eq_getElem hlt
      have hsame := ShapeRule.knownDifferent_eq_false (hacc.sizes j a _ hj ha hbase) (hdims.sizes j d _ hj hd hbase)
      exact ⟨a, by simp only [if_neg hj, hsame]; rfl, fun _ => rfl⟩
  obtain ⟨es, hes, hall⟩ := exists_mapM hentry
  refine ⟨es, hes, ⟨?_, fun j e n hj he hn => ?_⟩⟩
  · rw [← hall.length_eq, List.length_zipIdx, List.length_zip, hdims.length, hacc.length, Nat.min_self]
  · have hlt : j < es.length := (List.getElem?_eq_some_iff.1 he).1
    have hlt' : j < (acc.zip dims).zipIdx.length := hall.length_eq ▸ hlt
    have hget := List.Forall₂.get hall hlt' hlt
    simp only [List.get_eq_getElem, List.getElem_zipIdx, List.getElem_zip, Nat.zero_add] at hget
    rw [List.getElem?_eq_getElem hlt, hget hj] at he
    exact hacc.sizes j e n hj (by rw [← he]; exact List.getElem?_eq_getElem _) hn

theorem hasSizesOff_modify {i : Nat} {acc : List SizeExpr} {base : List Nat} (h : HasSizesOff σ i acc base)
    (f : SizeExpr → SizeExpr) : HasSizesOff σ i (acc.modify i f) base := by
  refine ⟨by simpa using h.length, fun j e n hj he hn => h.sizes j e n hj ?_ hn⟩
  simpa [List.getElem?_modify, Ne.symm hj] using he

theorem exists_appendFacts (drops : DropTest) {i k : Nat} {acc : List SizeExpr} {base : List Nat}
    (hacc : HasSizesOff σ i acc base) (ht : t.Matches σ v) (hv : v.shape = base.set i k) (s : SymbolSupply) :
    ∃ es s', Draws (ShapeRule.appendFacts drops i acc t) s es s' ∧ HasSizesOff σ i es base := by
  rw [ShapeRule.appendFacts]
  split
  · next dims hdims =>
    obtain ⟨es, hes, hoff⟩ := exists_appendDims drops hacc ((ht.sizes hdims).off hv)
    exact ⟨es, s, draws_lift.2 ⟨hes, rfl⟩, hoff⟩
  · obtain ⟨extra, s', hextra⟩ := succeeds_freshSize s
    exact ⟨_, s', draws_bind.2 ⟨extra, s', hextra, draws_pure.2 ⟨rfl, rfl⟩⟩, hasSizesOff_modify hacc _⟩

theorem succeeds_appendFacts (drops : DropTest) {i : Nat} {ts : List TensorFacts} {vs : List Value}
    {acc : List SizeExpr} {base : List Nat} (hacc : HasSizesOff σ i acc base) (hts : MatchesAll σ ts vs)
    (hsame : ∀ v ∈ vs, ∃ k, v.shape = base.set i k) :
    Succeeds (ts.foldlM (ShapeRule.appendFacts drops i) acc) := by
  induction hts generalizing acc with
  | nil => exact succeeds_pure _
  | @cons t v ts vs ht _ ih =>
    obtain ⟨⟨k, hv⟩, hsame⟩ := List.forall_mem_cons.1 hsame
    rw [List.foldlM_cons]
    exact succeeds_bind_of (exists_appendFacts drops hacc ht hv) fun es hes => ih hes hsame

theorem succeeds_concat (drops : DropTest) {axis : Int} {ts : List TensorFacts} {vs : List Value} {i : Nat}
    (ht : t.Matches σ v) (hts : MatchesAll σ ts vs) (haxis : resolveAxis v.rank axis = .ok i)
    (hsame : ∀ w ∈ v :: vs, ∃ k, w.shape = v.shape.set i k) :
    Succeeds (ShapeRule.concatBy drops axis (t :: ts)) := by
  obtain ⟨⟨k, hv⟩, hrest⟩ := List.forall_mem_cons.1 hsame
  unfold ShapeRule.concatBy
  dsimp only
  split
  · exact succeeds_pure _
  · next dims hdims =>
    have hsizes := ht.sizes hdims
    have hrank : ShapeRule.resolveAxis dims.length axis = .ok i := by
      rw [hsizes.length_eq]
      exact ruleAxis_of_resolveAxis haxis
    refine succeeds_lift_bind hrank ?_
    split
    · exact succeeds_pure _
    · exact succeeds_bind (succeeds_appendFacts drops (hsizes.off hv) hts hrest) fun _ => succeeds_pure _

/-! ## Shapes as values -/

theorem succeeds_shapeOf (t : TensorFacts) : Succeeds (ShapeRule.shapeOf [t]) := by
  unfold ShapeRule.shapeOf
  dsimp only
  split
  · exact succeeds_pure _
  · exact succeeds_bind succeeds_freshSize fun _ => succeeds_pure _

theorem succeeds_sizeOf {index n : Nat} (ht : t.Matches σ v) (hn : v.shape[index]? = some n) :
    Succeeds (ShapeRule.sizeOf index [t]) := by
  unfold ShapeRule.sizeOf
  dsimp only
  split
  · next dims hdims =>
    have hlt : index < dims.length := (ht.sizes hdims).length_eq ▸ (List.getElem?_eq_some_iff.1 hn).1
    rw [List.getElem?_eq_getElem hlt]
    exact succeeds_pure _
  · exact succeeds_bind succeeds_freshSize fun _ => succeeds_pure _

theorem exists_specifyDims {dims : List SizeExpr} {shape : List Nat} {spec : List (Option Nat)}
    (h : HasSizes σ dims shape) (hspec : MatchesSpec shape spec) :
    ∃ sizes, (dims.zip spec).mapM (fun p => ShapeRule.specifyDim p.1 p.2) = .ok sizes := by
  induction h generalizing spec with
  | nil => exact ⟨[], rfl⟩
  | @cons d n dims shape hd _ ih =>
    obtain ⟨req, spec, hreq, hrest, rfl⟩ := List.forall₂_cons_left_iff.1 hspec
    obtain ⟨sizes, hsizes⟩ := ih hrest
    obtain ⟨size, hsize⟩ : ∃ size, ShapeRule.specifyDim d req = .ok size := by
      unfold ShapeRule.specifyDim
      split
      · next c k hc =>
        have hword : c = Word.ofCount k := by
          rw [hreq k rfl, Word.ofCount, SizeExpr.eq_of_asValue? hd hc, Int32.ofInt_toInt]
        exact ⟨d, if_pos hword⟩
      · exact ⟨_, rfl⟩
      · exact ⟨_, rfl⟩
    exact ⟨size :: sizes, by rw [List.zip_cons_cons, List.mapM_cons, hsize, hsizes]; rfl⟩

theorem succeeds_specifyShape {spec : List (Option Nat)} (ht : t.Matches σ v)
    (hspec : ShapeAccess.specMatches spec v.shape = true) : Succeeds (ShapeRule.specifyShape spec [t]) := by
  have hmatches := matchesSpec_of_specMatches hspec
  unfold ShapeRule.specifyShape
  dsimp only
  split
  · refine succeeds_bind (succeeds_mapM fun req _ => ?_) fun _ => succeeds_pure _
    cases req with
    | some size => exact succeeds_pure _
    | none => exact succeeds_freshSize
  · next dims hdims =>
    have hsizes := ht.sizes hdims
    rw [if_neg (not_not_intro (hsizes.length_eq.trans hmatches.length_eq))]
    obtain ⟨sizes, hfound⟩ := exists_specifyDims hsizes hmatches
    exact succeeds_bind (fun s => ⟨sizes, s, draws_mapM_lift.2 ⟨hfound, rfl⟩⟩) fun _ => succeeds_pure _

theorem nonneg_of_toCount? {ws : List Int32} {shape : List Nat} (h : ws.map Word.toCount? = shape.map some) :
    ∀ w ∈ ws, 0 ≤ w.toInt := by
  intro w hw
  have hmem : Word.toCount? w ∈ shape.map some := h ▸ List.mem_map_of_mem hw
  obtain ⟨n, -, hn⟩ := List.mem_map.1 hmem
  unfold Word.toCount? at hn
  split at hn
  · assumption
  · cases hn

theorem succeeds_fill {ws : Tensor Int32} (ht : t.Matches σ (.ints ws)) (hrank : ws.shape.length = 1)
    (hws : ∀ w ∈ ws.data.toList, 0 ≤ w.toInt) : Succeeds (ShapeRule.fill [t]) := by
  have hknown : ¬t.rank?.any (· ≠ 1) = true := by
    cases hr : t.rank? with
    | none => simp
    | some n =>
      have hn := ht.rank_eq hr
      rw [Value.rank, Value.shape, hrank] at hn
      simp [← hn]
  rw [ShapeRule.fill, if_neg hknown]
  split
  · next values hvalues =>
    obtain ⟨u, hu, hwords⟩ := ht.words hvalues
    cases hu
    have hnonneg : ¬(values.any fun e => e.asValue?.any (· < 0)) = true := by
      rw [Bool.not_eq_true, List.any_eq_false]
      intro e he
      obtain ⟨j, hj⟩ := List.getElem?_of_mem he
      cases hc : e.asValue? with
      | none => simp
      | some c =>
        have hword := hws c (List.mem_of_getElem? (hwords.getElem?_eq (i := j) (by rw [hj]; exact hc)))
        have hzero : (0 : Int32).toInt = 0 := rfl
        simp only [Option.any_some, decide_eq_true_eq, Int32.lt_iff_toInt_lt, hzero]
        omega
    rw [if_neg hnonneg]
    exact succeeds_pure _
  · split
    · exact succeeds_bind (succeeds_freshSizes _) fun _ => succeeds_pure _
    · exact succeeds_pure _

/-! ## Operators -/

namespace Operator

/-- Where the checks of a rule agree with those of the operator: a fused operator has inputs, a reduction does not
name a dimension twice, and of a target shape whose count of elements is constant every entry -1 is constant and the
counts are kept by simplification. -/
def ChecksAgree (σ : Assignment) : Operator → List TensorFacts → List Value → Prop
  | .fused op, _, _ => op.numInputs ≠ 0
  | .reduce op, [t], [v] => t.dims?.isSome → ∀ axes, op.axes = some axes → DistinctAxes v.rank axes
  | .reshape, [data, target], [_, .ints ws] => ∀ dims es, data.dims? = some dims → target.values? = some es →
    CountsKept σ dims es ∧
      ((ShapeRule.countOf boundsDominate es).asValue?.isSome → KnownInferred es ws.data.toList)
  | _, _, _ => True

/-- The rule of a built-in operator returns facts if the operator returns a value. -/
theorem Returns.succeeds_rule {op : Operator} {ts : List TensorFacts} {vs : List Value} {out : Value}
    (h : op.Returns vs out) (hts : MatchesAll σ ts vs) (hagree : op.ChecksAgree σ ts vs) :
    ∃ rule, op.shapeRuleBy? boundsDominate = some rule ∧ Succeeds (rule ts) := by
  have hone {w : Value} (hw : MatchesAll σ ts [w]) : ∃ t, ts = [t] ∧ t.Matches σ w := by
    obtain ⟨t, rfl⟩ := List.length_eq_one_iff.1 hw.length_eq
    exact ⟨t, rfl, (List.forall₂_cons.1 hw).1⟩
  have htwo {w w' : Value} (hw : MatchesAll σ ts [w, w']) :
      ∃ t u, ts = [t, u] ∧ t.Matches σ w ∧ u.Matches σ w' := by
    obtain ⟨t, u, rfl⟩ := List.length_eq_two.1 hw.length_eq
    obtain ⟨ht, hrest⟩ := List.forall₂_cons.1 hw
    exact ⟨t, u, rfl, ht, (List.forall₂_cons.1 hrest).1⟩
  cases h with
  | unary harity _ =>
    obtain ⟨t, rfl, -⟩ := hone hts
    exact ⟨_, rfl, succeeds_unary _ harity t⟩
  | binary harity hrun =>
    obtain ⟨t, u, rfl, ht, hu⟩ := htwo hts
    exact ⟨_, rfl, succeeds_binary _ harity ht hu hrun⟩
  | fused hlen hshape => exact ⟨_, rfl, succeeds_fused hts hlen hagree hshape⟩
  | matMul hsizes _ =>
    obtain ⟨t, u, rfl, ht, hu⟩ := htwo hts
    exact ⟨_, rfl, succeeds_matMul ht hu hsizes⟩
  | reduce hplan _ _ =>
    obtain ⟨t, rfl, ht⟩ := hone hts
    exact ⟨_, rfl, succeeds_reduction ht hplan hagree⟩
  | softmax _ =>
    obtain ⟨t, rfl, -⟩ := hone hts
    exact ⟨_, rfl, succeeds_sameAsFirst t []⟩
  | reshape _ hresolve hvolume _ _ =>
    obtain ⟨data, target, rfl, hdata, htarget⟩ := htwo hts
    refine ⟨_, rfl, ?_⟩
    cases hes : target.values? with
    | some es =>
      obtain ⟨u, hu, hwords⟩ := htarget.words hes
      cases hu
      exact succeeds_reshape hes <| succeeds_resolveTarget hwords hresolve hvolume
        fun dims hdims => ⟨hdata.sizes hdims, hagree dims es hdims hes⟩
    | none =>
      rw [ShapeRule.reshapeBy, hes]
      dsimp only
      split
      · exact succeeds_bind (succeeds_freshSizes _) fun _ => succeeds_pure _
      · exact succeeds_pure _
  | transpose hperm _ _ =>
    obtain ⟨t, rfl, ht⟩ := hone hts
    exact ⟨_, rfl, succeeds_transpose ht hperm⟩
  | concat haxis hsame _ _ _ =>
    cases hts with
    | cons ht hrest => exact ⟨_, rfl, succeeds_concat _ ht hrest haxis fun w hw => ⟨_, hsame w hw⟩⟩
  | @cast type _ _ _ _ _ =>
    obtain ⟨t, rfl, -⟩ := hone hts
    cases type with
    | float32 => exact ⟨_, rfl, succeeds_sameAsFirst t []⟩
    | int32 => exact ⟨_, rfl, succeeds_pure [t]⟩
  | identity v =>
    obtain ⟨t, rfl, -⟩ := hone hts
    exact ⟨_, rfl, succeeds_pure [t]⟩
  | shape _ =>
    obtain ⟨t, rfl, -⟩ := hone hts
    exact ⟨_, rfl, succeeds_shapeOf t⟩
  | size hn _ =>
    obtain ⟨t, rfl, ht⟩ := hone hts
    exact ⟨_, rfl, succeeds_sizeOf ht hn⟩
  | specifyShape hspec =>
    obtain ⟨t, rfl, ht⟩ := hone hts
    exact ⟨_, rfl, succeeds_specifyShape ht hspec⟩
  | fill hrank hshape =>
    obtain ⟨t, rfl, ht⟩ := hone hts
    exact ⟨_, rfl, succeeds_fill ht hrank (nonneg_of_toCount? hshape)⟩
  | assertAll v vs =>
    cases hts with
    | cons ht hrest => exact ⟨_, rfl, succeeds_pure _⟩

theorem succeeds_outputFacts {op : Operator} {ts : List TensorFacts} {vs outs : List Value} (hbuiltin : op.IsBuiltin)
    (htakes : op.Takes vs.length) (hts : MatchesAll σ ts vs) (hagree : op.ChecksAgree σ ts vs)
    (hrun : op.run vs = .ok outs) : Succeeds (op.outputFacts ts) := by
  obtain ⟨out, -, hreturns⟩ := returns_of_run hbuiltin htakes hrun
  obtain ⟨rule, hrule, hsucceeds⟩ := hreturns.succeeds_rule hts hagree
  unfold outputFacts outputFactsBy
  rw [hrule]
  exact succeeds_bind hsucceeds fun _ => succeeds_pure _

/-- If the rule of a built-in operator, given as many facts as the operator takes inputs, returns an error, the
operator fails on all values that the facts match. -/
theorem fails_of_rejected {op : Operator} {ts : List TensorFacts} {vs : List Value} (hbuiltin : op.IsBuiltin)
    (htakes : op.Takes ts.length) (hts : MatchesAll σ ts vs) (hagree : op.ChecksAgree σ ts vs) {s : SymbolSupply}
    {e : ShapeRuleError} (hrejected : ((op.outputFacts ts).run.run s).1 = .error e) :
    ∃ error, op.run vs = .error error := by
  cases hrun : op.run vs with
  | error error => exact ⟨error, rfl⟩
  | ok outs =>
    obtain ⟨found, s', hdraws⟩ := succeeds_outputFacts hbuiltin (hts.length_eq ▸ htakes) hts hagree hrun s
    rw [hdraws] at hrejected
    cases hrejected

/-- Six elements do not fill columns of four. -/
theorem fails_of_rejected_columns : ∃ error, Operator.reshape.run
    [.floats (.full [2, 3] .zero), .ints (.vector #[-1, 4])] = .error error := by
  have hdata : TensorFacts.Matches (fun _ => 0) (.shape [.value 2, .value 3]) (.floats (.full [2, 3] .zero)) :=
    TensorFacts.matches_shape (.cons rfl (.cons rfl .nil))
  have htarget : TensorFacts.Matches (fun _ => 0) (.vector [.value (-1), .value 4]) (.ints (.vector #[-1, 4])) :=
    TensorFacts.matches_vector rfl rfl
  have hinferred : ShapeRule.inferredAt [.value (-1), .value 4] = [0] := by decide
  have hrejected : ((Operator.reshape.outputFacts [.shape [.value 2, .value 3],
      .vector [.value (-1), .value 4]]).run.run {}).1 = .error .incompatibleShapes := by decide +kernel
  have htakes : Operator.reshape.Takes ([.shape [.value 2, .value 3], .vector [.value (-1), .value 4]] :
      List TensorFacts).length := fun m hm => Option.some.inj hm
  refine fails_of_rejected trivial htakes (.cons hdata (.cons htarget .nil)) ?_ hrejected
  intro dims es hdims hes
  cases hdims
  cases hes
  refine ⟨⟨.of_eq (by decide +kernel), fun h => ?_, fun i hi => ?_⟩, fun _ i hi => ?_⟩
  · rw [hinferred] at h
    cases h
  · rw [hinferred, List.mem_singleton] at hi
    subst hi
    exact .of_eq (by decide +kernel)
  · match i with
    | 0 => rfl
    | 1 => exact absurd hi (by decide)
    | i + 2 => cases hi

end Operator

end TensorGraph
