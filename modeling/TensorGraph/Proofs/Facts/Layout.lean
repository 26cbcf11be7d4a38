import TensorGraph.Proofs.Facts.Reshaping

/-!
# Rules for reading, checking and filling shapes

The rules of the operators that read a shape as integers, check it, or make a tensor of a given shape.
-/

namespace TensorGraph

variable {σ : Assignment} {drops : DropTest} {s s' : SymbolSupply}

/-! ## Reading shapes -/

theorem toInt_of_sizeToWord {n : Nat} {w : Int32} (h : ShapeAccess.sizeToWord n = .ok w) : w.toInt = n := by
  unfold ShapeAccess.sizeToWord at h
  split at h
  · next v hv =>
    cases h
    exact Word.ofInt?_eq_some_iff.1 hv
  · cases h

theorem denoteWords_of_sizes {dims : List SizeExpr} {shape : List Nat} {ws : List Int32}
    (h : DenoteSizes σ dims shape) (hws : shape.mapM ShapeAccess.sizeToWord = .ok ws) : DenoteWords σ dims ws := by
  induction h generalizing ws with
  | nil =>
    cases hws
    exact .nil
  | cons hd _ ih =>
    rw [List.mapM_cons] at hws
    obtain ⟨w, hw, hws⟩ := bind_eq_ok.1 hws
    obtain ⟨rest, hrest, hws⟩ := bind_eq_ok.1 hws
    cases hws
    exact .cons (toInt_of_sizeToWord hw ▸ hd) (ih hrest)

theorem yields_shapeOf {t : TensorFacts} {v : Value} {ws : List Int32} (hfit : Shape.Fits v.shape)
    (hws : v.shape.mapM ShapeAccess.sizeToWord = .ok ws) :
    Yields (fun _ => ShapeRule.shapeOf [t]) fun σ _ outs =>
      t.Describes σ v → FirstDescribes σ outs (.ints (.vector ws.toArray)) := by
  cases hdims : t.dims? with
  | some dims =>
    refine yields_of_draws fun σ drops s outs s' ha ht => ?_
    simp only [ShapeRule.shapeOf, hdims] at ha
    obtain ⟨rfl, -⟩ := draws_pure.1 ha
    have hwords := denoteWords_of_sizes (ht.sizes hfit hdims) hws
    exact firstDescribes_cons.2 ⟨_, rfl, by simp [Tensor.vector, hwords.length_eq], hwords⟩
  | none =>
    have hrule : ShapeRule.shapeOf [t] = (do return [.shape [← ShapeRule.freshSize]]) := by
      simp only [ShapeRule.shapeOf, hdims]
    simp only [hrule]
    refine yields_freshSize ws.length fun σ drops e he _ => firstDescribes_cons.2 ?_
    exact .cons (by simpa [Value.shape, Tensor.vector] using he) .nil

theorem yields_sizeOf {index : Nat} {t : TensorFacts} {v : Value} {n : Nat} {w : Int32} (hfit : Shape.Fits v.shape)
    (hn : v.shape[index]? = some n) (hw : ShapeAccess.sizeToWord n = .ok w) :
    Yields (fun _ => ShapeRule.sizeOf index [t]) fun σ _ outs =>
      t.Describes σ v → FirstDescribes σ outs (.ints (.scalar w)) := by
  have hword := toInt_of_sizeToWord hw
  cases hdims : t.dims? with
  | some dims =>
    refine yields_of_draws fun σ drops s outs s' ha ht => ?_
    simp only [ShapeRule.sizeOf, hdims] at ha
    split at ha
    · next d hd =>
      obtain ⟨rfl, -⟩ := draws_pure.1 ha
      have hsize : t.size? index = some d := by simp [TensorFacts.size?, hdims, hd]
      obtain ⟨m, hm, hden⟩ := ht.size hfit hsize
      cases hn.symm.trans hm
      exact firstDescribes_cons.2 ⟨_, rfl, rfl, .cons (hword ▸ hden) .nil⟩
    · exact absurd ha draws_throw
  | none =>
    have hrule : ShapeRule.sizeOf index [t] = (do return [.scalar (← ShapeRule.freshSize)]) := by
      simp only [ShapeRule.sizeOf, hdims]
    simp only [hrule]
    refine yields_freshSize n fun σ drops e he _ => firstDescribes_cons.2 ?_
    exact ⟨_, rfl, rfl, .cons (hword ▸ he) .nil⟩

/-! ## Checking shapes -/

/-- Whether a shape has the required sizes. -/
def MatchesSpec (shape : List Nat) (spec : List (Option Nat)) : Prop :=
  List.Forall₂ (fun n s => ∀ size, s = some size → size = n) shape spec

theorem matchesSpec_of_specMatches {spec : List (Option Nat)} {shape : List Nat}
    (h : ShapeAccess.specMatches spec shape = true) : MatchesSpec shape spec := by
  simp only [ShapeAccess.specMatches, Bool.and_eq_true, beq_iff_eq, List.all_eq_true] at h
  refine List.forall₂_iff_zip.2 ⟨h.1, fun {n s} hmem size hs => ?_⟩
  have := h.2 _ hmem
  subst hs
  simpa using this.symm

theorem denoteSizes_specifyDim {dims : List SizeExpr} {shape : List Nat} {spec : List (Option Nat)}
    {sizes : List SizeExpr} (h : DenoteSizes σ dims shape) (hfit : Shape.Fits shape) (hspec : MatchesSpec shape spec)
    (hsizes : (dims.zip spec).mapM (fun p => ShapeRule.specifyDim p.1 p.2) = .ok sizes) :
    DenoteSizes σ sizes shape := by
  induction h generalizing spec sizes with
  | nil =>
    cases hsizes
    exact .nil
  | @cons d n dims shape hd _ ih =>
    obtain ⟨req, rest', hreq, hrest', rfl⟩ := List.forall₂_cons_left_iff.1 hspec
    obtain ⟨hn, hfit⟩ := List.forall_mem_cons.1 hfit
    rw [List.zip_cons_cons, List.mapM_cons] at hsizes
    obtain ⟨size, hsize, hsizes⟩ := bind_eq_ok.1 hsizes
    obtain ⟨rest, hrest, hsizes⟩ := bind_eq_ok.1 hsizes
    cases hsizes
    refine .cons ?_ (ih hfit hrest' hrest)
    unfold ShapeRule.specifyDim at hsize
    split at hsize
    · split at hsize
      · cases hsize
        exact hd
      · cases hsize
    · next _ m _ hm =>
      cases hsize
      rw [hreq m hm]
      exact SizeExpr.denotes_ofSize hn.2
    · cases hsize
      exact hd

/-- A fresh symbol stands for each size that is not required. -/
theorem yields_requiredSizes {spec : List (Option Nat)} {shape : List Nat} (hspec : MatchesSpec shape spec)
    (hfit : Shape.Fits shape) :
    Yields (fun _ => spec.mapM fun
      | some size => pure (SizeExpr.ofSize size)
      | none => ShapeRule.freshSize) fun σ _ es => DenoteSizes σ es shape := by
  intro s
  induction hspec generalizing s with
  | nil =>
    refine ⟨fun _ => 0, fun drops es s' ha σ _ => ?_⟩
    obtain ⟨rfl, -⟩ := draws_pure.1 ha
    exact .nil
  | @cons n req shape spec hreq _ ih =>
    obtain ⟨hn, hfit⟩ := List.forall_mem_cons.1 hfit
    cases req with
    | some size =>
      obtain ⟨sizes, hsizes⟩ := ih hfit s
      refine ⟨sizes, fun drops es s' ha σ hσ => ?_⟩
      rw [List.mapM_cons] at ha
      obtain ⟨e, s₁, he, hrest⟩ := draws_bind.1 ha
      obtain ⟨es', s₂, hes, hout⟩ := draws_bind.1 hrest
      obtain ⟨rfl, rfl⟩ := draws_pure.1 he
      obtain ⟨rfl, rfl⟩ := draws_pure.1 hout
      refine .cons ?_ (hsizes drops es' s₂ hes σ hσ)
      rw [hreq size rfl]
      exact SizeExpr.denotes_ofSize hn.2
    | none =>
      obtain ⟨sizes, hsizes⟩ := ih hfit { s with count := s.count + 1 }
      refine ⟨fun k => if k = s.count + 1 then n else sizes k, fun drops es s' ha σ hσ => ?_⟩
      rw [List.mapM_cons] at ha
      obtain ⟨e, s₁, he, hrest⟩ := draws_bind.1 ha
      obtain ⟨es', s₂, hes, hout⟩ := draws_bind.1 hrest
      obtain ⟨rfl, rfl⟩ := draws_freshSize.1 he
      obtain ⟨rfl, rfl⟩ := draws_pure.1 hout
      have hbefore := hes.before (advances_mapM (fun
        | some _ => advances_pure _
        | none => advances_freshSize) spec)
      obtain ⟨hsize, hnames⟩ := Assignment.Names.cons hbefore hσ
      exact .cons (hsize ▸ SizeExpr.denotes_posVar _) (hsizes drops es' s₂ hes σ hnames)

theorem yields_specifyShape {spec : List (Option Nat)} {t : TensorFacts} {v : Value} (hfit : Shape.Fits v.shape)
    (hspec : ShapeAccess.specMatches spec v.shape = true) :
    Yields (fun _ => ShapeRule.specifyShape spec [t]) fun σ _ outs => t.Describes σ v → FirstDescribes σ outs v := by
  have hmatches := matchesSpec_of_specMatches hspec
  cases hdims : t.dims? with
  | none =>
    intro s
    obtain ⟨sizes, hsizes⟩ := yields_requiredSizes hmatches hfit s
    refine ⟨sizes, fun drops outs s' ha σ hσ _ => ?_⟩
    simp only [ShapeRule.specifyShape, hdims] at ha
    obtain ⟨es, s₁, hes, ha⟩ := draws_bind.1 ha
    obtain ⟨rfl, rfl⟩ := draws_pure.1 ha
    exact firstDescribes_cons.2 (hsizes drops es s₁ hes σ hσ)
  | some dims =>
    refine yields_of_draws fun σ drops s outs s' ha ht => ?_
    simp only [ShapeRule.specifyShape, hdims] at ha
    split at ha
    · exact absurd ha draws_throw
    · obtain ⟨sizes, s₁, hsizes, ha⟩ := draws_bind.1 ha
      obtain ⟨rfl, -⟩ := draws_pure.1 ha
      refine firstDescribes_cons.2 ?_
      split
      · exact denoteSizes_specifyDim (ht.sizes hfit hdims) hfit hmatches (draws_mapM_lift.1 hsizes).1
      · exact ht

/-! ## Filling shapes -/

theorem denoteSizes_toCount {es : List SizeExpr} {ws : List Int32} {shape : List Nat} (h : DenoteWords σ es ws)
    (hshape : ws.map Word.toCount? = shape.map some) : DenoteSizes σ es shape := by
  induction h generalizing shape with
  | nil =>
    obtain rfl : shape = [] := by simpa using hshape.symm
    exact .nil
  | @cons e w es ws he _ ih =>
    cases shape with
    | nil => cases hshape
    | cons n shape =>
      obtain ⟨hn, hshape⟩ := List.cons.inj hshape
      refine .cons ?_ (ih hshape)
      unfold Word.toCount? at hn
      split at hn
      · next hpos =>
        cases hn
        rwa [Int.toNat_of_nonneg hpos]
      · cases hn

theorem yields_fill {t : TensorFacts} {ws : Tensor Int32} {out : Value} (hrank : ws.shape.length = 1)
    (hfit : Shape.Fits ws.shape) (hshape : ws.data.toList.map Word.toCount? = out.shape.map some) :
    Yields (fun _ => ShapeRule.fill [t]) fun σ _ outs => t.Describes σ (.ints ws) → FirstDescribes σ outs out := by
  by_cases hrank? : t.rank?.any (· ≠ 1) = true
  · refine yields_of_draws fun σ drops s outs s' ha _ => ?_
    rw [ShapeRule.fill, if_pos hrank?] at ha
    exact absurd ha draws_throw
  · cases hes : t.values? with
    | some es =>
      refine yields_of_draws fun σ drops s outs s' ha ht => ?_
      simp only [ShapeRule.fill, if_neg hrank?, hes] at ha
      split at ha
      · exact absurd ha draws_throw
      · obtain ⟨rfl, -⟩ := draws_pure.1 ha
        obtain ⟨u, hu, -, hwords⟩ := ht.elements hes
        cases hu
        exact firstDescribes_cons.2 (denoteSizes_toCount hwords hshape)
    | none =>
      cases hlen : (t.size? 0).bind SizeExpr.asValue? with
      | none =>
        refine yields_of_draws fun σ drops s outs s' ha _ => ?_
        simp only [ShapeRule.fill, if_neg hrank?, hes, hlen] at ha
        obtain ⟨rfl, -⟩ := draws_pure.1 ha
        exact firstDescribes_cons.2 trivial
      | some len =>
        have hrule : ShapeRule.fill [t] = (do return [.shape (← ShapeRule.freshSizes len.toInt.toNat)]) := by
          simp only [ShapeRule.fill, if_neg hrank?, hes, hlen]
        simp only [hrule]
        refine yields_freshSizes out.shape (fun σ drops es _ hes _ => firstDescribes_cons.2 hes)
          fun σ drops es hne ht => absurd ?_ hne
        obtain ⟨d, hd, hval⟩ := Option.bind_eq_some_iff.1 hlen
        obtain ⟨n, hn, hden⟩ := ht.size hfit hd
        obtain ⟨k, hk⟩ := List.length_eq_one_iff.1 hrank
        have hcount : ws.data.toList.length = k := by
          rw [Array.length_toList, ws.size_data, hk]
          exact Nat.mul_one k
        have hout : out.shape.length = k := by
          simpa [hcount] using (congrArg List.length hshape).symm
        have hnk : n = k := by simpa [Value.shape, hk] using hn.symm
        have hword : (n : Int) = len.toInt := hden.value_eq hval
        omega

end TensorGraph
