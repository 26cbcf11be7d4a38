import TensorGraph.Proofs.Facts.Description

/-!
# Comparing facts

Facts that are compared syntactically say the same of values that they match: alike expressions have one value
(`SizeExpr.exactValue?_of_alike`), so tensors with the same shape facts have one shape, and a tensor whose elements
are all known is a constant.
-/

namespace TensorGraph

namespace SizeExpr

variable {σ : Assignment} {a b : SizeExpr}

/-- The order of two operands does not matter for a commutative operation. -/
theorem bind_eq_of_eq_or_swap {f : Int → Int → Option Int} (hcomm : ∀ x y, f x y = f y x) {a b c d : Option Int}
    (h : (a = c ∧ b = d) ∨ (a = d ∧ b = c)) : (a.bind fun x => b.bind (f x)) = c.bind fun x => d.bind (f x) := by
  rcases h with ⟨rfl, rfl⟩ | ⟨rfl, rfl⟩
  · rfl
  · cases a with
    | none => cases b <;> rfl
    | some x =>
      cases b with
      | none => rfl
      | some y => exact hcomm x y

theorem exactValue?_of_alike (h : a.alike b = true) : a.exactValue? σ = b.exactValue? σ := by
  fun_induction alike a b with
  | case1 x y => rw [eq_of_beq h]
  | case2 s t => rw [exactValue?, exactValue?, eq_of_beq h]
  | case3 x y ih => rw [exactValue?, exactValue?, ih h]
  | case4 a b c d ih₁ ih₂ ih₃ ih₄ =>
    exact bind_eq_of_eq_or_swap (fun x y => congrArg some (Int.add_comm x y)) (eq_or_swap h ih₁ ih₂ ih₃ ih₄)
  | case5 a b c d ih₁ ih₂ ih₃ ih₄ =>
    exact bind_eq_of_eq_or_swap (fun x y => congrArg some (Int.mul_comm x y)) (eq_or_swap h ih₁ ih₂ ih₃ ih₄)
  | case6 a b c d ih₁ ih₂ ih₃ ih₄ =>
    exact bind_eq_of_eq_or_swap (fun x y => congrArg some (Int.max_comm x y)) (eq_or_swap h ih₁ ih₂ ih₃ ih₄)
  | case7 a b c d ih₁ ih₂ ih₃ ih₄ =>
    exact bind_eq_of_eq_or_swap (fun x y => congrArg some (Int.min_comm x y)) (eq_or_swap h ih₁ ih₂ ih₃ ih₄)
  | case8 a b c d ih₁ ih₂ ih₃ ih₄ =>
    refine bind_eq_of_eq_or_swap (fun x y => ?_) (eq_or_swap h ih₁ ih₂ ih₃ ih₄)
    -- Of two sizes that broadcast, the result is the one that is not 1.
    split_ifs <;> simp_all
  | case9 a b c d ih₁ ih₂ =>
    simp only [Bool.and_eq_true] at h
    rw [exactValue?, exactValue?, ih₁ h.1, ih₂ h.2]
  | case10 a b c d ih₁ ih₂ =>
    simp only [Bool.and_eq_true] at h
    rw [exactValue?, exactValue?, ih₁ h.1, ih₂ h.2]
  | case11 => cases h

theorem mapM_exactValue?_of_alike {as bs : List SizeExpr} (h : TensorFacts.alikeAll as bs = true) :
    as.mapM (·.exactValue? σ) = bs.mapM (·.exactValue? σ) := by
  fun_induction TensorFacts.alikeAll as bs with
  | case1 => rfl
  | case2 a as b bs ih =>
    simp only [Bool.and_eq_true] at h
    rw [List.mapM_cons, List.mapM_cons, exactValue?_of_alike h.1, ih h.2]
  | case3 => cases h

theorem eq_map_value_of_mapM {es : List SizeExpr} {ws : List Int32} (h : es.mapM asValue? = some ws) :
    es = ws.map .value := by
  rw [mapM_eq_some] at h
  induction es generalizing ws with
  | nil => cases ws with
    | nil => rfl
    | cons w ws => cases h
  | cons e es ih => cases ws with
    | nil => cases h
    | cons w ws =>
      simp only [List.map_cons, List.cons.injEq] at h
      rw [eq_value_of_asValue? h.1, ih h.2, List.map_cons]

theorem mapM_exactValue?_values (ws : List Int32) :
    (ws.map value).mapM (·.exactValue? σ) = some (ws.map Int32.toInt) := by
  rw [mapM_eq_some, List.map_map, List.map_map]
  rfl

end SizeExpr

namespace TensorFacts

variable {σ : Assignment} {t u : TensorFacts} {v w : Value}

theorem dims?_simplify (t : TensorFacts) : t.simplify.dims? = t.dims?.map (·.map SizeExpr.simplify) := by
  cases t with
  | scalar x => rfl
  | vector xs =>
    have hlen : (xs.map (SizeExpr.simplifyBy boundsDominate)).length = xs.length := List.length_map ..
    simp only [simplify, simplifyBy, dims?, hlen, Option.map_some, List.map_cons, List.map_nil]
    rfl
  | shape dims => rfl
  | unknown note => rfl

theorem Matches.shape_injective {dims : List SizeExpr} (hv : t.Matches σ v) (hw : u.Matches σ w)
    (ht : t.dims? = some dims) {dims' : List SizeExpr} (hu : u.dims? = some dims')
    (h : dims.mapM (·.exactValue? σ) = dims'.mapM (·.exactValue? σ)) : v.shape = w.shape := by
  rw [hv.shape dims ht, hw.shape dims' hu] at h
  exact (List.map_inj_right (f := Int.ofNat) fun _ _ => Int.ofNat.inj).1 (Option.some.inj h)

/-- Facts about the same shape, which are compared when they are simplified. -/
theorem shape_eq_of_sameShape (h : t.sameShape u = true) (hv : t.simplify.Matches σ v)
    (hw : u.simplify.Matches σ w) : v.shape = w.shape := by
  unfold sameShape at h
  split at h
  · next a b ha hb =>
    refine hv.shape_injective hw ?_ ?_ (SizeExpr.mapM_exactValue?_of_alike h)
    · rw [dims?_simplify, ha]
      rfl
    · rw [dims?_simplify, hb]
      rfl
  · cases h

theorem Matches.rank_eq (h : t.Matches σ v) {n : Nat} (hn : t.rank? = some n) : v.rank = n := by
  obtain ⟨dims, hdims, rfl⟩ := Option.map_eq_some_iff.1 hn
  have hlen := congrArg (Option.map List.length) (h.shape dims hdims)
  cases hdims' : dims.mapM (·.exactValue? σ) with
  | none => simp [hdims'] at hlen
  | some xs =>
    rw [hdims'] at hlen
    have hxs := length_of_mapM hdims'
    simp only [Option.map_some, List.length_map, Option.some.injEq] at hlen
    rw [Value.rank, ← hlen, hxs]

end TensorFacts

end TensorGraph
