import Mathlib.Tactic.SplitIfs
import TensorGraph.Facts.Layout
import TensorGraph.Proofs.Facts.Comparison
import TensorGraph.Proofs.Facts.Shapes
import TensorGraph.Proofs.Tensor.Joins

/-!
# Sizes in exact arithmetic

Facts that match a value give its sizes and elements in exact arithmetic, zero included. The checks of shape
rules compare constants, so they pass whenever the sizes fit each other: broadcasting succeeds, and the size
that it gives is again exact (`exists_broadcastDims`). With constants that fit in a word it fails, too, where
broadcasting of shapes fails (`ShapeRule.broadcastDims_broadcastLaws`). Counts of elements are exact if
simplification keeps their value (`HasSizes.countOf`).
-/

namespace TensorGraph

variable {σ : Assignment}

/-- Whether the expressions have the sizes as values in exact arithmetic. -/
def HasSizes (σ : Assignment) : List SizeExpr → List Nat → Prop :=
  List.Forall₂ fun e n => e.exactValue? σ = some (n : Int)

/-- Whether the expressions have the words as values in exact arithmetic. -/
def HasWords (σ : Assignment) : List SizeExpr → List Int32 → Prop :=
  List.Forall₂ fun e w => e.exactValue? σ = some w.toInt

namespace SizeExpr

variable {e : SizeExpr} {x : Int}

theorem forall₂_exactValue? {β : Type} {f : β → Int} {es : List SizeExpr} {ys : List β} :
    es.mapM (·.exactValue? σ) = some (ys.map f) ↔ List.Forall₂ (fun e y => e.exactValue? σ = some (f y)) es ys := by
  rw [mapM_eq_some, List.map_map, ← List.forall₂_eq_eq_eq, List.forall₂_map_left_iff, List.forall₂_map_right_iff]
  rfl

theorem eq_of_asValue? {v : Int32} (h : e.exactValue? σ = some x) (hv : e.asValue? = some v) : x = v.toInt := by
  rw [eq_value_of_asValue? hv] at h
  exact (Option.some.inj h).symm

/-- The symbols of a map have the sizes that it gives, so what can be evaluated has that value. -/
theorem exactValue?_of_eval {m : SymbolMap} (hm : σ.Extends m) {w : Int32} (h : e.eval m = .ok w) :
    e.exactValue? σ = some w.toInt := by
  induction e generalizing w with
  | value v =>
    cases h
    rfl
  | sym s =>
    rw [eval] at h
    split at h
    · next v hv =>
      cases h
      exact congrArg some (hm s.name _ hv)
    · cases h
  | neg a ih =>
    obtain ⟨v, hv, h⟩ := bind_eq_ok.1 h
    rw [exactValue?, ih hv, orOverflow_eq_ok.1 h]
    rfl
  | add a b iha ihb =>
    obtain ⟨v, v', hv, hv', h⟩ := bind₂_eq_ok.1 h
    rw [exactValue?, iha hv, ihb hv', orOverflow_eq_ok.1 h]
    rfl
  | sub a b iha ihb =>
    obtain ⟨v, v', hv, hv', h⟩ := bind₂_eq_ok.1 h
    rw [exactValue?, iha hv, ihb hv', orOverflow_eq_ok.1 h]
    rfl
  | mul a b iha ihb =>
    obtain ⟨v, v', hv, hv', h⟩ := bind₂_eq_ok.1 h
    rw [exactValue?, iha hv, ihb hv', orOverflow_eq_ok.1 h]
    rfl
  | div a b iha ihb =>
    obtain ⟨v, v', hv, hv', h⟩ := bind₂_eq_ok.1 h
    split at h
    · cases h
    · next hne =>
      have hzero : v'.toInt ≠ 0 := fun hzero => hne (Int32.toInt_inj.1 hzero)
      rw [Word.floorDiv?, if_neg hne] at h
      simp [exactValue?, iha hv, ihb hv', hzero, orOverflow_eq_ok.1 h]
  | max a b iha ihb =>
    obtain ⟨v, v', hv, hv', h⟩ := bind₂_eq_ok.1 h
    cases h
    rw [exactValue?, iha hv, ihb hv', toInt_max]
    rfl
  | min a b iha ihb =>
    obtain ⟨v, v', hv, hv', h⟩ := bind₂_eq_ok.1 h
    cases h
    rw [exactValue?, iha hv, ihb hv', toInt_min]
    rfl
  | broadcast a b iha ihb =>
    obtain ⟨v, v', hv, hv', h⟩ := bind₂_eq_ok.1 h
    have hone : (1 : Int32).toInt = 1 := rfl
    unfold broadcastSize at h
    simp only [exactValue?, iha hv, ihb hv', Option.bind_eq_bind, Option.bind_some, Int32.toInt_inj, ← hone]
    split_ifs at h ⊢ <;> cases h <;> rfl

end SizeExpr

/-! ## Known entries -/

theorem DenoteWords.hasWords {es : List SizeExpr} {ws : List Int32} (h : DenoteWords σ es ws) : HasWords σ es ws :=
  h.imp fun _ _ he => he.exactValue?

/-- A constant entry has its value at run time. -/
theorem HasWords.getElem?_eq {es : List SizeExpr} {ws : List Int32} (h : HasWords σ es ws) {i : Nat} {c : Int32}
    (hi : es[i]?.bind SizeExpr.asValue? = some c) : ws[i]? = some c := by
  obtain ⟨e, he, hc⟩ := Option.bind_eq_some_iff.1 hi
  obtain ⟨hlt, rfl⟩ := List.getElem?_eq_some_iff.1 he
  have hlt' : i < ws.length := h.length_eq ▸ hlt
  have hword := SizeExpr.eq_of_asValue? (List.Forall₂.get h hlt hlt') hc
  rw [List.getElem?_eq_getElem hlt']
  exact congrArg some (Int32.toInt_inj.1 hword)

/-! ## What matching facts say -/

namespace TensorFacts

variable {t : TensorFacts} {v : Value}

theorem Matches.sizes (h : t.Matches σ v) {dims : List SizeExpr} (hdims : t.dims? = some dims) :
    HasSizes σ dims v.shape := SizeExpr.forall₂_exactValue?.1 (h.shape dims hdims)

theorem Matches.words (h : t.Matches σ v) {xs : List SizeExpr} (hxs : t.values? = some xs) :
    ∃ u, v = .ints u ∧ HasWords σ xs u.data.toList := by
  obtain ⟨u, hu, hwords⟩ := h.elements xs hxs
  exact ⟨u, hu, SizeExpr.forall₂_exactValue?.1 hwords⟩

/-- Elements are tracked in scalars and vectors. -/
theorem Matches.shape_of_values (h : t.Matches σ v) {xs : List SizeExpr} (hxs : t.values? = some xs) :
    v.shape = [] ∧ xs.length = 1 ∨ v.shape = [xs.length] ∧ (Word.ofCount xs.length).toInt = xs.length := by
  obtain ⟨u, rfl, hwords⟩ := h.words hxs
  rcases values?_eq_some hxs with ⟨x, rfl, rfl⟩ | rfl
  · have hsizes := h.sizes rfl
    exact .inl ⟨List.forall₂_nil_left_iff.1 hsizes, rfl⟩
  · have hsizes := h.sizes rfl
    obtain ⟨n, rest, hn, hrest, hshape⟩ := List.forall₂_cons_left_iff.1 hsizes
    obtain rfl := List.forall₂_nil_left_iff.1 hrest
    have hlen : n = xs.length := by
      rw [hwords.length_eq, Array.length_toList, u.size_data, show u.shape = [n] from hshape]
      exact (Nat.mul_one n).symm
    subst hlen
    exact .inr ⟨hshape, Option.some.inj hn⟩

end TensorFacts

/-! ## Broadcasting -/

namespace ShapeRule

/-- The size of a broadcast dimension is found whenever the sizes fit, zero sizes included. -/
theorem exists_broadcastDim {a b : SizeExpr} {x y z : Nat} (ha : a.exactValue? σ = some (x : Int))
    (hb : b.exactValue? σ = some (y : Int)) (h : Shape.broadcastSize? x y = some z) :
    ∃ d, broadcastDim a b = .ok d ∧ d.exactValue? σ = some (z : Int) := by
  have hcases := broadcastSize?_cases h
  have hvalue {e : SizeExpr} {n : Nat} {v : Int32} (he : e.exactValue? σ = some (n : Int))
      (hv : e.asValue? = some v) : v = 1 ↔ n = 1 := by
    have hn := SizeExpr.eq_of_asValue? he hv
    have hone : (1 : Int32).toInt = 1 := rfl
    rw [← Int32.toInt_inj]
    omega
  have hleft (hz : z = x) : a.exactValue? σ = some (z : Int) := hz ▸ ha
  have hright (hz : z = y) : b.exactValue? σ = some (z : Int) := hz ▸ hb
  have hcase := broadcastCase a b
  generalize broadcastDim a b = result at hcase
  cases hcase with
  | alike halike =>
    have hxy : (x : Int) = y := Option.some.inj (ha.symm.trans ((SizeExpr.exactValue?_of_alike halike).trans hb))
    exact ⟨a, rfl, hleft (by omega)⟩
  | leftOne hone =>
    have hx := (hvalue ha hone).1 rfl
    exact ⟨b, rfl, hright (by omega)⟩
  | rightOne hone =>
    have hy := (hvalue hb hone).1 rfl
    exact ⟨a, rfl, hleft (by omega)⟩
  | left hv hne =>
    have hx := mt (hvalue ha hv).2 hne
    exact ⟨a, rfl, hleft (by omega)⟩
  | right hv hne =>
    have hy := mt (hvalue hb hv).2 hne
    exact ⟨b, rfl, hright (by omega)⟩
  | @different v w hnot hv hx hw hy =>
    -- Neither size is 1, so they are equal, and then the constants are alike.
    have hxy : x = y := by
      have := mt (hvalue ha hv).2 hx
      have := mt (hvalue hb hw).2 hy
      omega
    have hvw : v = w := by
      rw [← Int32.toInt_inj, ← SizeExpr.eq_of_asValue? ha hv, ← SizeExpr.eq_of_asValue? hb hw, hxy]
    rw [SizeExpr.eq_value_of_asValue? hv, SizeExpr.eq_value_of_asValue? hw, hvw] at hnot
    simp [SizeExpr.alike] at hnot
  | symbolic =>
    -- Nothing is known, so the rule gives the broadcast of the two, whose value is decided as at run time.
    refine ⟨_, rfl, ?_⟩
    simp only [SizeExpr.exactValue?, ha, hb, Option.bind_eq_bind, Option.bind_some]
    split_ifs
    · exact congrArg some (by omega)
    · exact congrArg some (by omega)
    · exact congrArg some (by omega)
    · omega

theorem hasSizes_padTo {es : List SizeExpr} {shape : List Nat} (h : HasSizes σ es shape) (rank : Nat) :
    HasSizes σ (padTo rank es) (Shape.padTo rank shape) := by
  unfold padTo Shape.padTo
  rw [h.length_eq]
  refine List.rel_append ?_ h
  induction rank - shape.length with
  | zero => exact .nil
  | succ n ih => exact .cons rfl ih

theorem exists_broadcastZip {as bs : List SizeExpr} {a b c : List Nat} (ha : HasSizes σ as a) (hb : HasSizes σ bs b)
    (h : List.zipWith Shape.broadcastSize? a b = c.map some) :
    ∃ cs, (as.zip bs).mapM (fun p => broadcastDim p.1 p.2) = .ok cs ∧ HasSizes σ cs c := by
  induction ha generalizing bs b c with
  | nil =>
    obtain rfl : c = [] := by simpa using h.symm
    exact ⟨[], rfl, .nil⟩
  | @cons e n as a he _ ih =>
    cases hb with
    | nil =>
      obtain rfl : c = [] := by simpa using h.symm
      exact ⟨[], rfl, .nil⟩
    | @cons e' n' bs b he' hb =>
      rw [List.zipWith_cons_cons] at h
      cases c with
      | nil => cases h
      | cons k c =>
        obtain ⟨hk, hrest⟩ := List.cons.inj h
        obtain ⟨d, hd, hdval⟩ := exists_broadcastDim he he' hk
        obtain ⟨cs, hcs, hsizes⟩ := ih hb hrest
        refine ⟨d :: cs, ?_, .cons hdval hsizes⟩
        rw [List.zip_cons_cons, List.mapM_cons, hd, hcs]
        rfl

theorem exists_broadcastDims {as bs : List SizeExpr} {a b c : List Nat} (ha : HasSizes σ as a)
    (hb : HasSizes σ bs b) (h : Shape.broadcast? a b = some c) :
    ∃ cs, broadcastDims as bs = .ok cs ∧ HasSizes σ cs c := by
  unfold broadcastDims
  rw [ha.length_eq, hb.length_eq]
  exact exists_broadcastZip (hasSizes_padTo ha _) (hasSizes_padTo hb _) (Shape.broadcast?_eq_some.1 h)

/-- Expressions of the same value are not known to differ. -/
theorem knownDifferent_eq_false {a b : SizeExpr} {x : Int} (ha : a.exactValue? σ = some x)
    (hb : b.exactValue? σ = some x) : knownDifferent a b = false := by
  unfold knownDifferent
  split
  · next v w hv hw =>
    have heq : v = w := by
      rw [← Int32.toInt_inj, ← SizeExpr.eq_of_asValue? ha hv, ← SizeExpr.eq_of_asValue? hb hw]
    simp [heq]
  · rfl

/-! ### Constant sizes -/

open SizeExpr (ofSize)

/-- The largest size that fits in a word. -/
def maxSize : Nat := 2147483647

theorem ofCount_inj {m n : Nat} (hm : m ≤ maxSize) (hn : n ≤ maxSize) : Word.ofCount m = Word.ofCount n ↔ m = n := by
  unfold maxSize at hm hn
  constructor
  · intro h
    have hvalue := congrArg Int32.toInt h
    unfold Word.ofCount at hvalue
    rw [Int32.toInt_ofInt_of_le (by omega) (by omega), Int32.toInt_ofInt_of_le (by omega) (by omega)] at hvalue
    omega
  · rintro rfl
    rfl

theorem broadcastDim_ofSize {m n : Nat} (hm : m ≤ maxSize) (hn : n ≤ maxSize) :
    broadcastDim (ofSize m) (ofSize n) =
      (Shape.broadcastSize? m n).elim (.error .incompatibleShapes) fun k => .ok (ofSize k) := by
  have hone : Word.ofCount 1 = 1 := rfl
  have hm1 : Word.ofCount m = 1 ↔ m = 1 := hone ▸ ofCount_inj hm (by decide)
  have hn1 : Word.ofCount n = 1 ↔ n = 1 := hone ▸ ofCount_inj hn (by decide)
  simp only [broadcastDim, ofSize, SizeExpr.alike, SizeExpr.asValue?, beq_iff_eq, ofCount_inj hm hn, hm1, hn1,
    Shape.broadcastSize?]
  split_ifs <;> rfl

theorem mapM_broadcastDim {as bs : List Nat} (has : ∀ n ∈ as, n ≤ maxSize) (hbs : ∀ n ∈ bs, n ≤ maxSize) :
    ((as.map ofSize).zip (bs.map ofSize)).mapM (fun p => broadcastDim p.1 p.2) =
      ((List.zipWith Shape.broadcastSize? as bs).mapM id).elim (.error .incompatibleShapes) fun cs =>
        .ok (cs.map ofSize) := by
  induction as generalizing bs with
  | nil => rfl
  | cons m as ih =>
    cases bs with
    | nil => rfl
    | cons n bs =>
      obtain ⟨hm, has⟩ := List.forall_mem_cons.1 has
      obtain ⟨hn, hbs⟩ := List.forall_mem_cons.1 hbs
      simp only [List.map_cons, List.zip_cons_cons, List.zipWith_cons_cons, List.mapM_cons, id,
        broadcastDim_ofSize hm hn, ih has hbs]
      cases Shape.broadcastSize? m n with
      | none => rfl
      | some k => cases (List.zipWith Shape.broadcastSize? as bs).mapM id <;> rfl

theorem padTo_ofSize (rank : Nat) (shape : List Nat) :
    padTo rank (shape.map ofSize) = (Shape.padTo rank shape).map ofSize := by
  simp [padTo, Shape.padTo, ofSize, Word.ofCount]

theorem le_of_mem_padTo {rank n : Nat} {shape : List Nat} (h : ∀ n ∈ shape, n ≤ maxSize)
    (hn : n ∈ Shape.padTo rank shape) : n ≤ maxSize := by
  rcases List.mem_append.1 hn with hone | hmem
  · rw [List.eq_of_mem_replicate hone]
    decide
  · exact h n hmem

theorem broadcastDims_ofSize {a b : List Nat} (ha : ∀ n ∈ a, n ≤ maxSize) (hb : ∀ n ∈ b, n ≤ maxSize) :
    broadcastDims (a.map ofSize) (b.map ofSize) =
      (Shape.broadcast? a b).elim (.error .incompatibleShapes) fun c => .ok (c.map ofSize) := by
  have hsizes : Shape.broadcast? a b = (List.zipWith Shape.broadcastSize? (Shape.padTo (max a.length b.length) a)
      (Shape.padTo (max a.length b.length) b)).mapM id := by
    apply Option.ext
    intro c
    rw [Shape.broadcast?_eq_some, mapM_eq_some, List.map_id]
  rw [hsizes, ← mapM_broadcastDim (fun n => le_of_mem_padTo ha) (fun n => le_of_mem_padTo hb), ← padTo_ofSize,
    ← padTo_ofSize]
  simp only [broadcastDims, List.length_map]

/-- Broadcasting of shapes has the laws of a least upper bound, and broadcasting of size expressions does the same with
constants. -/
theorem broadcastDims_broadcastLaws (a b c : List Nat) : Shape.BroadcastLaws a b c ∧
    ((∀ n ∈ a ++ b, n ≤ maxSize) → broadcastDims (a.map ofSize) (b.map ofSize) =
      (Shape.broadcast? a b).elim (.error .incompatibleShapes) fun s => .ok (s.map ofSize)) := by
  refine ⟨Shape.broadcastLaws a b c, ?_⟩
  intro hsizes
  obtain ⟨ha, hb⟩ := List.forall_mem_append.1 hsizes
  exact broadcastDims_ofSize ha hb

/-- A column of two entries and three blocks of one entry. -/
theorem broadcastDims_broadcastLaws_column : (∀ n ∈ [2, 1] ++ [3, 1, 1], n ≤ maxSize) ∧
    broadcastDims ([2, 1].map ofSize) ([3, 1, 1].map ofSize) = .ok ([3, 2, 1].map ofSize) ∧
    Shape.broadcast? [2, 1] [3, 1, 1] = some [3, 2, 1] := by
  have hsizes : ∀ n ∈ [2, 1] ++ [3, 1, 1], n ≤ maxSize := by decide
  exact ⟨hsizes, (broadcastDims_broadcastLaws [2, 1] [3, 1, 1] []).2 hsizes, rfl⟩

end ShapeRule

/-! ## Counts of elements -/

/-- Whether simplification keeps the value that an expression has. -/
def SizeExpr.Kept (σ : Assignment) (e : SizeExpr) : Prop :=
  ∀ x, e.exactValue? σ = some x → e.simplify.exactValue? σ = some x

theorem SizeExpr.Kept.of_eq {e : SizeExpr} (h : e.simplify.exactValue? σ = e.exactValue? σ) : e.Kept σ :=
  fun _ hx => h.trans hx

/-- The value is kept if the expression is regular and only dominated constants are dropped. -/
theorem SizeExpr.Kept.of_regular {e : SizeExpr} (hreg : e.Regular σ.valuation)
    (hdrops : e.simplify = e.simplifyBy σ.drops) : e.Kept σ := by
  intro x hx
  have hden : e.Denotes σ x := ⟨hreg, Option.some.inj ((exactValue?_of_regular hreg).symm.trans hx)⟩
  rw [hdrops]
  exact (hden.simplifyBy soundDrops_bothDominate).exactValue?

/-- The product of sizes, as it is before simplification. -/
def ShapeRule.countExpr (dims : List SizeExpr) : SizeExpr := dims.foldl .mul (.value 1)

theorem HasSizes.foldl_mul {es : List SizeExpr} {shape : List Nat} (h : HasSizes σ es shape) {e : SizeExpr} {x : Int}
    (he : e.exactValue? σ = some x) : (es.foldl .mul e).exactValue? σ = some (x * volume shape) := by
  induction h generalizing e x with
  | nil => simpa [volume] using he
  | @cons a n es shape ha _ ih =>
    have hmul : (SizeExpr.mul e a).exactValue? σ = some (x * n) := by
      rw [SizeExpr.exactValue?, he, ha]
      rfl
    rw [List.foldl_cons, ih hmul, volume, Int.natCast_mul, Int.mul_assoc]

theorem HasSizes.countOf {es : List SizeExpr} {shape : List Nat} (h : HasSizes σ es shape)
    (hkept : (ShapeRule.countExpr es).Kept σ) :
    (ShapeRule.countOf boundsDominate es).exactValue? σ = some (volume shape : Int) := by
  have hcount := h.foldl_mul (e := .value 1) (x := 1) rfl
  rw [Int.one_mul] at hcount
  exact hkept _ hcount

end TensorGraph
