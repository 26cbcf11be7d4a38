import Mathlib.Data.List.Forall2
import TensorGraph.Facts.Basic
import TensorGraph.Proofs.Size.Simplification
import TensorGraph.Tensor.Value

/-!
# What facts say about a value

An `Assignment` gives sizes to symbols, and an expression then `Denotes` an integer. Facts describe a
value if their expressions denote its sizes and, where elements are tracked, its elements. Simplification
keeps what an expression denotes if its test drops only dominated constants (`Denotes.simplifyBy`).
-/

namespace TensorGraph

/-- Sizes of symbols. -/
abbrev Assignment := String → Nat

namespace Assignment

def valuation (σ : Assignment) : Valuation := fun name => some (σ name)

/-- Drops a constant if bounds and values of another operand show that it dominates the constant. -/
def drops (σ : Assignment) : DropTest := SizeExpr.bothDominate σ.valuation

/-- Whether the symbols of a map have the sizes that the map gives. -/
def Extends (σ : Assignment) (m : SymbolMap) : Prop := ∀ name w, m.get? name = some w → (σ name : Int) = w.toInt

end Assignment

namespace SizeExpr

/-- The value in exact arithmetic, if it can be computed. -/
def exactValue? (σ : Assignment) : SizeExpr → Option Int
  | .value v => some v.toInt
  | .sym s => some (σ s.name)
  | .neg x => return -(← x.exactValue? σ)
  | .add a b => return (← a.exactValue? σ) + (← b.exactValue? σ)
  | .sub a b => return (← a.exactValue? σ) - (← b.exactValue? σ)
  | .mul a b => return (← a.exactValue? σ) * (← b.exactValue? σ)
  | .div a b => do
    let x ← a.exactValue? σ
    let y ← b.exactValue? σ
    if y = 0 then none else some (x.fdiv y)
  | .max a b => return Max.max (← a.exactValue? σ) (← b.exactValue? σ)
  | .min a b => return Min.min (← a.exactValue? σ) (← b.exactValue? σ)
  | .broadcast a b => do
    let x ← a.exactValue? σ
    let y ← b.exactValue? σ
    if x = y then some x else if x = 1 then some y else if y = 1 then some x else none

/-- Whether the expression can be computed and has the given value. -/
def Denotes (σ : Assignment) (e : SizeExpr) (x : Int) : Prop :=
  e.Regular σ.valuation ∧ e.meaning σ.valuation = x

variable {σ : Assignment} {a b e : SizeExpr} {x y : Int}

theorem exactValue?_of_regular (h : e.Regular σ.valuation) : e.exactValue? σ = some (e.meaning σ.valuation) := by
  induction e with
  | value v => rfl
  | sym s => rfl
  | neg x ih => simp [exactValue?, ih h.1, meaning]
  | add a b iha ihb => simp [exactValue?, iha h.1.1, ihb h.1.2, meaning]
  | sub a b iha ihb => simp [exactValue?, iha h.1.1, ihb h.1.2, meaning]
  | mul a b iha ihb => simp [exactValue?, iha h.1.1, ihb h.1.2, meaning]
  | div a b iha ihb => simp [exactValue?, iha h.1.1, ihb h.1.2, meaning, h.2]
  | max a b iha ihb => simp [exactValue?, iha h.1, ihb h.2, meaning]
  | min a b iha ihb => simp [exactValue?, iha h.1, ihb h.2, meaning]
  | broadcast a b iha ihb =>
    obtain ⟨⟨ha, hb⟩, hpos, hfit⟩ := h
    simp only [exactValue?, iha ha, ihb hb, meaning, Option.bind_eq_bind, Option.bind_some]
    rcases hfit with h | h | h
    · simp [h]
    · split
      · next heq => simp [heq]
      · simp only [h, Option.some.injEq]
        omega
    · split
      · next heq => simp [heq]
      · split
        · simp only [Option.some.injEq]
          omega
        · simp only [h, Option.some.injEq]
          omega

theorem Denotes.exactValue? (h : e.Denotes σ x) : e.exactValue? σ = some x := by
  rw [exactValue?_of_regular h.1, h.2]

/-! ## Denoted values -/

theorem denotes_value (v : Int32) : (SizeExpr.value v).Denotes σ v.toInt := ⟨trivial, rfl⟩

theorem denotes_ofSize {n : Nat} (h : n ≤ 2147483647) : (ofSize n).Denotes σ n := by
  refine ⟨trivial, ?_⟩
  exact Int32.toInt_ofInt_of_le (by omega) (by omega)

theorem denotes_posVar (name : String) : (posVar name).Denotes σ (σ name) := ⟨rfl, rfl⟩

theorem Denotes.negatable (h : e.Denotes σ x) (hx : x ≤ 2147483647) : e.Negatable σ.valuation :=
  .inr (by have := h.2; omega)

theorem Denotes.neg (h : e.Denotes σ x) (hx : x ≤ 2147483647) : (SizeExpr.neg e).Denotes σ (-x) :=
  ⟨⟨h.1, h.negatable hx⟩, by rw [meaning, h.2]⟩

theorem Denotes.add (ha : a.Denotes σ x) (hb : b.Denotes σ y) (hx : x ≤ 2147483647) (hy : y ≤ 2147483647) :
    (SizeExpr.add a b).Denotes σ (x + y) :=
  ⟨⟨⟨ha.1, hb.1⟩, .inr (ha.negatable hx), .inr (hb.negatable hy)⟩, by rw [meaning, ha.2, hb.2]⟩

theorem Denotes.sub (ha : a.Denotes σ x) (hb : b.Denotes σ y) (hx : x ≤ 2147483647) (hy : y ≤ 2147483647) :
    (SizeExpr.sub a b).Denotes σ (x - y) :=
  ⟨⟨⟨ha.1, hb.1⟩, .inr (ha.negatable hx), .inr (hb.negatable hy)⟩, by rw [meaning, ha.2, hb.2]⟩

theorem Denotes.mul (ha : a.Denotes σ x) (hb : b.Denotes σ y) (hx : x ≤ 2147483647) (hy : y ≤ 2147483647) :
    (SizeExpr.mul a b).Denotes σ (x * y) :=
  ⟨⟨⟨ha.1, hb.1⟩, ha.negatable hx, hb.negatable hy⟩, by rw [meaning, ha.2, hb.2]⟩

theorem Denotes.div (ha : a.Denotes σ x) (hb : b.Denotes σ y) (hy : y ≠ 0) :
    (SizeExpr.div a b).Denotes σ (x.fdiv y) :=
  ⟨⟨⟨ha.1, hb.1⟩, hb.2 ▸ hy⟩, by rw [meaning, ha.2, hb.2]⟩

theorem Denotes.max (ha : a.Denotes σ x) (hb : b.Denotes σ y) : (SizeExpr.max a b).Denotes σ (Max.max x y) :=
  ⟨⟨ha.1, hb.1⟩, by rw [meaning, ha.2, hb.2]⟩

theorem Denotes.min (ha : a.Denotes σ x) (hb : b.Denotes σ y) : (SizeExpr.min a b).Denotes σ (Min.min x y) :=
  ⟨⟨ha.1, hb.1⟩, by rw [meaning, ha.2, hb.2]⟩

theorem Denotes.broadcast (ha : a.Denotes σ x) (hb : b.Denotes σ y) (hpos : 1 ≤ x ∧ 1 ≤ y)
    (hfit : x = y ∨ x = 1 ∨ y = 1) : (SizeExpr.broadcast a b).Denotes σ (Max.max x y) := by
  obtain ⟨hrega, rfl⟩ := ha
  obtain ⟨hregb, rfl⟩ := hb
  exact ⟨⟨⟨hrega, hregb⟩, hpos, hfit⟩, rfl⟩

theorem Denotes.value_eq {v : Int32} (h : e.Denotes σ x) (he : e.asValue? = some v) : x = v.toInt := by
  rw [eq_value_of_asValue? he] at h
  exact h.2.symm

theorem Denotes.size_eq {n len : Nat} (h : e.Denotes σ n) (he : e.asSize? = some len) : len = n := by
  obtain ⟨v, hv, hlen⟩ := Option.bind_eq_some_iff.1 he
  have hval := h.value_eq hv
  unfold Word.toCount? at hlen
  split at hlen
  · cases hlen
    omega
  · cases hlen

/-! ## Simplified expressions -/

theorem Denotes.simplifyBy {drops : DropTest} (hdrops : SoundDrops σ.valuation drops) (h : e.Denotes σ x) :
    (e.simplifyBy drops).Denotes σ x := by
  obtain ⟨hreg, hval⟩ := simplifyBy_spec hdrops h.1
  exact ⟨hreg, hval.trans h.2⟩

end SizeExpr

/-! ## Described values -/

/-- Whether the expressions denote the sizes. -/
def DenoteSizes (σ : Assignment) : List SizeExpr → List Nat → Prop :=
  List.Forall₂ fun e n => e.Denotes σ n

/-- Whether the expressions denote the integers. -/
def DenoteWords (σ : Assignment) : List SizeExpr → List Int32 → Prop :=
  List.Forall₂ fun e w => e.Denotes σ w.toInt

/-- Whether every size is positive and a word. -/
def Shape.Fits (shape : List Nat) : Prop := ∀ n ∈ shape, 1 ≤ n ∧ n ≤ 2147483647

namespace TensorFacts

/-- Whether a value is as the facts say. -/
def Describes (σ : Assignment) (v : Value) : TensorFacts → Prop
  | .scalar x => ∃ t, v = .ints t ∧ t.shape = [] ∧ DenoteWords σ [x] t.data.toList
  | .vector xs => ∃ t, v = .ints t ∧ t.shape = [xs.length] ∧ DenoteWords σ xs t.data.toList
  | .shape dims => DenoteSizes σ dims v.shape
  | .unknown _ => True

/-- Whether the known shape and the known elements, in exact arithmetic, are those of a value. -/
structure Matches (σ : Assignment) (t : TensorFacts) (v : Value) : Prop where
  shape : ∀ dims, t.dims? = some dims → dims.mapM (·.exactValue? σ) = some (v.shape.map Int.ofNat)
  elements : ∀ xs, t.values? = some xs →
    ∃ u, v = .ints u ∧ xs.mapM (·.exactValue? σ) = some (u.data.toList.map Int32.toInt)

variable {σ : Assignment} {t : TensorFacts} {v : Value}

theorem Describes.sizes (h : t.Describes σ v) (hfit : Shape.Fits v.shape) {dims : List SizeExpr}
    (hdims : t.dims? = some dims) : DenoteSizes σ dims v.shape := by
  cases t with
  | scalar x =>
    obtain ⟨u, rfl, hshape, -⟩ := h
    cases hdims
    simp [Value.shape, hshape, DenoteSizes]
  | vector xs =>
    obtain ⟨u, rfl, hshape, -⟩ := h
    cases hdims
    simp only [Value.shape, hshape] at hfit ⊢
    exact .cons (SizeExpr.denotes_ofSize (hfit _ (by simp)).2) .nil
  | shape ds =>
    cases hdims
    exact h
  | unknown note => cases hdims

theorem Describes.size (h : t.Describes σ v) (hfit : Shape.Fits v.shape) {i : Nat} {d : SizeExpr}
    (hd : t.size? i = some d) : ∃ n, v.shape[i]? = some n ∧ d.Denotes σ n := by
  obtain ⟨dims, hdims, hd⟩ := Option.bind_eq_some_iff.1 hd
  have hsizes := h.sizes hfit hdims
  obtain ⟨hi, rfl⟩ := List.getElem?_eq_some_iff.1 hd
  have hi' : i < v.shape.length := hsizes.length_eq ▸ hi
  exact ⟨v.shape[i], List.getElem?_eq_getElem hi', List.Forall₂.get hsizes hi hi'⟩

theorem values?_eq_some {xs : List SizeExpr} (h : t.values? = some xs) :
    (∃ x, t = .scalar x ∧ xs = [x]) ∨ t = .vector xs := by
  cases t with
  | scalar x =>
    cases h
    exact .inl ⟨x, rfl, rfl⟩
  | vector ys =>
    cases h
    exact .inr rfl
  | shape ds => cases h
  | unknown note => cases h

theorem Describes.elements (h : t.Describes σ v) {xs : List SizeExpr} (hxs : t.values? = some xs) :
    ∃ u, v = .ints u ∧ (u.shape = [] ∨ u.shape = [xs.length]) ∧ DenoteWords σ xs u.data.toList := by
  rcases values?_eq_some hxs with ⟨x, rfl, rfl⟩ | rfl
  · obtain ⟨u, hv, hshape, hu⟩ := h
    exact ⟨u, hv, .inl hshape, hu⟩
  · obtain ⟨u, hv, hshape, hu⟩ := h
    exact ⟨u, hv, .inr hshape, hu⟩

theorem mapM_exactValue? {β : Type} {f : β → Int} {es : List SizeExpr} {ys : List β}
    (h : List.Forall₂ (fun e y => e.Denotes σ (f y)) es ys) : es.mapM (·.exactValue? σ) = some (ys.map f) := by
  rw [mapM_eq_some]
  induction h with
  | nil => rfl
  | cons he _ ih => simp [he.exactValue?, ih]

theorem Describes.matches (h : t.Describes σ v) (hfit : Shape.Fits v.shape) : t.Matches σ v := by
  refine ⟨fun dims hdims => mapM_exactValue? (h.sizes hfit hdims), fun xs hxs => ?_⟩
  obtain ⟨u, hv, -, hu⟩ := h.elements hxs
  exact ⟨u, hv, mapM_exactValue? hu⟩

theorem Describes.simplifyBy {drops : DropTest} (hdrops : SizeExpr.SoundDrops σ.valuation drops)
    (h : t.Describes σ v) : (t.simplifyBy drops).Describes σ v := by
  cases t with
  | scalar x =>
    obtain ⟨u, hv, hshape, hu⟩ := h
    have hsimp : DenoteWords σ ([x].map (SizeExpr.simplifyBy drops)) u.data.toList :=
      List.forall₂_map_left_iff.2 (hu.imp fun _ _ he => he.simplifyBy hdrops)
    exact ⟨u, hv, hshape, hsimp⟩
  | vector xs =>
    obtain ⟨u, hv, hshape, hu⟩ := h
    exact ⟨u, hv, by simpa using hshape, List.forall₂_map_left_iff.2 (hu.imp fun _ _ he => he.simplifyBy hdrops)⟩
  | shape ds => exact List.forall₂_map_left_iff.2 (h.imp fun _ _ he => he.simplifyBy hdrops)
  | unknown note => trivial

end TensorFacts

end TensorGraph
