import TensorGraph.Facts.Rule
import TensorGraph.Proofs.Facts.Description

/-!
# Computations that draw symbols

What a computation of a shape rule returns, and how far it advances the supply of symbols. `Yields` says
that a computation has results with some property whenever the symbols that it draws get the right sizes;
these sizes depend neither on other symbols nor on the test for dropped constants.
-/

namespace TensorGraph

/-- The name of the symbol with the given number. -/
def SymbolSupply.nameOf (s : SymbolSupply) (k : Nat) : String := s.stem ++ "_" ++ toString k

variable {α β ε : Type} {s s' : SymbolSupply}

/-- Whether a computation returns `a` and turns the supply `s` into `s'`. -/
def Draws (x : ExceptT ε (StateM SymbolSupply) α) (s : SymbolSupply) (a : α) (s' : SymbolSupply) : Prop :=
  x.run.run s = (.ok a, s')

theorem draws_pure {a b : α} : Draws (pure a : ExceptT ε (StateM SymbolSupply) α) s b s' ↔ a = b ∧ s = s' := by
  change ((.ok a, s) : Except ε α × SymbolSupply) = (.ok b, s') ↔ _
  simp

theorem draws_throw {e : ε} {b : α} : ¬Draws (throw e : ExceptT ε (StateM SymbolSupply) α) s b s' := by
  change ¬((.error e, s) : Except ε α × SymbolSupply) = (.ok b, s')
  simp

theorem draws_lift {x : Except ShapeRuleError α} {b : α} : Draws (liftM x : RuleM α) s b s' ↔ x = .ok b ∧ s = s' := by
  change ((x, s) : Except ShapeRuleError α × SymbolSupply) = (.ok b, s') ↔ _
  simp

theorem run_bind (x : ExceptT ε (StateM SymbolSupply) α) (f : α → ExceptT ε (StateM SymbolSupply) β)
    (s : SymbolSupply) :
    (x >>= f).run.run s = match x.run.run s with
      | (.ok a, s₁) => (f a).run.run s₁
      | (.error e, s₁) => (.error e, s₁) := by
  simp only [ExceptT.run_bind, StateT.run_bind]
  change (match x.run.run s with | (r, s₁) => _) = _
  rcases x.run.run s with ⟨_ | a, s₁⟩ <;> rfl

theorem draws_bind {x : ExceptT ε (StateM SymbolSupply) α} {f : α → ExceptT ε (StateM SymbolSupply) β} {b : β} :
    Draws (x >>= f) s b s' ↔ ∃ a s₁, Draws x s a s₁ ∧ Draws (f a) s₁ b s' := by
  unfold Draws
  rw [run_bind]
  rcases h : x.run.run s with ⟨e | a, s₁⟩
  · constructor
    · intro h'
      cases h'
    · rintro ⟨a, s₂, h', -⟩
      cases h'
  · constructor
    · exact fun h' => ⟨a, s₁, rfl, h'⟩
    · rintro ⟨a', s₂, h', hf⟩
      cases h'
      exact hf

theorem draws_mapM_lift {f : α → Except ShapeRuleError β} {l : List α} {bs : List β} :
    Draws (l.mapM fun a => (liftM (f a) : RuleM β)) s bs s' ↔ l.mapM f = .ok bs ∧ s = s' := by
  have hlift : (l.mapM fun a => (liftM (f a) : RuleM β)) = liftM (l.mapM f) := by
    induction l with
    | nil => rfl
    | cons a l ih =>
      rw [List.mapM_cons, List.mapM_cons, ih]
      cases f a with
      | error e => rfl
      | ok b => cases l.mapM f <;> rfl
  rw [hlift, draws_lift]

theorem draws_freshSize {e : SizeExpr} : Draws ShapeRule.freshSize s e s' ↔
    .posVar (s.nameOf (s.count + 1)) = e ∧ { s with count := s.count + 1 } = s' := by
  change ((.ok (.posVar (s.nameOf (s.count + 1))), { s with count := s.count + 1 }) :
    Except ShapeRuleError SizeExpr × SymbolSupply) = (.ok e, s') ↔ _
  simp

theorem draws_freshSizes {n : Nat} {es : List SizeExpr} : Draws (ShapeRule.freshSizes n) s es s' ↔
    (List.range n).map (fun i => .posVar (s.nameOf (s.count + 1 + i))) = es ∧
      { s with count := s.count + n } = s' := by
  induction n generalizing s s' es with
  | zero => simp [ShapeRule.freshSizes, draws_pure]
  | succ n ih =>
    have hshift : (List.range (n + 1)).map (fun i => SizeExpr.posVar (s.nameOf (s.count + 1 + i))) =
        .posVar (s.nameOf (s.count + 1)) ::
          (List.range n).map fun i => .posVar (s.nameOf (s.count + 1 + 1 + i)) := by
      rw [List.range_succ_eq_map, List.map_cons, List.map_map]
      congr 1
      refine List.map_congr_left fun i _ => ?_
      simp only [Function.comp, Nat.succ_eq_add_one, Nat.add_assoc, Nat.add_comm 1 i]
    rw [ShapeRule.freshSizes, draws_bind, hshift]
    constructor
    · rintro ⟨e, s₁, he, h⟩
      obtain ⟨rest, s₂, hrest, h⟩ := draws_bind.1 h
      obtain ⟨rfl, rfl⟩ := draws_freshSize.1 he
      obtain ⟨rfl, rfl⟩ := ih.1 hrest
      obtain ⟨rfl, rfl⟩ := draws_pure.1 h
      refine ⟨rfl, ?_⟩
      simp only [Nat.add_assoc, Nat.add_comm 1 n]
    · rintro ⟨rfl, rfl⟩
      refine ⟨_, _, draws_freshSize.2 ⟨rfl, rfl⟩, draws_bind.2 ⟨_, _, ih.2 ⟨rfl, ?_⟩, draws_pure.2 ⟨rfl, rfl⟩⟩⟩
      simp only [Nat.add_assoc, Nat.add_comm 1 n]

/-! ## Advancing the supply -/

/-- Whether `s'` comes from `s` by drawing symbols. -/
structure SymbolSupply.Before (s s' : SymbolSupply) : Prop where
  stem : s'.stem = s.stem
  count : s.count ≤ s'.count

theorem SymbolSupply.Before.refl (s : SymbolSupply) : s.Before s := ⟨rfl, Nat.le_refl _⟩

theorem SymbolSupply.Before.trans {s₁ s₂ s₃ : SymbolSupply} (h₁ : s₁.Before s₂) (h₂ : s₂.Before s₃) :
    s₁.Before s₃ := ⟨h₂.stem.trans h₁.stem, Nat.le_trans h₁.count h₂.count⟩

theorem SymbolSupply.Before.nameOf (h : s.Before s') (k : Nat) : s'.nameOf k = s.nameOf k := by
  rw [SymbolSupply.nameOf, SymbolSupply.nameOf, h.stem]

/-- Whether a computation, failing or not, only draws symbols from the supply. -/
def Advances (x : RuleM α) : Prop := ∀ s : SymbolSupply, s.Before (x.run.run s).2

theorem Draws.before {x : RuleM α} {a : α} (h : Draws x s a s') (hx : Advances x) : s.Before s' := by
  have hs := hx s
  rwa [h] at hs

theorem advances_pure (a : α) : Advances (pure a) := fun s => .refl s

theorem advances_throw (e : ShapeRuleError) : Advances (throw e : RuleM α) := fun s => .refl s

theorem advances_lift (x : Except ShapeRuleError α) : Advances (liftM x) := fun s => .refl s

theorem advances_bind {x : RuleM α} {f : α → RuleM β} (hx : Advances x) (hf : ∀ a, Advances (f a)) :
    Advances (x >>= f) := by
  intro s
  have hs := hx s
  rw [run_bind]
  revert hs
  rcases x.run.run s with ⟨_ | a, s₁⟩
  · exact id
  · exact fun hs => hs.trans (hf a s₁)

theorem advances_freshSize : Advances ShapeRule.freshSize := fun _ => ⟨rfl, Nat.le_succ _⟩

theorem advances_freshSizes (n : Nat) : Advances (ShapeRule.freshSizes n) := by
  induction n with
  | zero => exact advances_pure []
  | succ n ih => exact advances_bind advances_freshSize fun _ => advances_bind ih fun _ => advances_pure _

theorem advances_foldlM {f : β → α → RuleM β} (hf : ∀ b a, Advances (f b a)) (l : List α) (b : β) :
    Advances (l.foldlM f b) := by
  induction l generalizing b with
  | nil => exact advances_pure b
  | cons a l ih => exact advances_bind (hf b a) fun b => ih b

theorem advances_mapM {f : α → RuleM β} (hf : ∀ a, Advances (f a)) (l : List α) : Advances (l.mapM f) := by
  induction l with
  | nil => exact advances_pure []
  | cons a l ih =>
    rw [List.mapM_cons]
    exact advances_bind (hf a) fun _ => advances_bind ih fun _ => advances_pure _

/-! ## Success -/

/-- Whether a computation returns something from any supply. -/
def Succeeds (x : RuleM α) : Prop := ∀ s, ∃ a s', Draws x s a s'

theorem succeeds_pure (a : α) : Succeeds (pure a) := fun s => ⟨a, s, draws_pure.2 ⟨rfl, rfl⟩⟩

theorem succeeds_bind_of {x : RuleM α} {f : α → RuleM β} {P : α → Prop} (hx : ∀ s, ∃ a s', Draws x s a s' ∧ P a)
    (hf : ∀ a, P a → Succeeds (f a)) : Succeeds (x >>= f) := by
  intro s
  obtain ⟨a, s₁, hdraws, ha⟩ := hx s
  obtain ⟨b, s', hb⟩ := hf a ha s₁
  exact ⟨b, s', draws_bind.2 ⟨a, s₁, hdraws, hb⟩⟩

theorem succeeds_bind {x : RuleM α} {f : α → RuleM β} (hx : Succeeds x) (hf : ∀ a, Succeeds (f a)) :
    Succeeds (x >>= f) :=
  succeeds_bind_of (P := fun _ => True) (fun s => by simpa using hx s) fun a _ => hf a

theorem succeeds_lift_bind {x : Except ShapeRuleError α} {a : α} {f : α → RuleM β} (hx : x = .ok a)
    (hf : Succeeds (f a)) : Succeeds (liftM x >>= f) :=
  succeeds_bind_of (P := (· = a)) (fun s => ⟨a, s, draws_lift.2 ⟨hx, rfl⟩, rfl⟩) fun _ h => h ▸ hf

theorem succeeds_freshSize : Succeeds ShapeRule.freshSize := fun _ => ⟨_, _, draws_freshSize.2 ⟨rfl, rfl⟩⟩

theorem succeeds_freshSizes (n : Nat) : Succeeds (ShapeRule.freshSizes n) :=
  fun _ => ⟨_, _, draws_freshSizes.2 ⟨rfl, rfl⟩⟩

theorem succeeds_mapM {f : α → RuleM β} {l : List α} (h : ∀ a ∈ l, Succeeds (f a)) : Succeeds (l.mapM f) := by
  induction l with
  | nil => exact succeeds_pure []
  | cons a l ih =>
    obtain ⟨ha, hl⟩ := List.forall_mem_cons.1 h
    rw [List.mapM_cons]
    exact succeeds_bind ha fun _ => succeeds_bind (ih hl) fun _ => succeeds_pure _

/-! ## Results under the right sizes -/

/-- Whether the symbols that are drawn between two supplies have the given sizes. -/
def Assignment.Names (σ : Assignment) (s s' : SymbolSupply) (sizes : Nat → Nat) : Prop :=
  ∀ k, s.count < k → k ≤ s'.count → σ (s.nameOf k) = sizes k

/-- The sizes of a first symbol and of the ones after it. -/
theorem Assignment.Names.cons {σ : Assignment} {n : Nat} {sizes : Nat → Nat}
    (hs : SymbolSupply.Before { s with count := s.count + 1 } s')
    (hσ : σ.Names s s' fun k => if k = s.count + 1 then n else sizes k) :
    σ (s.nameOf (s.count + 1)) = n ∧ σ.Names { s with count := s.count + 1 } s' sizes := by
  have hcount : s.count + 1 ≤ s'.count := hs.count
  refine ⟨(hσ (s.count + 1) (Nat.lt_succ_self _) hcount).trans (if_pos rfl), fun k hk hk' => ?_⟩
  have hlt : s.count + 1 < k := hk
  exact (hσ k (by omega) hk').trans (if_neg (by omega))

/-- Whether the results have a property as soon as the drawn symbols have the right sizes. -/
def Yields (x : DropTest → RuleM α) (Q : Assignment → DropTest → α → Prop) : Prop :=
  ∀ s, ∃ sizes, ∀ drops a s', Draws (x drops) s a s' → ∀ σ : Assignment, σ.Names s s' sizes → Q σ drops a

variable {x : DropTest → RuleM α} {Q : Assignment → DropTest → α → Prop}

theorem yields_of_draws (h : ∀ σ drops s a s', Draws (x drops) s a s' → Q σ drops a) : Yields x Q :=
  fun s => ⟨fun _ => 0, fun drops a s' ha σ _ => h σ drops s a s' ha⟩

/-- A fresh symbol can stand for any size. -/
theorem yields_freshSize (n : Nat) {f : DropTest → SizeExpr → α}
    (h : ∀ σ drops e, e.Denotes σ n → Q σ drops (f drops e)) :
    Yields (fun drops => do return f drops (← ShapeRule.freshSize)) Q := by
  refine fun s => ⟨fun _ => n, fun drops a s' ha σ hσ => ?_⟩
  obtain ⟨e, s₁, he, ha⟩ := draws_bind.1 ha
  obtain ⟨rfl, rfl⟩ := draws_freshSize.1 he
  obtain ⟨rfl, rfl⟩ := draws_pure.1 ha
  have hsize : σ (s.nameOf (s.count + 1)) = n := hσ (s.count + 1) (Nat.lt_succ_self _) (Nat.le_refl _)
  exact h σ drops _ (hsize ▸ SizeExpr.denotes_posVar _)

/-- Fresh symbols can stand for any shape. -/
theorem yields_freshSizes (shape : List Nat) {n : Nat} {f : List SizeExpr → α}
    (h : ∀ σ drops es, n = shape.length → DenoteSizes σ es shape → Q σ drops (f es))
    (hlen : ∀ σ drops es, n ≠ shape.length → Q σ drops (f es)) :
    Yields (fun _ => do return f (← ShapeRule.freshSizes n)) Q := by
  refine fun s => ⟨fun k => shape.getD (k - s.count - 1) 0, fun drops a s' ha σ hσ => ?_⟩
  obtain ⟨es, s₁, he, ha⟩ := draws_bind.1 ha
  obtain ⟨rfl, rfl⟩ := draws_freshSizes.1 he
  obtain ⟨rfl, rfl⟩ := draws_pure.1 ha
  by_cases hn : n = shape.length
  · refine h σ drops _ hn (List.forall₂_iff_get.2 ⟨by simp [hn], fun i h₁ h₂ => ?_⟩)
    have hsize := hσ (s.count + 1 + i) (by omega) (by dsimp only; simp at h₁; omega)
    have hi : s.count + 1 + i - s.count - 1 = i := by omega
    simp only [hi, List.getD_eq_getElem?_getD, List.getElem?_eq_getElem h₂, Option.getD_some] at hsize
    simp only [List.get_eq_getElem, List.getElem_map, List.getElem_range]
    exact hsize ▸ SizeExpr.denotes_posVar _
  · exact hlen σ drops _ hn

end TensorGraph
