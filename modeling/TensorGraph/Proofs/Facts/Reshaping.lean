import TensorGraph.Proofs.Facts.Arithmetic
import TensorGraph.Proofs.Facts.ExactSizes
import TensorGraph.Proofs.Tensor.Permutation

/-!
# Rules for reshaping and transposition

A target shape is scanned for its entry -1 when the operator runs (`resolveTarget_eq_ok`); the rule finds
the same entry if every entry that is -1 is known to be.
-/

namespace TensorGraph

variable {σ : Assignment} {drops : DropTest} {s s' : SymbolSupply}

/-! ## Target shapes -/

namespace Layout

/-- The sizes that entries which are not negative stand for. -/
def entrySizes (ws : List Int32) : List Nat := ws.map (·.toInt.toNat)

/-- What was found in the entries seen so far. -/
structure Scanned (seen : List Int32) (scan : TargetScan) : Prop where
  none : scan.inferred = none → (∀ w ∈ seen, 0 ≤ w.toInt) ∧ scan.known = volume (entrySizes seen)
  some : ∀ i, scan.inferred = some i → ∃ pre post, seen = pre ++ -1 :: post ∧ pre.length = i ∧
    (∀ w ∈ pre ++ post, 0 ≤ w.toInt) ∧ scan.known = volume (entrySizes (pre ++ post))

theorem volume_entrySizes_concat (ws : List Int32) (w : Int32) :
    volume (entrySizes (ws ++ [w])) = volume (entrySizes ws) * w.toInt.toNat := by
  simp [entrySizes, volume_append, volume]

theorem Scanned.step {seen : List Int32} {scan scan' : TargetScan} {w : Int32} (h : Scanned seen scan)
    (hstep : scan.step (w, seen.length) = .ok scan') : Scanned (seen ++ [w]) scan' := by
  unfold TargetScan.step at hstep
  dsimp only at hstep
  split at hstep
  · next hneg =>
    subst hneg
    split at hstep
    · cases hstep
    · next hnone =>
      cases hstep
      obtain ⟨hpos, hknown⟩ := h.none (by simpa using hnone)
      refine ⟨fun h => (by cases h), fun i hi => ?_⟩
      cases hi
      exact ⟨seen, [], rfl, rfl, by simpa using hpos, by simpa using hknown⟩
  · split at hstep
    · cases hstep
    · next hlt =>
      have hpos : 0 ≤ w.toInt := Int.not_lt.1 fun h => hlt (Int32.lt_iff_toInt_lt.2 h)
      split at hstep
      · cases hstep
        refine ⟨fun hnone => ?_, fun i hi => ?_⟩
        · obtain ⟨hall, hknown⟩ := h.none hnone
          refine ⟨List.forall_mem_append.2 ⟨hall, by simpa using hpos⟩, ?_⟩
          rw [volume_entrySizes_concat, ← hknown]
        · obtain ⟨pre, post, rfl, hlen, hall, hknown⟩ := h.some i hi
          refine ⟨pre, post ++ [w], by simp, hlen, ?_, ?_⟩
          · rw [← List.append_assoc]
            exact List.forall_mem_append.2 ⟨hall, by simpa using hpos⟩
          · rw [← List.append_assoc, volume_entrySizes_concat, ← hknown]
      · cases hstep

theorem Scanned.foldlM {rest seen : List Int32} {scan scan' : TargetScan} (h : Scanned seen scan)
    (hfold : (rest.zipIdx seen.length).foldlM TargetScan.step scan = .ok scan') : Scanned (seen ++ rest) scan' := by
  induction rest generalizing seen scan with
  | nil =>
    cases hfold
    simpa using h
  | cons w rest ih =>
    obtain ⟨next, hnext, hfold⟩ := bind_eq_ok.1 hfold
    have hlen : seen.length + 1 = (seen ++ [w]).length := by simp
    rw [hlen] at hfold
    simpa using ih (h.step hnext) hfold

/-- A resolved target has no entry -1, or one that stands for what is left over. -/
theorem resolveTarget_eq_ok {len : Nat} {ws : List Int32} {shape : List Nat} (h : resolveTarget len ws = .ok shape) :
    (∀ w ∈ ws, 0 ≤ w.toInt) ∧ shape = entrySizes ws ∨
      ∃ pre post, ws = pre ++ -1 :: post ∧ (∀ w ∈ pre ++ post, 0 ≤ w.toInt) ∧
        volume (entrySizes (pre ++ post)) ≠ 0 ∧
        shape = entrySizes pre ++ len / volume (entrySizes (pre ++ post)) :: entrySizes post := by
  obtain ⟨scan, hscan, h⟩ := bind_eq_ok.1 h
  have hscanned : Scanned ws scan := by
    have hstart : Scanned [] {} := ⟨fun _ => ⟨by simp, rfl⟩, fun i hi => (by cases hi)⟩
    simpa using hstart.foldlM hscan
  dsimp only at h
  split at h
  · next i hi =>
    obtain ⟨pre, post, rfl, hlen, hall, hknown⟩ := hscanned.some i hi
    split at h
    · cases h
    · next hdiv =>
      cases h
      rw [hknown] at hdiv ⊢
      refine .inr ⟨pre, post, rfl, hall, fun hzero => hdiv (.inl hzero), ?_⟩
      rw [← hlen]
      simp [entrySizes]
  · next hnone =>
    split at h
    · cases h
    · cases h
      exact .inl ⟨(hscanned.none hnone).1, rfl⟩

end Layout

/-- Entries that are not negative are related to sizes as they are to words. -/
theorem forall₂_entrySizes {R : SizeExpr → Int → Prop} {es : List SizeExpr} {ws : List Int32}
    (h : List.Forall₂ (fun e w => R e w.toInt) es ws) (hpos : ∀ w ∈ ws, 0 ≤ w.toInt) :
    List.Forall₂ (fun e (n : Nat) => R e n) es (Layout.entrySizes ws) := by
  induction h with
  | nil => exact .nil
  | cons he _ ih =>
    obtain ⟨hw, hrest⟩ := List.forall_mem_cons.1 hpos
    exact .cons ((Int.toNat_of_nonneg hw).symm ▸ he) (ih hrest)

/-! ## Counts -/

/-- Whether the expressions denote sizes that are words. -/
def DenoteCounts (σ : Assignment) : List SizeExpr → List Nat → Prop :=
  List.Forall₂ fun e n => e.Denotes σ n ∧ n ≤ 2147483647

theorem DenoteSizes.counts {es : List SizeExpr} {shape : List Nat} (h : DenoteSizes σ es shape)
    (hfit : Shape.Fits shape) : DenoteCounts σ es shape := by
  induction h with
  | nil => exact .nil
  | cons he _ ih =>
    obtain ⟨hn, hrest⟩ := List.forall_mem_cons.1 hfit
    exact .cons ⟨he, hn.2⟩ (ih hrest)

theorem DenoteWords.counts {es : List SizeExpr} {ws : List Int32} (h : DenoteWords σ es ws)
    (hpos : ∀ w ∈ ws, 0 ≤ w.toInt) : DenoteCounts σ es (Layout.entrySizes ws) := by
  have hword : List.Forall₂ (fun e (w : Int32) => e.Denotes σ w.toInt ∧ w.toInt ≤ 2147483647) es ws :=
    h.imp fun e w he => ⟨he, toInt_le w⟩
  have hcount := forall₂_entrySizes (R := fun e x => e.Denotes σ x ∧ x ≤ 2147483647) hword hpos
  exact hcount.imp fun e n he => ⟨he.1, by omega⟩

theorem DenoteCounts.sizes {es : List SizeExpr} {shape : List Nat} (h : DenoteCounts σ es shape) :
    DenoteSizes σ es shape := h.imp fun _ _ he => he.1

theorem prod_of_counts {es : List SizeExpr} {shape : List Nat} (h : DenoteCounts σ es shape) :
    SizeExpr.prod σ.valuation es = volume shape ∧ SizeExpr.Factors σ.valuation es := by
  induction h with
  | nil => exact ⟨rfl, by simp [SizeExpr.Factors]⟩
  | @cons e n es shape he _ ih =>
    refine ⟨?_, List.forall_mem_cons.2 ⟨⟨he.1.1, he.1.negatable (by omega)⟩, ih.2⟩⟩
    rw [SizeExpr.prod_cons, ih.1, he.1.2, volume, Int.natCast_mul]

theorem denotes_countOf (hdrops : SizeExpr.SoundDrops σ.valuation drops) {es : List SizeExpr} {shape : List Nat}
    (h : DenoteCounts σ es shape) : (ShapeRule.countOf drops es).Denotes σ (volume shape) := by
  refine SizeExpr.Denotes.simplifyBy hdrops ?_
  obtain ⟨hprod, hfactors⟩ := prod_of_counts h
  have hone : (SizeExpr.value 1).Denotes σ 1 := SizeExpr.denotes_value 1
  obtain ⟨hreg, -, hval⟩ := SizeExpr.foldl_mul_spec ⟨hone.1, hone.negatable (by decide)⟩ hfactors
  refine ⟨hreg, ?_⟩
  rw [hval, hprod, hone.2, Int.one_mul]

theorem denotes_quotientSize (hdrops : SizeExpr.SoundDrops σ.valuation drops) {total rest size : SizeExpr}
    {m n : Nat} (htotal : total.Denotes σ m) (hrest : rest.Denotes σ n) (hn : n ≠ 0)
    (h : ShapeRule.quotientSize drops total rest = .ok size) : size.Denotes σ (m / n : Nat) := by
  have hdiv : ((SizeExpr.div total rest).simplifyBy drops).Denotes σ (m / n : Nat) := by
    refine SizeExpr.Denotes.simplifyBy hdrops ?_
    have hquotient := htotal.div hrest (by omega)
    rwa [Int.fdiv_eq_ediv_of_nonneg _ (Int.natCast_nonneg n), ← Int.natCast_ediv] at hquotient
  unfold ShapeRule.quotientSize at h
  split at h
  · split at h
    · cases h
    · cases h
      exact hdiv
  · cases h
    exact hdiv

/-! ## Reshaping -/

/-- Whether every entry -1 of a target shape is known to be -1. -/
def KnownInferred (target : List SizeExpr) (ws : List Int32) : Prop :=
  ∀ i : Nat, ws[i]? = some (-1) → target[i]?.bind SizeExpr.asValue? = some (-1)

namespace ShapeRule

/-- The positions of the constant -1 in a target shape. -/
def inferredAt (target : List SizeExpr) : List Nat :=
  (List.range target.length).filter fun i => (target[i]?.bind SizeExpr.asValue?) == some (-1)

/-- Whether a constant of a target shape is below -1. -/
def hasNegative (target : List SizeExpr) : Bool := target.any fun e => match e.asValue? with
  | some v => v < -1
  | none => false

theorem mem_inferredAt {target : List SizeExpr} {i : Nat} :
    i ∈ inferredAt target ↔ target[i]?.bind SizeExpr.asValue? = some (-1) := by
  simp only [inferredAt, List.mem_filter, List.mem_range, beq_iff_eq, and_iff_right_iff_imp]
  intro h
  obtain ⟨e, he, -⟩ := Option.bind_eq_some_iff.1 h
  exact (List.getElem?_eq_some_iff.1 he).1

theorem resolveTarget_eq (drops : DropTest) (data? : Option (List SizeExpr)) (target : List SizeExpr) :
    resolveTarget drops data? target = (match inferredAt target, hasNegative target with
      | _, true | _ :: _ :: _, _ => throw .invalidValue
      | [i], _ => match data? with
        | some dims => do
          let size ← quotientSize drops (countOf drops dims) (countOf drops (target.eraseIdx i))
          pure (target.set i size)
        | none => do pure (target.set i (← freshSize))
      | [], _ => do
        if let some dims := data? then
          if knownDifferent (countOf drops dims) (countOf drops target) then
            throw .incompatibleShapes
        pure target) := rfl

/-- How the sizes for a target shape are found: there is no entry -1, or it gets the quotient of the counts of elements,
or a fresh symbol if the data have unknown dimensions. -/
inductive Resolves (drops : DropTest) (data? : Option (List SizeExpr)) (target : List SizeExpr) (s : SymbolSupply) :
    List SizeExpr → SymbolSupply → Prop
  | given (hnone : inferredAt target = []) : Resolves drops data? target s target s
  | quotient {i : Nat} {dims : List SizeExpr} {size : SizeExpr} (hone : inferredAt target = [i])
      (hdims : data? = some dims)
      (hsize : quotientSize drops (countOf drops dims) (countOf drops (target.eraseIdx i)) = .ok size) :
      Resolves drops data? target s (target.set i size) s
  | fresh {i : Nat} (hone : inferredAt target = [i]) (hdims : data? = none) :
      Resolves drops data? target s (target.set i (.posVar (s.nameOf (s.count + 1)))) { s with count := s.count + 1 }

theorem resolves_of_draws {data? : Option (List SizeExpr)} {target sizes : List SizeExpr}
    (h : Draws (resolveTarget drops data? target) s sizes s') : Resolves drops data? target s sizes s' := by
  rw [resolveTarget_eq] at h
  split at h
  · exact absurd h draws_throw
  · exact absurd h draws_throw
  · next i _ _ hone _ =>
    split at h
    · next dims =>
      obtain ⟨size, s₁, hsize, h⟩ := draws_bind.1 h
      obtain ⟨hquotient, rfl⟩ := draws_lift.1 hsize
      obtain ⟨rfl, rfl⟩ := draws_pure.1 h
      exact .quotient hone rfl hquotient
    · obtain ⟨size, s₁, hsize, h⟩ := draws_bind.1 h
      obtain ⟨rfl, rfl⟩ := draws_freshSize.1 hsize
      obtain ⟨rfl, rfl⟩ := draws_pure.1 h
      exact .fresh hone rfl
  · next hnone _ =>
    obtain ⟨rfl, rfl⟩ : target = sizes ∧ s = s' := by
      split at h
      · split at h
        · obtain ⟨_, _, hthrow, -⟩ := draws_bind.1 h
          exact absurd hthrow draws_throw
        · exact draws_pure.1 h
      · exact draws_pure.1 h
    exact .given hnone

end ShapeRule

theorem forall₂_append_cons {α β : Type} {R : α → β → Prop} {l : List α} {pre post : List β} {b : β}
    (h : List.Forall₂ R l (pre ++ b :: post)) : ∃ before a after, l = before ++ a :: after ∧
      before.length = pre.length ∧ List.Forall₂ R before pre ∧ List.Forall₂ R after post := by
  have hbefore := List.forall₂_take_append l pre (b :: post) h
  obtain ⟨a, after, -, hafter, hdrop⟩ := List.forall₂_cons_right_iff.1 (List.forall₂_drop_append l pre (b :: post) h)
  refine ⟨l.take pre.length, a, after, ?_, hbefore.length_eq, hbefore, hafter⟩
  rw [← hdrop, List.take_append_drop]

theorem forall₂_eraseIdx {α β : Type} {R : α → β → Prop} {l : List α} {pre post : List β} {b : β}
    (h : List.Forall₂ R l (pre ++ b :: post)) : List.Forall₂ R (l.eraseIdx pre.length) (pre ++ post) := by
  obtain ⟨before, a, after, rfl, hlen, hbefore, hafter⟩ := forall₂_append_cons h
  rw [← hlen, List.eraseIdx_append_of_length_le (Nat.le_refl _), Nat.sub_self]
  exact List.rel_append hbefore hafter

/-- The target shape with a size for the entry -1. -/
theorem forall₂_resolved {R : SizeExpr → Int → Prop} {target : List SizeExpr} {pre post : List Int32} {e : SizeExpr}
    {q : Nat} (h : List.Forall₂ (fun e w => R e w.toInt) target (pre ++ -1 :: post))
    (hpos : ∀ w ∈ pre ++ post, 0 ≤ w.toInt) (he : R e q) : List.Forall₂ (fun e (n : Nat) => R e n)
      (target.set pre.length e) (Layout.entrySizes pre ++ q :: Layout.entrySizes post) := by
  obtain ⟨before, x, after, rfl, hlen, hbefore, hafter⟩ := forall₂_append_cons h
  rw [← hlen, List.set_append_right _ _ (Nat.le_refl _), Nat.sub_self]
  exact List.rel_append (forall₂_entrySizes hbefore fun w hw => hpos w (List.mem_append_left _ hw))
    (.cons he (forall₂_entrySizes hafter fun w hw => hpos w (List.mem_append_right _ hw)))

theorem denoteSizes_resolved {target : List SizeExpr} {pre post : List Int32} {q : Nat} {e : SizeExpr}
    (h : DenoteWords σ target (pre ++ -1 :: post)) (hpos : ∀ w ∈ pre ++ post, 0 ≤ w.toInt) (he : e.Denotes σ q) :
    DenoteSizes σ (target.set pre.length e) (Layout.entrySizes pre ++ q :: Layout.entrySizes post) :=
  forall₂_resolved (R := fun e x => e.Denotes σ x) h hpos he

theorem eq_length_of_getElem? {pre post : List Int32} {i : Nat} (hpos : ∀ w ∈ pre ++ post, 0 ≤ w.toInt)
    (hi : (pre ++ -1 :: post)[i]? = some (-1)) : i = pre.length := by
  have hneg {w : Int32} (hw : w ∈ pre ++ post) : w ≠ -1 := by
    rintro rfl
    exact absurd (hpos _ hw) (by decide)
  rcases Nat.lt_trichotomy i pre.length with hlt | heq | hgt
  · rw [List.getElem?_append_left hlt] at hi
    exact absurd rfl (hneg (List.mem_append_left _ (List.mem_of_getElem? hi)))
  · exact heq
  · obtain ⟨k, rfl⟩ : ∃ k, i = pre.length + (k + 1) := ⟨i - pre.length - 1, by omega⟩
    rw [List.getElem?_append_right (by omega), Nat.add_sub_cancel_left, List.getElem?_cons_succ] at hi
    exact absurd rfl (hneg (List.mem_append_right _ (List.mem_of_getElem? hi)))

namespace ShapeRule

theorem inferredAt_eq {target : List SizeExpr} {k : Nat} (h : ∀ i ∈ inferredAt target, i = k) :
    inferredAt target = [] ∨ inferredAt target = [k] := by
  have hnodup : (inferredAt target).Nodup := List.nodup_range.filter _
  match hl : inferredAt target with
  | [] => exact .inl rfl
  | [i] => exact .inr (by rw [h i (by simp [hl])])
  | i :: j :: rest =>
    have hi := h i (by simp [hl])
    have hj := h j (by simp [hl])
    rw [hl, hi, hj] at hnodup
    simp at hnodup

theorem hasNegative_eq_false {es : List SizeExpr} {ws : List Int32} (h : HasWords σ es ws)
    (hws : ∀ w ∈ ws, -1 ≤ w.toInt) : hasNegative es = false := by
  refine List.any_eq_false.2 fun e he => ?_
  obtain ⟨i, hi⟩ := List.getElem?_of_mem he
  split
  · next v hv =>
    have hw := hws v (List.mem_of_getElem? (h.getElem?_eq (i := i) (by rw [hi]; exact hv)))
    have hone : (-1 : Int32).toInt = -1 := rfl
    simp only [decide_eq_true_eq, Int32.lt_iff_toInt_lt, hone]
    omega
  · exact Bool.false_ne_true

/-- What the rule sees of a target shape that the operator accepts: no entry -1, or the one that stands for what
is left over. In the first case the operator sees none either, if such entries are constant. -/
theorem inferredAt_of_run {es : List SizeExpr} {ws : List Int32} {len : Nat} {shape : List Nat}
    (hes : HasWords σ es ws) (hrun : Layout.resolveTarget len ws = .ok shape) : hasNegative es = false ∧
      (inferredAt es = [] ∧ (KnownInferred es ws → (∀ w ∈ ws, 0 ≤ w.toInt) ∧ shape = Layout.entrySizes ws) ∨
      ∃ pre post, inferredAt es = [pre.length] ∧ ws = pre ++ -1 :: post ∧ (∀ w ∈ pre ++ post, 0 ≤ w.toInt) ∧
        volume (Layout.entrySizes (pre ++ post)) ≠ 0 ∧ shape = Layout.entrySizes pre ++
          len / volume (Layout.entrySizes (pre ++ post)) :: Layout.entrySizes post) := by
  rcases Layout.resolveTarget_eq_ok hrun with ⟨hpos, hshape⟩ | ⟨pre, post, rfl, hpos, hne, hshape⟩
  · refine ⟨hasNegative_eq_false hes fun w hw => by have := hpos w hw; omega, .inl ⟨?_, fun _ => ⟨hpos, hshape⟩⟩⟩
    refine List.eq_nil_iff_forall_not_mem.2 fun i hi => ?_
    have hword := List.mem_of_getElem? (hes.getElem?_eq (mem_inferredAt.1 hi))
    exact absurd (hpos _ hword) (by decide)
  · have hneg : ∀ w ∈ pre ++ -1 :: post, -1 ≤ w.toInt := by
      intro w hw
      rcases List.mem_append.1 hw with hw | hw
      · have := hpos w (List.mem_append_left _ hw)
        omega
      · rcases List.mem_cons.1 hw with rfl | hw
        · decide
        · have := hpos w (List.mem_append_right _ hw)
          omega
    refine ⟨hasNegative_eq_false hes hneg, ?_⟩
    -- The rule sees the entry -1 if it is constant; if it is not, the rule sees none.
    rcases inferredAt_eq fun i hi => eq_length_of_getElem? hpos (hes.getElem?_eq (mem_inferredAt.1 hi)) with hnil | hone
    · refine .inl ⟨hnil, fun hknown => ?_⟩
      have hmem := mem_inferredAt.2 (hknown pre.length (by simp))
      rw [hnil] at hmem
      cases hmem
    · exact .inr ⟨pre, post, hone, rfl, hpos, hne, hshape⟩

/-- Without an entry -1 that the rule sees, there is none. -/
theorem entries_of_none {es : List SizeExpr} {ws : List Int32} {len : Nat} {shape : List Nat} (hes : HasWords σ es ws)
    (hrun : Layout.resolveTarget len ws = .ok shape) (hnone : inferredAt es = []) (hknown : KnownInferred es ws) :
    (∀ w ∈ ws, 0 ≤ w.toInt) ∧ shape = Layout.entrySizes ws := by
  rcases (inferredAt_of_run hes hrun).2 with ⟨-, hentries⟩ | ⟨pre, post, hone, -⟩
  · exact hentries hknown
  · rw [hnone] at hone
    cases hone

/-- The entry -1 that the rule sees is the one that stands for what is left over. -/
theorem entries_of_one {es : List SizeExpr} {ws : List Int32} {len i : Nat} {shape : List Nat} (hes : HasWords σ es ws)
    (hrun : Layout.resolveTarget len ws = .ok shape) (hone : inferredAt es = [i]) :
    ∃ pre post, ws = pre ++ -1 :: post ∧ pre.length = i ∧ (∀ w ∈ pre ++ post, 0 ≤ w.toInt) ∧
      volume (Layout.entrySizes (pre ++ post)) ≠ 0 ∧
      shape = Layout.entrySizes pre ++ len / volume (Layout.entrySizes (pre ++ post)) :: Layout.entrySizes post := by
  rcases (inferredAt_of_run hes hrun).2 with ⟨hnone, -⟩ | ⟨pre, post, hat, hws, hpos, hne, hshape⟩
  · rw [hone] at hnone
    cases hnone
  · cases hone.symm.trans hat
    exact ⟨pre, post, hws, rfl, hpos, hne, hshape⟩

end ShapeRule

theorem yields_resolveTarget (data? : Option (List SizeExpr)) {target : List SizeExpr} {ws : List Int32}
    {dataShape shape : List Nat} (hfit : Shape.Fits dataShape)
    (hrun : Layout.resolveTarget (volume dataShape) ws = .ok shape) (hknown : KnownInferred target ws) :
    Yields (fun drops => ShapeRule.resolveTarget drops data? target) fun σ drops dims =>
      SizeExpr.SoundDrops σ.valuation drops → (∀ ds, data? = some ds → DenoteSizes σ ds dataShape) →
      DenoteWords σ target ws → DenoteSizes σ dims shape := by
  -- A fresh symbol stands for the size of the result at the position that is inferred.
  refine fun s => ⟨fun _ => shape.getD ((ShapeRule.inferredAt target).headD 0) 0,
    fun drops dims s' ha σ hσ hdrops hdata htarget => ?_⟩
  cases ShapeRule.resolves_of_draws ha with
  | given hnone =>
    obtain ⟨hpos, rfl⟩ := ShapeRule.entries_of_none htarget.hasWords hrun hnone hknown
    exact (htarget.counts hpos).sizes
  | @quotient i ds size hone hdims hsize =>
    obtain ⟨pre, post, rfl, rfl, hpos, hne, rfl⟩ := ShapeRule.entries_of_one htarget.hasWords hrun hone
    have hcounts := DenoteWords.counts (forall₂_eraseIdx htarget) hpos
    refine denoteSizes_resolved htarget hpos ?_
    exact denotes_quotientSize hdrops (denotes_countOf hdrops ((hdata ds hdims).counts hfit))
      (denotes_countOf hdrops hcounts) hne hsize
  | fresh hone _ =>
    obtain ⟨pre, post, rfl, rfl, hpos, -, rfl⟩ := ShapeRule.entries_of_one htarget.hasWords hrun hone
    refine denoteSizes_resolved htarget hpos ?_
    have hsize := hσ (s.count + 1) (Nat.lt_succ_self _) (Nat.le_refl _)
    have hat : pre.length = (Layout.entrySizes pre).length := by simp [Layout.entrySizes]
    rw [hone, List.headD_cons, List.getD_eq_getElem?_getD, hat, List.getElem?_append_right (Nat.le_refl _),
      Nat.sub_self, List.getElem?_cons_zero, Option.getD_some] at hsize
    beta_reduce at hsize
    exact hsize ▸ SizeExpr.denotes_posVar _

theorem draws_reshapeBy {data target : TensorFacts} {es : List SizeExpr} (hes : target.values? = some es)
    {outs : List TensorFacts} (h : Draws (ShapeRule.reshapeBy drops [data, target]) s outs s') :
    ∃ dims, Draws (ShapeRule.resolveTarget drops data.dims? es) s dims s' ∧
      (outs = [.shape dims] ∨
        (∃ x, data.values? = some [x] ∧ dims = [] ∧ outs = [.scalar x]) ∨
        ∃ xs len, data.values? = some xs ∧ dims = [len] ∧ len.asValue? = some (Word.ofCount xs.length) ∧
          outs = [.vector xs]) := by
  rw [ShapeRule.reshapeBy, hes] at h
  obtain ⟨dims, s₁, hdims, h⟩ := draws_bind.1 h
  split at h
  · next x hx =>
    obtain ⟨rfl, rfl⟩ := draws_pure.1 h
    exact ⟨_, hdims, .inr (.inl ⟨x, hx, rfl, rfl⟩)⟩
  · next xs len hxs =>
    split at h
    · next hlen =>
      obtain ⟨rfl, rfl⟩ := draws_pure.1 h
      exact ⟨_, hdims, .inr (.inr ⟨xs, len, hxs, rfl, hlen, rfl⟩)⟩
    · obtain ⟨rfl, rfl⟩ := draws_pure.1 h
      exact ⟨_, hdims, .inl rfl⟩
  · obtain ⟨rfl, rfl⟩ := draws_pure.1 h
    exact ⟨_, hdims, .inl rfl⟩

theorem length_resolveTarget {len : Nat} {ws : List Int32} {shape : List Nat}
    (h : Layout.resolveTarget len ws = .ok shape) : shape.length = ws.length := by
  rcases Layout.resolveTarget_eq_ok h with ⟨-, rfl⟩ | ⟨pre, post, rfl, -, -, rfl⟩ <;> simp [Layout.entrySizes]

/-- The facts about the output of a reshaping, given sizes for the resolved target. -/
theorem describes_reshaped {data : TensorFacts} {dims : List SizeExpr} {outs : List TensorFacts} {v out : Value}
    (hdata : data.Describes σ v) (hfit : Shape.Fits v.shape) (hdims : DenoteSizes σ dims out.shape)
    (hints : ∀ x, v = .ints x → ∃ y, out = .ints y ∧ y.data = x.data)
    (houts : outs = [.shape dims] ∨ (∃ x, data.values? = some [x] ∧ dims = [] ∧ outs = [.scalar x]) ∨
      ∃ xs len, data.values? = some xs ∧ dims = [len] ∧ len.asValue? = some (Word.ofCount xs.length) ∧
        outs = [.vector xs]) : FirstDescribes σ outs out := by
  rcases houts with rfl | ⟨x, hx, rfl, rfl⟩ | ⟨xs, len, hxs, rfl, hlen, rfl⟩
  · exact firstDescribes_cons.2 hdims
  · obtain ⟨u, rfl, -, hu⟩ := hdata.elements hx
    obtain ⟨y, rfl, hy⟩ := hints u rfl
    have hshape : y.shape = [] := List.forall₂_nil_left_iff.1 hdims
    exact firstDescribes_cons.2 ⟨y, rfl, hshape, hy ▸ hu⟩
  · obtain ⟨u, rfl, hshape, hu⟩ := hdata.elements hxs
    obtain ⟨y, rfl, hy⟩ := hints u rfl
    obtain ⟨n, rest, hn, hrest, hyshape⟩ := List.forall₂_cons_left_iff.1 hdims
    obtain rfl := List.forall₂_nil_left_iff.1 hrest
    have hcount : xs.length ≤ 2147483647 := by
      rcases hshape with hshape | hshape
      · have hone : xs.length = 1 := by
          rw [hu.length_eq, Array.length_toList, u.size_data, hshape]
          rfl
        omega
      · exact (hfit _ (by simp [Value.shape, hshape])).2
    have hword := (SizeExpr.denotes_ofSize (σ := σ) hcount).2
    have hval : (n : Int) = (Word.ofCount xs.length).toInt := hn.value_eq hlen
    have hxs : n = xs.length := by
      rw [SizeExpr.ofSize, SizeExpr.meaning] at hword
      omega
    exact firstDescribes_cons.2 ⟨y, rfl, by rw [← hxs]; exact hyshape, hy ▸ hu⟩

theorem yields_reshape {data target : TensorFacts} {ws : Tensor Int32} {v out : Value} (hfit : Shape.Fits v.shape)
    (hrank : ws.shape.length = 1) (hwsfit : Shape.Fits ws.shape)
    (hrun : Layout.resolveTarget (volume v.shape) ws.data.toList = .ok out.shape)
    (hints : ∀ x, v = .ints x → ∃ y, out = .ints y ∧ y.data = x.data)
    (hknown : ∀ es, target.values? = some es → KnownInferred es ws.data.toList) :
    Yields (fun drops => ShapeRule.reshapeBy drops [data, target]) fun σ drops outs =>
      SizeExpr.SoundDrops σ.valuation drops → data.Describes σ v → target.Describes σ (.ints ws) →
      FirstDescribes σ outs out := by
  cases hes : target.values? with
  | some es =>
    intro s
    obtain ⟨sizes, hsizes⟩ := yields_resolveTarget data.dims? hfit hrun (hknown es hes) s
    refine ⟨sizes, fun drops outs s' ha σ hσ hdrops hdata htarget => ?_⟩
    obtain ⟨dims, hdims, houts⟩ := draws_reshapeBy hes ha
    obtain ⟨u, hu, -, hwords⟩ := htarget.elements hes
    cases hu
    have hden := hsizes drops dims s' hdims σ hσ hdrops (fun ds hds => hdata.sizes hfit hds) hwords
    exact describes_reshaped hdata hfit hden hints houts
  | none =>
    cases hlen : (target.size? 0).bind SizeExpr.asSize? with
    | none =>
      refine yields_of_draws fun σ drops s outs s' ha _ _ _ => ?_
      simp only [ShapeRule.reshapeBy, hes, hlen] at ha
      obtain ⟨rfl, -⟩ := draws_pure.1 ha
      exact firstDescribes_cons.2 trivial
    | some len =>
      have hrule (drops : DropTest) : ShapeRule.reshapeBy drops [data, target] =
          (do return [.shape (← ShapeRule.freshSizes len)]) := by
        simp only [ShapeRule.reshapeBy, hes, hlen]
      simp only [hrule]
      refine yields_freshSizes out.shape (fun σ drops es _ hes _ _ _ => firstDescribes_cons.2 hes)
        fun σ drops es hne _ _ htarget => absurd ?_ hne
      obtain ⟨d, hd, hsize⟩ := Option.bind_eq_some_iff.1 hlen
      obtain ⟨n, hn, hden⟩ := htarget.size hwsfit hd
      obtain ⟨k, hk⟩ := List.length_eq_one_iff.1 hrank
      have hcount : ws.data.toList.length = k := by
        rw [Array.length_toList, ws.size_data, hk]
        exact Nat.mul_one k
      rw [hden.size_eq hsize, length_resolveTarget hrun, hcount]
      simpa [Value.shape, hk] using hn.symm

/-! ## Transposition -/

/-- The shape of a permuted tensor. -/
theorem permuted_sizes (shape : List Nat) (perm : List Nat) :
    (perm.filterMap ((shape.zip (Shape.strides shape))[·]?)).map (·.1) = perm.filterMap (shape[·]?) := by
  refine (Shape.map_pick Prod.fst perm _).trans ?_
  rw [Layout.map_fst_dims]
  rfl

theorem denoteSizes_permuted {dims : List SizeExpr} {shape : List Nat} (h : DenoteSizes σ dims shape)
    (perm : List Nat) : DenoteSizes σ (perm.filterMap (dims[·]?)) (perm.filterMap (shape[·]?)) := by
  induction perm with
  | nil => exact .nil
  | cons i perm ih =>
    rw [List.filterMap_cons, List.filterMap_cons]
    by_cases hi : i < dims.length
    · have hi' : i < shape.length := h.length_eq ▸ hi
      rw [List.getElem?_eq_getElem hi, List.getElem?_eq_getElem hi']
      exact .cons (List.Forall₂.get h hi hi') ih
    · have hi' : ¬i < shape.length := h.length_eq ▸ hi
      rw [List.getElem?_eq_none (by omega), List.getElem?_eq_none (by omega)]
      exact ih

/-- The rule permutes known dimensions as the operator permutes the sizes. -/
theorem ShapeRule.transpose_known {perm? : Option (List Nat)} {perm : List Nat} {t : TensorFacts} {dims : List SizeExpr}
    (hdims : t.dims? = some dims) (hperm : Layout.resolvePermutation perm? dims.length = .ok perm) :
    ShapeRule.transpose perm? [t] = pure [.shape (perm.filterMap (dims[·]?))] := by
  unfold Layout.resolvePermutation at hperm
  dsimp only at hperm
  split at hperm
  · next hvalid =>
    cases hperm
    cases perm? with
    | none =>
      have hreversed : (List.range dims.length).reverse.filterMap (dims[·]?) = dims.reverse := by
        rw [List.filterMap_reverse]
        exact congrArg List.reverse (Shape.pick_range dims)
      simp only [transpose, hdims, Option.getD_none, hreversed]
    | some perm =>
      obtain ⟨hlen, hbound, hnodup⟩ := hvalid
      rw [Option.getD_some] at hlen hbound hnodup
      have hdistinct : distinctAxes dims.length perm = true := by
        simp only [distinctAxes, Bool.and_eq_true, List.all_eq_true, decide_eq_true_eq]
        exact ⟨hbound, hnodup⟩
      simp only [transpose, hdims, Option.getD_some]
      rw [if_neg (not_not_intro hlen), if_pos hdistinct]
  · cases hperm

theorem yields_transpose {perm? : Option (List Nat)} {perm : List Nat} {t : TensorFacts} {v out : Value}
    (hfit : Shape.Fits v.shape) (hperm : Layout.resolvePermutation perm? v.rank = .ok perm)
    (hshape : out.shape = perm.filterMap (v.shape[·]?)) :
    Yields (fun _ => ShapeRule.transpose perm? [t]) fun σ _ outs => t.Describes σ v → FirstDescribes σ outs out := by
  cases hdims : t.dims? with
  | some dims =>
    refine yields_of_draws fun σ drops s outs s' ha ht => ?_
    have hsizes := ht.sizes hfit hdims
    have hrank : dims.length = v.rank := hsizes.length_eq
    rw [ShapeRule.transpose_known hdims (hrank ▸ hperm)] at ha
    obtain ⟨rfl, -⟩ := draws_pure.1 ha
    refine firstDescribes_cons.2 ?_
    rw [TensorFacts.Describes, hshape]
    exact denoteSizes_permuted hsizes perm
  | none =>
    cases perm? with
    | none =>
      refine yields_of_draws fun σ drops s outs s' ha _ => ?_
      simp only [ShapeRule.transpose, hdims] at ha
      obtain ⟨rfl, -⟩ := draws_pure.1 ha
      exact firstDescribes_unknownInput out
    | some axes =>
      have hrule : ShapeRule.transpose (some axes) [t] =
          (do return [.shape (← ShapeRule.freshSizes axes.length)]) := by
        simp only [ShapeRule.transpose, hdims]
      have hout : axes.length = out.shape.length := by
        obtain ⟨rfl, hpermutes⟩ := Layout.resolvePermutation_eq_ok.1 hperm
        have hpick : out.shape.Perm v.shape := by
          rw [hshape]
          exact (hpermutes.filterMap (v.shape[·]?)).trans (.of_eq (Shape.pick_range v.shape))
        rw [hpick.length_eq]
        simpa [Value.rank] using hpermutes.length_eq
      simp only [hrule]
      exact yields_freshSizes out.shape (fun σ drops es _ hes _ => firstDescribes_cons.2 hes)
        fun σ drops es hne => absurd hout hne

end TensorGraph
