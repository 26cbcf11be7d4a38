import TensorGraph.Proofs.Facts.Supply
import TensorGraph.Proofs.Size.Symbols

/-!
# Symbols of inferred facts

The rules of built-in operators mention no symbols but those of the facts about their inputs and those that they
draw (`isConfined_of_isBuiltin`). A computation is `Confined` if its results have a property as soon as the names of
the symbols that it draws have another.
-/

namespace TensorGraph

variable {N : String → Prop} {α β : Type} {drops : DropTest}

/-! ## Facts over given symbols -/

namespace TensorFacts

/-- Whether the names of all symbols have a property. -/
def Over (N : String → Prop) : TensorFacts → Prop
  | .scalar x => x.Over N
  | .vector xs => ∀ x ∈ xs, x.Over N
  | .shape dims => ∀ d ∈ dims, d.Over N
  | .unknown _ => True

variable {t : TensorFacts}

theorem Over.mono {M : String → Prop} (h : t.Over N) (hsub : ∀ name, N name → M name) : t.Over M := by
  cases t with
  | scalar x => exact SizeExpr.Over.mono h hsub
  | vector xs => exact fun x hx => (h x hx).mono hsub
  | shape dims => exact fun d hd => (h d hd).mono hsub
  | unknown note => trivial

theorem Over.dims (h : t.Over N) {dims : List SizeExpr} (hdims : t.dims? = some dims) : ∀ d ∈ dims, d.Over N := by
  cases t with
  | scalar x =>
    cases hdims
    exact List.forall_mem_nil _
  | vector xs =>
    cases hdims
    exact List.forall_mem_singleton.2 trivial
  | shape dims' =>
    cases hdims
    exact h
  | unknown note => cases hdims

theorem Over.values (h : t.Over N) {xs : List SizeExpr} (hxs : t.values? = some xs) : ∀ x ∈ xs, x.Over N := by
  cases t with
  | scalar x =>
    cases hxs
    exact List.forall_mem_singleton.2 h
  | vector xs' =>
    cases hxs
    exact h
  | shape dims => cases hxs
  | unknown note => cases hxs

theorem Over.simplifyBy (drops : DropTest) (h : t.Over N) : (t.simplifyBy drops).Over N := by
  cases t with
  | scalar x => exact SizeExpr.over_simplifyBy drops h
  | vector xs => exact List.forall_mem_map.2 fun x hx => SizeExpr.over_simplifyBy drops (h x hx)
  | shape dims => exact List.forall_mem_map.2 fun d hd => SizeExpr.over_simplifyBy drops (h d hd)
  | unknown note => trivial

end TensorFacts

/-! ## Confined computations -/

/-- Whether the results have a property as soon as the names of all symbols that are drawn have another. -/
def Confined (N : String → Prop) (x : RuleM α) (Q : α → Prop) : Prop :=
  ∀ s a s', Draws x s a s' → (∀ k, s.count < k → k ≤ s'.count → N (s.nameOf k)) → Q a

section Computations

variable {x : RuleM α} {f : α → RuleM β} {P : α → Prop} {Q : β → Prop}

theorem confined_pure {a : α} (h : P a) : Confined N (pure a) P := by
  intro s a' s' ha _
  obtain ⟨rfl, -⟩ := draws_pure.1 ha
  exact h

theorem confined_throw (e : ShapeRuleError) : Confined N (throw e : RuleM α) P :=
  fun _ _ _ ha => absurd ha draws_throw

theorem confined_throw_bind {e : ShapeRuleError} : Confined N ((throw e : RuleM α) >>= f) Q := by
  intro s b s' hb _
  obtain ⟨_, _, hthrow, -⟩ := draws_bind.1 hb
  exact absurd hthrow draws_throw

theorem confined_lift {y : Except ShapeRuleError α} (h : ∀ a, y = .ok a → P a) : Confined N (liftM y) P := by
  intro s a s' ha _
  exact h a (draws_lift.1 ha).1

theorem confined_bind (hx : Confined N x P) (hxadv : Advances x) (hf : ∀ a, P a → Confined N (f a) Q)
    (hfadv : ∀ a, Advances (f a)) : Confined N (x >>= f) Q := by
  intro s b s' hb hN
  obtain ⟨a, s₁, ha, hb⟩ := draws_bind.1 hb
  have hfirst := ha.before hxadv
  have hrest := hb.before (hfadv a)
  -- Each part draws some of the symbols that are drawn in all.
  have hpre := hx s a s₁ ha fun k hk hk' => hN k hk (hk'.trans hrest.count)
  refine hf a hpre s₁ b s' hb fun k hk hk' => ?_
  rw [hfirst.nameOf]
  exact hN k (Nat.lt_of_le_of_lt hfirst.count hk) hk'

theorem confined_map {g : α → β} (hx : Confined N x P) (hg : ∀ a, P a → Q (g a)) :
    Confined N (do return g (← x)) Q := by
  intro s b s' hb hN
  obtain ⟨a, s₁, ha, hb⟩ := draws_bind.1 hb
  obtain ⟨rfl, rfl⟩ := draws_pure.1 hb
  exact hg a (hx s a s₁ ha hN)

theorem confined_lift_bind {y : Except ShapeRuleError α} (h : ∀ a, y = .ok a → Confined N (f a) Q) :
    Confined N (liftM y >>= f) Q := by
  intro s b s' hb hN
  obtain ⟨a, s₁, ha, hb⟩ := draws_bind.1 hb
  obtain ⟨hy, rfl⟩ := draws_lift.1 ha
  exact h a hy s b s' hb hN

theorem confined_freshSize : Confined N ShapeRule.freshSize fun e => e.Over N := by
  intro s e s' he hN
  obtain ⟨rfl, rfl⟩ := draws_freshSize.1 he
  exact hN _ (Nat.lt_succ_self _) (Nat.le_refl _)

theorem confined_freshSizes (n : Nat) : Confined N (ShapeRule.freshSizes n) fun es => ∀ e ∈ es, e.Over N := by
  intro s es s' hes hN
  obtain ⟨rfl, rfl⟩ := draws_freshSizes.1 hes
  refine List.forall_mem_map.2 fun i hi => hN _ (by omega) ?_
  have hlt := List.mem_range.1 hi
  dsimp only
  omega

theorem confined_foldlM {step : β → α → RuleM β} {l : List α} {b : β} (hadv : ∀ b a, Advances (step b a))
    (hstep : ∀ b, Q b → ∀ a ∈ l, Confined N (step b a) Q) (hb : Q b) : Confined N (l.foldlM step b) Q := by
  induction l generalizing b with
  | nil => exact confined_pure hb
  | cons a l ih =>
    rw [List.foldlM_cons]
    refine confined_bind (hstep b hb a List.mem_cons_self) (hadv b a)
      (fun b' hb' => ih (fun b hb a ha => hstep b hb a (List.mem_cons_of_mem _ ha)) hb')
      fun b' => advances_foldlM hadv l b'

theorem confined_mapM {l : List α} (hadv : ∀ a, Advances (f a)) (hf : ∀ a ∈ l, Confined N (f a) Q) :
    Confined N (l.mapM f) fun bs => ∀ b ∈ bs, Q b := by
  induction l with
  | nil => exact confined_pure (List.forall_mem_nil _)
  | cons a l ih =>
    obtain ⟨ha, hl⟩ := List.forall_mem_cons.1 hf
    rw [List.mapM_cons]
    exact confined_bind ha (hadv a) (fun b hb => confined_map (ih hl) fun bs hbs => List.forall_mem_cons.2 ⟨hb, hbs⟩)
      fun b => advances_bind (advances_mapM hadv l) fun _ => advances_pure _

end Computations

/-! ## Rules -/

/-- The results of rules whose facts are about given symbols. -/
abbrev AllOver (N : String → Prop) (ts : List TensorFacts) : Prop := ∀ t ∈ ts, t.Over N

variable {ts : List TensorFacts} {a b t : TensorFacts}

theorem confined_one (h : t.Over N) : Confined N (pure [t]) (AllOver N) :=
  confined_pure (List.forall_mem_singleton.2 h)

theorem allOver_two : AllOver N [a, b] ↔ a.Over N ∧ b.Over N := by
  rw [AllOver, List.forall_mem_cons, List.forall_mem_singleton]

theorem confined_unknownInput : Confined N (pure ShapeRule.unknownInput) (AllOver N) := confined_one trivial

theorem confined_sameAsFirst (h : AllOver N ts) : Confined N (ShapeRule.sameAsFirst ts) (AllOver N) := by
  unfold ShapeRule.sameAsFirst
  split
  · exact confined_throw _
  · next data _ =>
    split
    · next dims hdims => exact confined_one ((h data List.mem_cons_self).dims hdims)
    · exact confined_unknownInput

theorem confined_passFirst (h : AllOver N ts) : Confined N (ShapeRule.passFirst ts) (AllOver N) := by
  unfold ShapeRule.passFirst
  split
  · exact confined_throw _
  · exact confined_one (h _ List.mem_cons_self)

theorem over_broadcastDim {d e f : SizeExpr} (hd : d.Over N) (he : e.Over N)
    (h : ShapeRule.broadcastDim d e = .ok f) : f.Over N := by
  have hcase := ShapeRule.broadcastCase d e
  rw [h] at hcase
  cases hcase with
  | symbolic => exact ⟨hd, he⟩
  | alike | rightOne | left => exact hd
  | leftOne | right => exact he

theorem over_padTo {rank : Nat} {dims : List SizeExpr} (h : ∀ d ∈ dims, d.Over N) :
    ∀ d ∈ ShapeRule.padTo rank dims, d.Over N :=
  List.forall_mem_append.2 ⟨fun _ hd => (List.eq_of_mem_replicate hd) ▸ trivial, h⟩

theorem exists_of_mapM_ok {ε : Type} {f : α → Except ε β} {l : List α} {bs : List β} (h : l.mapM f = .ok bs) {b : β}
    (hb : b ∈ bs) : ∃ a ∈ l, f a = .ok b := by
  have hmem : some b ∈ l.map fun a => (f a).toOption := mapM_eq_ok.1 h ▸ List.mem_map_of_mem hb
  obtain ⟨a, ha, hab⟩ := List.mem_map.1 hmem
  exact ⟨a, ha, toOption_eq_some.1 hab⟩

theorem over_broadcastDims {ds es fs : List SizeExpr} (hds : ∀ d ∈ ds, d.Over N) (hes : ∀ e ∈ es, e.Over N)
    (h : ShapeRule.broadcastDims ds es = .ok fs) : ∀ f ∈ fs, f.Over N := by
  intro f hf
  obtain ⟨p, hp, hpf⟩ := exists_of_mapM_ok h hf
  obtain ⟨hd, he⟩ := List.of_mem_zip hp
  exact over_broadcastDim (over_padTo hds _ hd) (over_padTo hes _ he) hpf

theorem confined_broadcastPair (h : AllOver N ts) : Confined N (ShapeRule.broadcastPair ts) (AllOver N) := by
  unfold ShapeRule.broadcastPair
  split
  · next a b =>
    obtain ⟨ha, hb⟩ := allOver_two.1 h
    split
    · next as bs has hbs =>
      exact confined_lift_bind fun ds hds => confined_one (over_broadcastDims (ha.dims has) (hb.dims hbs) hds)
    · exact confined_unknownInput
  · exact confined_throw _

theorem confined_broadcastAll_go {acc : List SizeExpr} (hacc : ∀ d ∈ acc, d.Over N) (h : AllOver N ts) :
    Confined N (ShapeRule.broadcastAll.go acc ts) (AllOver N) := by
  induction ts generalizing acc with
  | nil => exact confined_one hacc
  | cons t ts ih =>
    obtain ⟨ht, hts⟩ := List.forall_mem_cons.1 h
    rw [ShapeRule.broadcastAll.go]
    split
    · next dims hdims => exact confined_lift_bind fun ds hds => ih (over_broadcastDims hacc (ht.dims hdims) hds) hts
    · exact confined_unknownInput

theorem confined_broadcastAll (h : AllOver N ts) : Confined N (ShapeRule.broadcastAll ts) (AllOver N) := by
  unfold ShapeRule.broadcastAll
  split
  · exact confined_throw _
  · exact confined_broadcastAll_go (List.forall_mem_nil _) h

theorem over_reduceDims (reduced : List Nat) (keepDims : Bool) {dims : List SizeExpr} (h : ∀ d ∈ dims, d.Over N) :
    ∀ d ∈ ShapeRule.reduceDims reduced keepDims dims, d.Over N := by
  intro d hd
  obtain ⟨⟨e, i⟩, hmem, hsome⟩ := List.mem_filterMap.1 hd
  dsimp only at hsome
  split_ifs at hsome
  · exact Option.some.inj hsome ▸ h e (List.fst_mem_of_mem_zipIdx hmem)
  · exact Option.some.inj hsome ▸ trivial

theorem confined_reduction (axes : Option (List Int)) (keepDims : Bool) (h : AllOver N ts) :
    Confined N (ShapeRule.reduction axes keepDims ts) (AllOver N) := by
  unfold ShapeRule.reduction
  split
  · next data =>
    have hdata := List.forall_mem_singleton.1 h
    split
    · exact confined_unknownInput
    · next dims hdims =>
      have hreduced (reduced : List Nat) : Confined N
          (pure [TensorFacts.shape (ShapeRule.reduceDims reduced keepDims dims)]) (AllOver N) :=
        confined_one (over_reduceDims reduced keepDims (hdata.dims hdims))
      dsimp only
      split
      · exact confined_lift_bind fun reduced _ => hreduced reduced
      · exact hreduced _
  · exact confined_throw _

theorem confined_matMul (h : AllOver N ts) : Confined N (ShapeRule.matMul ts) (AllOver N) := by
  unfold ShapeRule.matMul
  split
  · next a b =>
    obtain ⟨ha, hb⟩ := allOver_two.1 h
    split
    · next as bs has hbs =>
      have has := ha.dims has
      have hbs := hb.dims hbs
      split
      · next ka m aBatch n kb bBatch haseq hbseq =>
        have hrows : ∀ d ∈ ka :: m :: aBatch, d.Over N := fun d hd => has d (List.mem_reverse.1 (haseq ▸ hd))
        have hcols : ∀ d ∈ n :: kb :: bBatch, d.Over N := fun d hd => hbs d (List.mem_reverse.1 (hbseq ▸ hd))
        have hout : Confined N (do
            let batch ← (ShapeRule.broadcastDims aBatch.reverse bBatch.reverse : RuleM _)
            pure [TensorFacts.shape (batch ++ [m, n])]) (AllOver N) := by
          refine confined_lift_bind fun batch hbatch => confined_one (List.forall_mem_append.2 ⟨?_, ?_⟩)
          · refine over_broadcastDims (fun d hd => hrows d ?_) (fun d hd => hcols d ?_) hbatch
            · exact List.mem_cons_of_mem _ (List.mem_cons_of_mem _ (List.mem_reverse.1 hd))
            · exact List.mem_cons_of_mem _ (List.mem_cons_of_mem _ (List.mem_reverse.1 hd))
          · exact List.forall_mem_cons.2 ⟨hrows m (by simp), List.forall_mem_singleton.2 (hcols n (by simp))⟩
        dsimp only
        split
        · split
          · exact confined_throw_bind
          · exact hout
        · exact hout
      · exact confined_throw _
    · exact confined_unknownInput
  · exact confined_throw _

theorem over_sizeOp (op : SizeOp) {d e : SizeExpr} (hd : d.Over N) (he : e.Over N) : (op.apply drops d e).Over N := by
  cases op <;> exact SizeExpr.over_simplifyBy drops ⟨hd, he⟩

theorem over_zipElements {f : SizeExpr → SizeExpr → SizeExpr} (hf : ∀ d e, d.Over N → e.Over N → (f d e).Over N)
    {xs ys zs : List SizeExpr} (hxs : ∀ x ∈ xs, x.Over N) (hys : ∀ y ∈ ys, y.Over N)
    (h : ShapeRule.zipElements f xs ys = some zs) : ∀ z ∈ zs, z.Over N := by
  unfold ShapeRule.zipElements at h
  split at h
  · cases h
    intro z hz
    obtain ⟨i, hi, rfl⟩ := List.getElem_of_mem hz
    rw [List.getElem_zipWith]
    exact hf _ _ (hxs _ (List.getElem_mem _)) (hys _ (List.getElem_mem _))
  · split at h
    · cases h
      exact List.forall_mem_map.2 fun y hy => hf _ _ (List.forall_mem_singleton.1 hxs) (hys y hy)
    · cases h
      exact List.forall_mem_map.2 fun x hx => hf _ _ (hxs x hx) (List.forall_mem_singleton.1 hys)
    · cases h

theorem confined_arith (op : SizeOp) (h : AllOver N ts) : Confined N (ShapeRule.arithBy drops op ts) (AllOver N) := by
  unfold ShapeRule.arithBy
  split
  · next a b =>
    obtain ⟨ha, hb⟩ := allOver_two.1 h
    split
    · next x y hx hy =>
      refine confined_one (over_sizeOp op ?_ ?_)
      · cases a <;> cases hx
        exact ha
      · cases b <;> cases hy
        exact hb
    · split
      · next xs ys hxs hys =>
        split
        · next zs hzs =>
          exact confined_one (over_zipElements (fun d e => over_sizeOp op) (ha.values hxs) (hb.values hys) hzs)
        · exact confined_throw _
      · exact confined_broadcastPair h
  · exact confined_throw _

theorem confined_negation (h : AllOver N ts) : Confined N (ShapeRule.negationBy drops ts) (AllOver N) := by
  unfold ShapeRule.negationBy
  split
  · next x =>
    have hx : (SizeExpr.neg x).Over N := h _ List.mem_cons_self
    exact confined_one (SizeExpr.over_simplifyBy drops hx)
  · next xs =>
    have hxs : ∀ x ∈ xs, (SizeExpr.neg x).Over N := h _ List.mem_cons_self
    exact confined_one (List.forall_mem_map.2 fun x hx => SizeExpr.over_simplifyBy drops (hxs x hx))
  · exact confined_sameAsFirst h
  · exact confined_throw _

theorem over_countOf {dims : List SizeExpr} (h : ∀ d ∈ dims, d.Over N) : (ShapeRule.countOf drops dims).Over N :=
  SizeExpr.over_simplifyBy drops (SizeExpr.over_foldl .mul SizeExpr.over_value h)

theorem over_quotientSize {total rest e : SizeExpr} (htotal : total.Over N) (hrest : rest.Over N)
    (h : ShapeRule.quotientSize drops total rest = .ok e) : e.Over N := by
  have hquotient : ((SizeExpr.div total rest).simplifyBy drops).Over N :=
    SizeExpr.over_simplifyBy drops ⟨htotal, hrest⟩
  unfold ShapeRule.quotientSize at h
  split at h
  · split_ifs at h
    cases h
    exact hquotient
  · cases h
    exact hquotient

theorem over_set {es : List SizeExpr} {e : SizeExpr} {i : Nat} (hes : ∀ x ∈ es, x.Over N) (he : e.Over N) :
    ∀ x ∈ es.set i e, x.Over N := by
  intro x hx
  rcases List.mem_or_eq_of_mem_set hx with hx | rfl
  · exact hes x hx
  · exact he

theorem confined_resolveTarget {data? : Option (List SizeExpr)} {target : List SizeExpr}
    (hdata : ∀ dims, data? = some dims → ∀ d ∈ dims, d.Over N) (htarget : ∀ e ∈ target, e.Over N) :
    Confined N (ShapeRule.resolveTarget drops data? target) fun dims => ∀ d ∈ dims, d.Over N := by
  unfold ShapeRule.resolveTarget
  dsimp only
  split
  · exact confined_throw _
  · exact confined_throw _
  · next i _ _ =>
    split
    · next dims =>
      refine confined_lift_bind fun size hsize => confined_pure (over_set htarget ?_)
      exact over_quotientSize (over_countOf (hdata dims rfl))
        (over_countOf fun e he => htarget e (List.mem_of_mem_eraseIdx he)) hsize
    · exact confined_map confined_freshSize fun e he => over_set htarget he
  · split
    · split
      · exact confined_throw_bind
      · exact confined_pure htarget
    · exact confined_pure htarget

theorem confined_reshape (h : AllOver N ts) : Confined N (ShapeRule.reshapeBy drops ts) (AllOver N) := by
  unfold ShapeRule.reshapeBy
  split
  · next data target =>
    obtain ⟨hdata, htarget⟩ := allOver_two.1 h
    split
    · split
      · exact confined_map (confined_freshSizes _) fun es hes => List.forall_mem_singleton.2 hes
      · exact confined_one trivial
    · next es hes =>
      refine confined_bind (confined_resolveTarget (fun dims => hdata.dims) (htarget.values hes))
        (advances_resolveTarget _ _ _) (fun dims hdims => ?_) fun dims => ?_
      · split
        · next x hx =>
          have hx : x.Over N := hdata.values hx x List.mem_cons_self
          exact confined_one hx
        · next xs len _ hxs =>
          split
          · exact confined_one (hdata.values hxs)
          · exact confined_one hdims
        · exact confined_one hdims
      · split
        · exact advances_pure _
        · split <;> exact advances_pure _
        · exact advances_pure _
  · exact confined_throw _

theorem confined_transpose (perm? : Option (List Nat)) (h : AllOver N ts) :
    Confined N (ShapeRule.transpose perm? ts) (AllOver N) := by
  unfold ShapeRule.transpose
  split
  · next input =>
    have hinput := List.forall_mem_singleton.1 h
    split
    · exact confined_map (confined_freshSizes _) fun es hes => List.forall_mem_singleton.2 hes
    · exact confined_unknownInput
    · next dims hdims => exact confined_one fun d hd => hinput.dims hdims d (List.mem_reverse.1 hd)
    · next dims perm hdims =>
      split
      · exact confined_throw _
      · split
        · refine confined_one fun d hd => ?_
          obtain ⟨i, -, hi⟩ := List.mem_filterMap.1 hd
          exact hinput.dims hdims d (List.mem_of_getElem? hi)
        · exact confined_throw _
  · exact confined_throw _

theorem over_appendDims {i : Nat} {acc dims es : List SizeExpr} (hacc : ∀ d ∈ acc, d.Over N)
    (hdims : ∀ d ∈ dims, d.Over N) (h : ShapeRule.appendDims drops i acc dims = .ok es) : ∀ e ∈ es, e.Over N := by
  unfold ShapeRule.appendDims at h
  split at h
  · cases h
  · intro e he
    obtain ⟨⟨⟨d, d'⟩, j⟩, hmem, hde⟩ := exists_of_mapM_ok h he
    obtain ⟨hd, hd'⟩ := List.of_mem_zip (List.fst_mem_of_mem_zipIdx hmem)
    dsimp only at hde
    split_ifs at hde
    · cases hde
      exact SizeExpr.over_simplifyBy drops ⟨hacc d hd, hdims d' hd'⟩
    · cases hde
      exact hacc _ hd

theorem confined_appendFacts {i : Nat} {acc : List SizeExpr} (hacc : ∀ d ∈ acc, d.Over N) (ht : t.Over N) :
    Confined N (ShapeRule.appendFacts drops i acc t) fun dims => ∀ d ∈ dims, d.Over N := by
  unfold ShapeRule.appendFacts
  split
  · next dims hdims => exact confined_lift fun es hes => over_appendDims hacc (ht.dims hdims) hes
  · refine confined_map confined_freshSize fun extra hextra d hd => ?_
    obtain ⟨j, hj, rfl⟩ := List.getElem_of_mem hd
    rw [List.getElem_modify]
    split
    · exact SizeExpr.over_simplifyBy drops ⟨hacc _ (List.getElem_mem _), hextra⟩
    · exact hacc _ (List.getElem_mem _)

theorem over_vectors {vectors : List (List SizeExpr)} (h : AllOver N ts)
    (hvectors : ts.mapM TensorFacts.asVector? = some vectors) : ∀ x ∈ vectors.flatten, x.Over N := by
  intro x hx
  obtain ⟨xs, hxs, hx⟩ := List.mem_flatten.1 hx
  have hall := forall₂_of_mapM hvectors (R := fun t xs => t.asVector? = some xs) fun t _ xs hxs => hxs
  obtain ⟨t, ht, htxs⟩ := exists_of_forall₂ hall hxs
  cases t <;> cases htxs
  exact h _ ht x hx

theorem confined_concat (axis : Int) (h : AllOver N ts) : Confined N (ShapeRule.concatBy drops axis ts) (AllOver N) := by
  unfold ShapeRule.concatBy
  split
  · exact confined_throw _
  · next first rest =>
    split
    · exact confined_unknownInput
    · next dims hdims =>
      refine confined_lift_bind fun i _ => ?_
      split
      · next vectors hvectors => exact confined_one (over_vectors h hvectors)
      · obtain ⟨hfirst, hrest⟩ := List.forall_mem_cons.1 h
        refine confined_map (confined_foldlM (advances_appendFacts drops i)
          (fun acc hacc t ht => confined_appendFacts hacc (hrest t ht)) (hfirst.dims hdims)) fun out hout => ?_
        exact List.forall_mem_singleton.2 hout

theorem confined_shapeOf (h : AllOver N ts) : Confined N (ShapeRule.shapeOf ts) (AllOver N) := by
  unfold ShapeRule.shapeOf
  split
  · next input =>
    split
    · next dims hdims => exact confined_one ((List.forall_mem_singleton.1 h).dims hdims)
    · exact confined_map confined_freshSize fun e he => List.forall_mem_singleton.2 (List.forall_mem_singleton.2 he)
  · exact confined_throw _

theorem confined_sizeOf (index : Nat) (h : AllOver N ts) : Confined N (ShapeRule.sizeOf index ts) (AllOver N) := by
  unfold ShapeRule.sizeOf
  split
  · next input =>
    split
    · next dims hdims =>
      split
      · next d hd => exact confined_one ((List.forall_mem_singleton.1 h).dims hdims d (List.mem_of_getElem? hd))
      · exact confined_throw _
    · exact confined_map confined_freshSize fun e he => List.forall_mem_singleton.2 he
  · exact confined_throw _

theorem over_specifyDim {d e : SizeExpr} {spec : Option Nat} (hd : d.Over N)
    (h : ShapeRule.specifyDim d spec = .ok e) : e.Over N := by
  unfold ShapeRule.specifyDim at h
  split at h
  · split_ifs at h
    cases h
    exact hd
  · cases h
    trivial
  · cases h
    exact hd

theorem confined_specifyShape (spec : List (Option Nat)) (h : AllOver N ts) :
    Confined N (ShapeRule.specifyShape spec ts) (AllOver N) := by
  unfold ShapeRule.specifyShape
  split
  · next input =>
    have hinput := List.forall_mem_singleton.1 h
    split
    · refine confined_map (P := fun es : List SizeExpr => ∀ e ∈ es, e.Over N)
        (confined_mapM (fun req => ?_) fun req _ => ?_)
        fun es hes => List.forall_mem_singleton.2 hes
      · cases req with
        | some size => exact advances_pure _
        | none => exact advances_freshSize
      · cases req with
        | some size => exact confined_pure trivial
        | none => exact confined_freshSize
    · next dims hdims =>
      split
      · exact confined_throw _
      · refine confined_map (P := fun es : List SizeExpr => ∀ e ∈ es, e.Over N)
          (confined_mapM (fun _ => advances_lift _) fun p hp => ?_) fun es hes => List.forall_mem_singleton.2 ?_
        · exact confined_lift fun e he => over_specifyDim (hinput.dims hdims _ (List.of_mem_zip hp).1) he
        · split
          · exact hes
          · exact hinput
  · exact confined_throw _

theorem confined_fill (h : AllOver N ts) : Confined N (ShapeRule.fill ts) (AllOver N) := by
  unfold ShapeRule.fill
  split
  · next shape =>
    split
    · exact confined_throw _
    · split
      · next values hvalues =>
        split
        · exact confined_throw _
        · exact confined_one ((List.forall_mem_singleton.1 h).values hvalues)
      · split
        · exact confined_map (confined_freshSizes _) fun es hes => List.forall_mem_singleton.2 hes
        · exact confined_one trivial
  · exact confined_throw _

/-! ## Operators -/

/-- Whether a rule draws all symbols from the supply that are not symbols of its inputs. -/
structure ShapeRule.IsConfined (rule : ShapeRule) : Prop where
  advances : ∀ ts, Advances (rule ts)
  confined : ∀ N ts, AllOver N ts → Confined N (rule ts) (AllOver N)

/-- The rules of built-in operators draw all symbols from the supply that are not symbols of their inputs. -/
theorem Operator.isConfined_of_isBuiltin {op : Operator} (hbuiltin : op.IsBuiltin) {rule : ShapeRule}
    (h : op.shapeRuleBy? drops = some rule) : ShapeRule.IsConfined rule := by
  refine ⟨advances_rule hbuiltin h, fun N ts hts => ?_⟩
  cases op with
  | elementwise op =>
    cases h
    unfold ScalarFn.shapeRuleBy
    split
    · exact confined_negation hts
    · split
      · exact confined_sameAsFirst hts
      · cases op.fn.sizeOp? with
        | some op' => exact confined_arith op' hts
        | none => exact confined_broadcastPair hts
  | fused op =>
    cases h
    unfold FusedElementwise.shapeRule
    split
    · exact confined_throw _
    · exact confined_broadcastAll hts
  | matMul => cases h; exact confined_matMul hts
  | reduce op => cases h; exact confined_reduction _ _ hts
  | softmax op => cases h; exact confined_sameAsFirst hts
  | reshape => cases h; exact confined_reshape hts
  | transpose perm => cases h; exact confined_transpose perm hts
  | concat axis => cases h; exact confined_concat axis hts
  | cast type =>
    cases type with
    | float32 => cases h; exact confined_sameAsFirst hts
    | int32 => cases h; exact confined_passFirst hts
  | identity => cases h; exact confined_passFirst hts
  | shape => cases h; exact confined_shapeOf hts
  | size index => cases h; exact confined_sizeOf index hts
  | specifyShape spec => cases h; exact confined_specifyShape spec hts
  | fill x => cases h; exact confined_fill hts
  | assertAll message => cases h; exact confined_passFirst hts
  | custom op => exact hbuiltin.elim

theorem Operator.isConfined_outputFacts {op : Operator}
    (h : ∀ rule, op.shapeRuleBy? drops = some rule → ShapeRule.IsConfined rule) :
    ShapeRule.IsConfined (op.outputFactsBy drops) := by
  constructor
  · intro ts
    unfold outputFactsBy
    split
    · next rule hrule => exact advances_bind ((h rule hrule).advances ts) fun _ => advances_pure _
    · exact advances_pure _
  · intro N ts hts
    unfold outputFactsBy
    split
    · next rule hrule =>
      exact confined_map ((h rule hrule).confined N ts hts) fun outs houts =>
        List.forall_mem_map.2 fun t ht => (houts t ht).simplifyBy drops
    · exact confined_pure (List.forall_mem_nil _)

end TensorGraph
