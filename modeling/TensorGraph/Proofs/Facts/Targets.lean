import TensorGraph.Proofs.Facts.ExactSizes
import TensorGraph.Proofs.Facts.Reshaping
import TensorGraph.Proofs.Operator.Results

/-!
# Target shapes with exact sizes

The rule for reshaping finds the entry -1 of a target shape by its form, the operator by its value. If every entry
that is -1 at run time is the constant -1, and simplification keeps the counts of elements and the quotient that
the rule forms, then the rule returns facts that match whatever the operator returns (`reshape_agrees`). An entry -1
that is no constant is missed by the rule (`resolveTarget_missed`).
-/

namespace TensorGraph

variable {σ : Assignment} {s s' : SymbolSupply}

/-! ## Entries -/

theorem HasWords.sizes {es : List SizeExpr} {ws : List Int32} (h : HasWords σ es ws) (hpos : ∀ w ∈ ws, 0 ≤ w.toInt) :
    HasSizes σ es (Layout.entrySizes ws) := forall₂_entrySizes (R := fun e x => e.exactValue? σ = some x) h hpos

theorem hasSizes_resolved {es : List SizeExpr} {pre post : List Int32} {q : Nat} {e : SizeExpr}
    (h : HasWords σ es (pre ++ -1 :: post)) (hpos : ∀ w ∈ pre ++ post, 0 ≤ w.toInt)
    (he : e.exactValue? σ = some (q : Int)) :
    HasSizes σ (es.set pre.length e) (Layout.entrySizes pre ++ q :: Layout.entrySizes post) :=
  forall₂_resolved (R := fun e x => e.exactValue? σ = some x) h hpos he

/-! ## Counts -/

/-- Whether simplification keeps the counts of elements that the rule forms for data of the given sizes and a
target shape. -/
structure CountsKept (σ : Assignment) (dims target : List SizeExpr) : Prop where
  data : (ShapeRule.countExpr dims).Kept σ
  whole : ShapeRule.inferredAt target = [] → (ShapeRule.countExpr target).Kept σ
  rest : ∀ i ∈ ShapeRule.inferredAt target, (ShapeRule.countExpr (target.eraseIdx i)).Kept σ

/-- Whether simplification keeps the counts, and their quotient where an entry -1 stands for it. -/
structure TargetKept (σ : Assignment) (dims target : List SizeExpr) : Prop extends CountsKept σ dims target where
  quotient : ∀ i ∈ ShapeRule.inferredAt target, (SizeExpr.div (ShapeRule.countOf boundsDominate dims)
    (ShapeRule.countOf boundsDominate (target.eraseIdx i))).Kept σ

theorem quotientSize_eq_ok {total rest : SizeExpr} {m n : Nat} (htotal : total.exactValue? σ = some (m : Int))
    (hrest : rest.exactValue? σ = some (n : Int)) (hn : n ≠ 0) (hdvd : n ∣ m) :
    ShapeRule.quotientSize boundsDominate total rest = .ok (SizeExpr.div total rest).simplify := by
  unfold ShapeRule.quotientSize
  split
  · next t r ht hr =>
    have hm := SizeExpr.eq_of_asValue? htotal ht
    have hr := SizeExpr.eq_of_asValue? hrest hr
    refine if_neg ?_
    rintro (hzero | hrem)
    · rw [hzero] at hr
      exact hn (Int.ofNat.inj hr)
    · refine hrem (Int32.toInt_inj.1 ?_)
      rw [Int32.toInt_mod, ← hm, ← hr]
      exact Int.tmod_eq_zero_of_dvd (Int.natCast_dvd_natCast.2 hdvd)
  · rfl

theorem exactValue?_quotient {total rest : SizeExpr} {m n : Nat} (htotal : total.exactValue? σ = some (m : Int))
    (hrest : rest.exactValue? σ = some (n : Int)) (hn : n ≠ 0) (hkept : (SizeExpr.div total rest).Kept σ) :
    (SizeExpr.div total rest).simplify.exactValue? σ = some ((m / n : Nat) : Int) := by
  refine hkept _ ?_
  simp [SizeExpr.exactValue?, htotal, hrest, hn, Int.fdiv_eq_ediv_of_nonneg]

/-- The entries other than the entry -1 multiply to a divisor of the number of elements. -/
theorem dvd_of_volume_eq {pre post : List Int32} {len : Nat}
    (h : volume (Layout.entrySizes pre ++ len / volume (Layout.entrySizes (pre ++ post)) :: Layout.entrySizes post) =
      len) : volume (Layout.entrySizes (pre ++ post)) ∣ len := by
  rw [volume_append, volume] at h
  refine ⟨len / volume (Layout.entrySizes (pre ++ post)), ?_⟩
  conv_lhs => rw [← h]
  rw [Layout.entrySizes, Layout.entrySizes, Layout.entrySizes, List.map_append, volume_append]
  ac_rfl

/-! ## The rule -/

variable {data? : Option (List SizeExpr)} {dims es : List SizeExpr} {ws : List Int32} {dataShape shape : List Nat}

/-- The counts of elements before and after are not known to differ. -/
theorem knownDifferent_counts (hdims : HasSizes σ dims dataShape) (hkept : CountsKept σ dims es)
    (hes : HasWords σ es ws) (hnil : ShapeRule.inferredAt es = [])
    (hknown : (ShapeRule.countOf boundsDominate es).asValue?.isSome → (∀ w ∈ ws, 0 ≤ w.toInt) ∧
      volume (Layout.entrySizes ws) = volume dataShape) :
    ShapeRule.knownDifferent (ShapeRule.countOf boundsDominate dims) (ShapeRule.countOf boundsDominate es) = false := by
  cases hc : (ShapeRule.countOf boundsDominate es).asValue? with
  | none =>
    unfold ShapeRule.knownDifferent
    rw [hc]
    split
    · next h => cases h
    · rfl
  | some c =>
    obtain ⟨hpos, hvolume⟩ := hknown (by rw [hc]; rfl)
    have hcount := (hes.sizes hpos).countOf (hkept.whole hnil)
    rw [hvolume] at hcount
    exact ShapeRule.knownDifferent_eq_false (hdims.countOf hkept.data) hcount

/-- The rule accepts the target shapes that the operator accepts. -/
theorem succeeds_resolveTarget (hes : HasWords σ es ws)
    (hrun : Layout.resolveTarget (volume dataShape) ws = .ok shape) (hvolume : volume shape = volume dataShape)
    (hdata : ∀ dims, data? = some dims → HasSizes σ dims dataShape ∧ CountsKept σ dims es ∧
      ((ShapeRule.countOf boundsDominate es).asValue?.isSome → KnownInferred es ws)) :
    Succeeds (ShapeRule.resolveTarget boundsDominate data? es) := by
  obtain ⟨hnegative, hinferred⟩ := ShapeRule.inferredAt_of_run hes hrun
  rw [ShapeRule.resolveTarget_eq, hnegative]
  rcases hinferred with ⟨hnil, hentries⟩ | ⟨pre, post, hone, rfl, hpos, hne, rfl⟩
  · rw [hnil]
    cases data? with
    | none => exact succeeds_pure es
    | some dims =>
      obtain ⟨hdims, hkept, hknown⟩ := hdata dims rfl
      have hsame := knownDifferent_counts hdims hkept hes hnil fun hc => by
        obtain ⟨hpos, rfl⟩ := hentries (hknown hc)
        exact ⟨hpos, hvolume⟩
      simp only [hsame]
      exact succeeds_pure es
  · rw [hone]
    cases data? with
    | none => exact succeeds_bind succeeds_freshSize fun _ => succeeds_pure _
    | some dims =>
      obtain ⟨hdims, hkept, -⟩ := hdata dims rfl
      have hrest := (HasWords.sizes (forall₂_eraseIdx hes) hpos).countOf (hkept.rest pre.length (by rw [hone]; simp))
      exact succeeds_lift_bind (quotientSize_eq_ok (hdims.countOf hkept.data) hrest hne (dvd_of_volume_eq hvolume))
        (succeeds_pure _)

/-- The sizes that the rule gives are those of the result. -/
theorem hasSizes_resolveTarget {sizes : List SizeExpr} (hdims : HasSizes σ dims dataShape) (hes : HasWords σ es ws)
    (hrun : Layout.resolveTarget (volume dataShape) ws = .ok shape) (hvolume : volume shape = volume dataShape)
    (hknown : KnownInferred es ws) (hkept : TargetKept σ dims es)
    (h : Draws (ShapeRule.resolveTarget boundsDominate (some dims) es) s sizes s') :
    HasSizes σ sizes shape ∧ s = s' := by
  cases ShapeRule.resolves_of_draws h with
  | given hnone =>
    obtain ⟨hpos, rfl⟩ := ShapeRule.entries_of_none hes hrun hnone hknown
    exact ⟨hes.sizes hpos, rfl⟩
  | quotient hone hsome hsize =>
    cases hsome
    obtain ⟨pre, post, rfl, rfl, hpos, hne, rfl⟩ := ShapeRule.entries_of_one hes hrun hone
    have hmem : pre.length ∈ ShapeRule.inferredAt es := by simp [hone]
    have htotal := hdims.countOf hkept.data
    have hrest := (HasWords.sizes (forall₂_eraseIdx hes) hpos).countOf (hkept.rest pre.length hmem)
    rw [quotientSize_eq_ok htotal hrest hne (dvd_of_volume_eq hvolume)] at hsize
    cases hsize
    exact ⟨hasSizes_resolved hes hpos (exactValue?_quotient htotal hrest hne (hkept.quotient _ hmem)), rfl⟩
  | fresh _ hnone => cases hnone

/-- The rule takes an entry that is -1 without being the constant for a size, so that its sizes are not those of
any tensor. -/
theorem resolveTarget_missed {drops : DropTest} {sizes : List SizeExpr} {len : Nat} (hes : HasWords σ es ws)
    (hrun : Layout.resolveTarget len ws = .ok shape) (hmissed : ¬KnownInferred es ws)
    (h : Draws (ShapeRule.resolveTarget drops data? es) s sizes s') : sizes = es ∧ ∀ ns, ¬HasSizes σ sizes ns := by
  obtain ⟨-, hinferred⟩ := ShapeRule.inferredAt_of_run hes hrun
  have hnil : ShapeRule.inferredAt es = [] := by
    rcases hinferred with ⟨hnil, -⟩ | ⟨pre, post, hone, rfl, hpos, -, -⟩
    · exact hnil
    · refine absurd (fun i hi => ?_) hmissed
      obtain rfl := eq_length_of_getElem? hpos hi
      exact ShapeRule.mem_inferredAt.1 (by simp [hone])
  obtain rfl : es = sizes := by
    cases ShapeRule.resolves_of_draws h with
    | given => rfl
    | quotient hone | fresh hone =>
      rw [hnil] at hone
      cases hone
  refine ⟨rfl, fun ns hns => hmissed fun i hi => ?_⟩
  obtain ⟨hlt, hword⟩ := List.getElem?_eq_some_iff.1 hi
  have hlt' : i < es.length := hes.length_eq ▸ hlt
  have hval := List.Forall₂.get hes hlt' hlt
  have hsize := List.Forall₂.get hns hlt' (hns.length_eq ▸ hlt')
  simp only [List.get_eq_getElem, hword] at hval hsize
  have hneg : (-1 : Int32).toInt = -1 := rfl
  have := Option.some.inj (hval.symm.trans hsize)
  omega

/-! ## Reshaping -/

namespace TensorFacts

variable {t : TensorFacts} {v : Value}

theorem matches_shape (h : HasSizes σ dims v.shape) : (TensorFacts.shape dims).Matches σ v := by
  refine ⟨fun ds hds => ?_, fun xs hxs => by cases hxs⟩
  cases hds
  exact SizeExpr.forall₂_exactValue?.2 h

theorem matches_vector {xs : List SizeExpr} {ws : Array Int32}
    (h : xs.mapM (·.exactValue? σ) = some (ws.toList.map Int32.toInt))
    (hlen : (Word.ofCount xs.length).toInt = xs.length) : (TensorFacts.vector xs).Matches σ (.ints (.vector ws)) := by
  have hsize : xs.length = ws.size := by simpa using (length_of_mapM h).symm
  refine ⟨fun dims hdims => ?_, fun ys hys => ?_⟩
  · cases hdims
    refine SizeExpr.forall₂_exactValue?.2 (.cons ?_ .nil)
    rw [← hsize]
    exact congrArg some hlen
  · cases hys
    exact ⟨_, rfl, h⟩

/-- Sizes that can be evaluated are those of the value. -/
theorem Matches.eval_sizes (h : t.Matches σ v) (hdims : t.dims? = some dims) {m : SymbolMap} (hm : σ.Extends m)
    (heval : dims.mapM (·.eval m) = .ok ws) : ws.map Int32.toInt = v.shape.map Int.ofNat := by
  rw [← toOption_eq_some, toOption_mapM] at heval
  have hwords : HasWords σ dims ws := forall₂_of_mapM heval fun d _ w hw =>
    SizeExpr.exactValue?_of_eval hm (toOption_eq_some.1 hw)
  have hexact := SizeExpr.forall₂_exactValue?.2 hwords
  rw [h.shape dims hdims] at hexact
  exact (Option.some.inj hexact).symm

end TensorFacts

theorem succeeds_reshape {data target : TensorFacts} (hes : target.values? = some es)
    (h : Succeeds (ShapeRule.resolveTarget boundsDominate data.dims? es)) :
    Succeeds (ShapeRule.reshape [data, target]) := by
  unfold ShapeRule.reshape
  rw [ShapeRule.reshapeBy, hes]
  refine succeeds_bind h fun sizes => ?_
  split
  · exact succeeds_pure _
  · split
    · exact succeeds_pure _
    · exact succeeds_pure _
  · exact succeeds_pure _

/-- The facts that a reshaping gives, elements included if they stay known. -/
theorem matches_reshaped {data : TensorFacts} {sizes : List SizeExpr} {outs : List TensorFacts} {v out : Value}
    (hdata : data.Matches σ v) (hsizes : HasSizes σ sizes out.shape)
    (hints : ∀ x, v = .ints x → ∃ y, out = .ints y ∧ y.data = x.data)
    (houts : outs = [.shape sizes] ∨ (∃ x, data.values? = some [x] ∧ sizes = [] ∧ outs = [.scalar x]) ∨
      ∃ xs len, data.values? = some xs ∧ sizes = [len] ∧ len.asValue? = some (Word.ofCount xs.length) ∧
        outs = [.vector xs]) : ∃ t, outs = [t] ∧ t.Matches σ out ∧ t.dims?.isSome := by
  have helements {xs : List SizeExpr} (hxs : data.values? = some xs) :
      ∃ y, out = .ints y ∧ xs.mapM (·.exactValue? σ) = some (y.data.toList.map Int32.toInt) := by
    obtain ⟨u, rfl, hu⟩ := hdata.elements xs hxs
    obtain ⟨y, hy, hdata⟩ := hints u rfl
    exact ⟨y, hy, hdata ▸ hu⟩
  rcases houts with rfl | ⟨x, hx, rfl, rfl⟩ | ⟨xs, len, hxs, rfl, hlen, rfl⟩
  · exact ⟨_, rfl, TensorFacts.matches_shape hsizes, rfl⟩
  · refine ⟨_, rfl, ⟨fun dims hdims => ?_, fun xs hxs => ?_⟩, rfl⟩
    · cases hdims
      exact SizeExpr.forall₂_exactValue?.2 hsizes
    · cases hxs
      exact helements hx
  · refine ⟨_, rfl, ⟨fun dims hdims => ?_, fun ys hys => ?_⟩, rfl⟩
    · cases hdims
      rw [SizeExpr.eq_value_of_asValue? hlen] at hsizes
      exact SizeExpr.forall₂_exactValue?.2 hsizes
    · cases hys
      exact helements hxs

/-- Data of known rank and a target shape of tracked entries: if the operator returns a tensor, the rule returns
facts that match it, and sizes that can be evaluated are its sizes. -/
theorem reshape_agrees {data : TensorFacts} {v out : Value} {target : Tensor Int32} (hdata : data.Matches σ v)
    (hdims : data.dims? = some dims) (htarget : (TensorFacts.vector es).Matches σ (.ints target))
    (hrun : Operator.reshape.run [v, .ints target] = .ok [out]) (hknown : KnownInferred es target.data.toList)
    (hkept : TargetKept σ dims es) (s : SymbolSupply) :
    ∃ t sizes, Draws (ShapeRule.reshape [data, .vector es]) s [t] s ∧ t.dims? = some sizes ∧ t.Matches σ out ∧
      ∀ m ns, σ.Extends m → sizes.mapM (·.eval m) = .ok ns → ns.map Int32.toInt = out.shape.map Int.ofNat := by
  obtain ⟨out', hout, h⟩ := bind_eq_ok.1 hrun
  cases h
  have hvolume := Layout.volume_reshape hout
  obtain ⟨v', ws, hv, hws, -, hresolve, -, hints⟩ := Layout.reshape_eq_ok hout
  cases hv
  cases hws
  obtain ⟨u, hu, hwords⟩ := htarget.words rfl
  cases hu
  have hsizes := hdata.sizes hdims
  have hsucceeds : Succeeds (ShapeRule.resolveTarget boundsDominate data.dims? es) := by
    refine succeeds_resolveTarget hwords hresolve hvolume fun ds hds => ?_
    cases hdims.symm.trans hds
    exact ⟨hsizes, hkept.toCountsKept, fun _ => hknown⟩
  have hvalues : (TensorFacts.vector es).values? = some es := rfl
  obtain ⟨outs, s', hdraws⟩ := succeeds_reshape hvalues hsucceeds s
  obtain ⟨sizes, hresolved, houts⟩ := draws_reshapeBy hvalues hdraws
  rw [hdims] at hresolved
  obtain ⟨hexact, rfl⟩ := hasSizes_resolveTarget hsizes hwords hresolve hvolume hknown hkept hresolved
  obtain ⟨t, rfl, ht, hsome⟩ := matches_reshaped hdata hexact hints houts
  obtain ⟨found, hfound⟩ := Option.isSome_iff_exists.1 hsome
  exact ⟨t, found, hdraws, hfound, ht, fun m ns hm heval => ht.eval_sizes hfound hm heval⟩

/-- Data of `batch` matrices is flattened for a batch of 2. -/
theorem reshape_agrees_batch : ∃ t sizes, Draws (ShapeRule.reshape [.shape [.posVar "batch", .value 3, .value 4],
      .vector [.posVar "batch", .value (-1)]]) {} [t] {} ∧ t.dims? = some sizes ∧
      t.Matches (fun _ => 2) (.floats (.full [2, 12] .zero)) ∧ ∀ m ns, Assignment.Extends (fun _ => 2) m →
      sizes.mapM (·.eval m) = .ok ns → ns.map Int32.toInt = [2, 12] := by
  have hdata : TensorFacts.Matches (fun _ => 2) (.shape [.posVar "batch", .value 3, .value 4])
      (.floats (.full [2, 3, 4] .zero)) := TensorFacts.matches_shape (.cons rfl (.cons rfl (.cons rfl .nil)))
  have htarget : TensorFacts.Matches (fun _ => 2) (.vector [.posVar "batch", .value (-1)])
      (.ints (.vector #[2, -1])) := TensorFacts.matches_vector rfl rfl
  have hinferred : ShapeRule.inferredAt [.posVar "batch", .value (-1)] = [1] := by decide
  refine reshape_agrees hdata rfl htarget (by rfl) ?_ ?_ _
  · intro i hi
    match i with
    | 0 => exact absurd hi (by decide)
    | 1 => rfl
    | i + 2 => cases hi
  · refine ⟨⟨.of_eq (by decide +kernel), fun h => ?_, fun i hi => ?_⟩, fun i hi => ?_⟩
    · rw [hinferred] at h
      cases h
    · rw [hinferred, List.mem_singleton] at hi
      exact hi ▸ .of_eq (by decide +kernel)
    · rw [hinferred, List.mem_singleton] at hi
      exact hi ▸ .of_eq (by decide +kernel)

end TensorGraph
