import TensorGraph.Proofs.Facts.Reshaping

/-!
# Target shapes with one solution

Sizes solve a target shape if they agree with all entries but -1 and have as many elements as the input. Without an
entry -1 only the entries themselves can be a solution; one entry -1 leaves one solution if the product of the others
divides the count, and none or one for every size if that product is zero. Resolving a target shape finds the solution
if there is exactly one (`resolveTarget_eq_ok_iff`).
-/

namespace TensorGraph.Layout

variable {len : Nat} {target seen rest ws pre post : List Int32} {scan : TargetScan} {sizes : List Nat}

/-- Whether sizes agree with all entries of a target shape but -1, and have the given product. -/
structure Solves (len : Nat) (target : List Int32) (sizes : List Nat) : Prop where
  agrees : List.Forall₂ (fun (w : Int32) (n : Nat) => w = -1 ∨ w.toInt = (n : Int)) target sizes
  count : volume sizes = len

/-- Whether there is one solution, and it is the given one. -/
def OnlySolves (len : Nat) (target : List Int32) (sizes : List Nat) : Prop :=
  Solves len target sizes ∧ ∀ others, Solves len target others → others = sizes

/-- Whether no entry is below -1, and at most one is -1. -/
structure WellFormedTarget (target : List Int32) : Prop where
  entries : ∀ w ∈ target, -1 ≤ w.toInt
  once : target.count (-1) ≤ 1

/-! ## Solutions -/

theorem ne_neg_one {w : Int32} (h : 0 ≤ w.toInt) : w ≠ -1 := by
  rintro rfl
  exact absurd h (by decide)

/-- Entries that are not negative leave no choice. -/
theorem agrees_iff (hpos : ∀ w ∈ ws, 0 ≤ w.toInt) :
    List.Forall₂ (fun (w : Int32) (n : Nat) => w = -1 ∨ w.toInt = (n : Int)) ws sizes ↔ sizes = entrySizes ws := by
  induction ws generalizing sizes with
  | nil => exact List.forall₂_nil_left_iff
  | cons w ws ih =>
    obtain ⟨hw, hws⟩ := List.forall_mem_cons.1 hpos
    rw [List.forall₂_cons_left_iff]
    constructor
    · rintro ⟨n, ns, hn, hns, rfl⟩
      have hsize := hn.resolve_left (ne_neg_one hw)
      rw [(ih hws).1 hns, entrySizes, entrySizes, List.map_cons, hsize, Int.toNat_natCast]
    · rintro rfl
      exact ⟨_, _, .inr (Int.toNat_of_nonneg hw).symm, (ih hws).2 rfl, rfl⟩

theorem solves_iff_of_nonneg (hpos : ∀ w ∈ ws, 0 ≤ w.toInt) :
    Solves len ws sizes ↔ sizes = entrySizes ws ∧ volume (entrySizes ws) = len := by
  constructor
  · rintro ⟨hagrees, hcount⟩
    obtain rfl := (agrees_iff hpos).1 hagrees
    exact ⟨rfl, hcount⟩
  · rintro ⟨rfl, hcount⟩
    exact ⟨(agrees_iff hpos).2 rfl, hcount⟩

theorem volume_resolved (pre post : List Int32) (q : Nat) :
    volume (entrySizes pre ++ q :: entrySizes post) = volume (entrySizes (pre ++ post)) * q := by
  rw [volume_append, volume, entrySizes, entrySizes, entrySizes, List.map_append, volume_append, Nat.mul_assoc,
    Nat.mul_comm (volume _) q]

/-- The entry -1 stands for any size whose product with the others is the count. -/
theorem solves_inferred_iff (hpos : ∀ w ∈ pre ++ post, 0 ≤ w.toInt) : Solves len (pre ++ -1 :: post) sizes ↔
    ∃ q, sizes = entrySizes pre ++ q :: entrySizes post ∧ volume (entrySizes (pre ++ post)) * q = len := by
  obtain ⟨hpre, hpost⟩ := List.forall_mem_append.1 hpos
  constructor
  · rintro ⟨hagrees, hcount⟩
    obtain ⟨before, q, after, rfl, -, hbefore, hafter⟩ := forall₂_append_cons hagrees.flip
    obtain rfl := (agrees_iff hpre).1 hbefore.flip
    obtain rfl := (agrees_iff hpost).1 hafter.flip
    exact ⟨q, rfl, volume_resolved pre post q ▸ hcount⟩
  · rintro ⟨q, rfl, hcount⟩
    refine ⟨List.rel_append ((agrees_iff hpre).2 rfl) (.cons (.inl rfl) ((agrees_iff hpost).2 rfl)), ?_⟩
    rw [volume_resolved, hcount]

/-- The size of the entry -1 is determined if the product of the others divides the count and is not zero. -/
theorem onlySolves_inferred_iff (hpos : ∀ w ∈ pre ++ post, 0 ≤ w.toInt) :
    OnlySolves len (pre ++ -1 :: post) sizes ↔
      (volume (entrySizes (pre ++ post)) ≠ 0 ∧ len % volume (entrySizes (pre ++ post)) = 0) ∧
        sizes = entrySizes pre ++ len / volume (entrySizes (pre ++ post)) :: entrySizes post := by
  unfold OnlySolves
  simp only [solves_inferred_iff hpos]
  generalize volume (entrySizes (pre ++ post)) = known
  constructor
  · rintro ⟨⟨q, rfl, rfl⟩, honly⟩
    -- If the product of the others were zero, the next size would do as well.
    have hne : known ≠ 0 := by
      rintro rfl
      have hnext := honly _ ⟨q + 1, rfl, by rw [Nat.zero_mul, Nat.zero_mul]⟩
      have hq : q + 1 = q := (List.cons.inj (List.append_cancel_left hnext)).1
      omega
    exact ⟨⟨hne, Nat.mul_mod_right known q⟩, by rw [Nat.mul_div_cancel_left q (Nat.pos_of_ne_zero hne)]⟩
  · rintro ⟨⟨hne, hdvd⟩, rfl⟩
    refine ⟨⟨_, rfl, Nat.mul_div_cancel' (Nat.dvd_of_mod_eq_zero hdvd)⟩, ?_⟩
    rintro _ ⟨q, rfl, rfl⟩
    rw [Nat.mul_div_cancel_left q (Nat.pos_of_ne_zero hne)]

/-! ## Scanning -/

/-- The product of the entries above zero, which bounds every product that a scan forms. -/
def positiveVolume (ws : List Int32) : Nat := volume (entrySizes (ws.filter (0 < ·)))

theorem positiveVolume_cons (w : Int32) (ws : List Int32) :
    positiveVolume (w :: ws) = (if 0 < w then w.toInt.toNat else 1) * positiveVolume ws := by
  unfold positiveVolume
  rw [List.filter_cons]
  by_cases hw : 0 < w
  · simp [hw, entrySizes, volume]
  · simp [hw]

theorem toNat_pos {w : Int32} (h : 0 < w) : 0 < w.toInt.toNat := by
  have hzero : (0 : Int32).toInt = 0 := rfl
  rw [Int32.lt_iff_toInt_lt] at h
  omega

theorem positiveVolume_pos (ws : List Int32) : 0 < positiveVolume ws := by
  induction ws with
  | nil => exact Nat.one_pos
  | cons w ws ih =>
    rw [positiveVolume_cons]
    refine Nat.mul_pos ?_ ih
    split
    · next hw => exact toNat_pos hw
    · exact Nat.one_pos

/-- The product of a start and further entries is small if it is small without the zeros. -/
theorem mul_toNat_lt {known : Nat} {w : Int32}
    (hfits : known * positiveVolume (w :: rest) < countLimit) :
    known * w.toInt.toNat < countLimit ∧ known * w.toInt.toNat * positiveVolume rest < countLimit := by
  rw [positiveVolume_cons] at hfits
  split at hfits
  · rw [← Nat.mul_assoc] at hfits
    exact ⟨Nat.lt_of_le_of_lt (Nat.le_mul_of_pos_right _ (positiveVolume_pos rest)) hfits, hfits⟩
  · next hnot =>
    have hzero : w.toInt.toNat = 0 := by
      have h0 : (0 : Int32).toInt = 0 := rfl
      rw [Int32.lt_iff_toInt_lt] at hnot
      omega
    rw [hzero, Nat.mul_zero, Nat.zero_mul]
    exact ⟨by decide, by decide⟩

/-- A scan that has not met more than one entry -1 goes on as long as the entries are well-formed. -/
theorem exists_scan (i : Nat) (hentries : ∀ w ∈ rest, -1 ≤ w.toInt)
    (honce : rest.count (-1) + (if scan.inferred.isSome then 1 else 0) ≤ 1)
    (hfits : scan.known * positiveVolume rest < countLimit) :
    ∃ scan', (rest.zipIdx i).foldlM TargetScan.step scan = .ok scan' := by
  induction rest generalizing scan i with
  | nil => exact ⟨scan, rfl⟩
  | cons w rest ih =>
    obtain ⟨hw, hrest⟩ := List.forall_mem_cons.1 hentries
    rw [List.zipIdx_cons, List.foldlM_cons]
    by_cases hneg : w = -1
    · subst hneg
      rw [List.count_cons_self] at honce
      have hnone : scan.inferred.isSome = false := by
        by_contra hsome
        rw [Bool.not_eq_false] at hsome
        rw [if_pos hsome] at honce
        omega
      have hstep : scan.step (-1, i) = .ok { scan with inferred := some i } := by
        simp [TargetScan.step, hnone]
      rw [hstep]
      refine ih (i + 1) hrest (by simpa [hnone] using honce) ?_
      rwa [positiveVolume_cons, if_neg (by decide), Nat.one_mul] at hfits
    · have hpos : 0 ≤ w.toInt := by
        have hne : w.toInt ≠ -1 := fun h => hneg (Int32.toInt_inj.1 h)
        omega
      have hnot : ¬w < 0 := by
        have hzero : (0 : Int32).toInt = 0 := rfl
        rw [Int32.lt_iff_toInt_lt]
        omega
      obtain ⟨hsmall, hfits⟩ := mul_toNat_lt hfits
      have hstep : scan.step (w, i) = .ok { scan with known := scan.known * w.toInt.toNat } := by
        unfold TargetScan.step
        dsimp only
        rw [if_neg hneg, if_neg hnot, if_pos hsmall]
      rw [hstep]
      rw [List.count_cons_of_ne (fun h => hneg h)] at honce
      exact ih (i + 1) hrest honce hfits

theorem Scanned.wellFormed (h : Scanned target scan) : WellFormedTarget target := by
  cases hinferred : scan.inferred with
  | none =>
    obtain ⟨hpos, -⟩ := h.none hinferred
    refine ⟨fun w hw => by have := hpos w hw; omega, ?_⟩
    rw [List.count_eq_zero.2 fun hmem => ne_neg_one (hpos _ hmem) rfl]
    exact Nat.zero_le 1
  | some i =>
    obtain ⟨pre, post, rfl, -, hpos, -⟩ := h.some i hinferred
    have hnone : (pre ++ post).count (-1) = 0 := List.count_eq_zero.2 fun hmem => ne_neg_one (hpos _ hmem) rfl
    rw [List.count_append] at hnone
    refine ⟨fun w hw => ?_, ?_⟩
    · rcases List.mem_append.1 hw with hw | hw
      · have := hpos w (List.mem_append_left _ hw)
        omega
      · rcases List.mem_cons.1 hw with rfl | hw
        · decide
        · have := hpos w (List.mem_append_right _ hw)
          omega
    · rw [List.count_append, List.count_cons_self]
      omega

/-! ## Resolved targets -/

theorem scanned_of_foldlM (h : target.zipIdx.foldlM TargetScan.step {} = .ok scan) : Scanned target scan := by
  have hstart : Scanned [] {} := ⟨fun _ => ⟨by simp, rfl⟩, fun i hi => (by cases hi)⟩
  simpa using hstart.foldlM h

/-- What is left to do after the scan finds the only solution. -/
theorem resolveTarget_of_scan (h : target.zipIdx.foldlM TargetScan.step {} = .ok scan) :
    resolveTarget len target = .ok sizes ↔ OnlySolves len target sizes := by
  have hscanned := scanned_of_foldlM h
  cases hinferred : scan.inferred with
  | none =>
    obtain ⟨hpos, hknown⟩ := hscanned.none hinferred
    have hresolve : resolveTarget len target =
        if scan.known ≠ len then .error notReshapable else .ok (entrySizes target) := by
      rw [resolveTarget, h, ← entrySizes]
      simp only [hinferred, bind, Except.bind]
    rw [hresolve, OnlySolves, hknown]
    simp only [solves_iff_of_nonneg hpos]
    split
    · next hne => exact ⟨fun h => (by cases h), fun h => absurd h.1.2 hne⟩
    · next heq =>
      rw [Except.ok.injEq]
      exact ⟨fun h => ⟨⟨h.symm, not_not.1 heq⟩, fun _ ho => ho.1.trans h⟩, fun h => h.1.1.symm⟩
  | some i =>
    have hresolve : resolveTarget len target = if scan.known = 0 ∨ len % scan.known ≠ 0 then .error notReshapable
        else .ok ((entrySizes target).set i (len / scan.known)) := by
      rw [resolveTarget, h, ← entrySizes]
      simp only [hinferred, bind, Except.bind]
    obtain ⟨pre, post, rfl, rfl, hpos, hknown⟩ := hscanned.some i hinferred
    have hset (q : Nat) : (entrySizes (pre ++ -1 :: post)).set pre.length q =
        entrySizes pre ++ q :: entrySizes post := by
      simp [entrySizes]
    rw [hresolve, onlySolves_inferred_iff hpos, hknown, hset]
    split
    · next hbad =>
      refine ⟨fun h => (by cases h), ?_⟩
      rintro ⟨⟨hne, hdvd⟩, -⟩
      exact hbad.elim (absurd · hne) (absurd hdvd)
    · next hgood =>
      rw [not_or, not_not] at hgood
      rw [Except.ok.injEq]
      exact ⟨fun h => ⟨hgood, h.symm⟩, fun h => h.2.symm⟩

/-- If the entries above zero have a product below the limit, a target shape is resolved exactly if no entry is below
-1, at most one is -1, and there is one list of sizes that agrees with the others and has the count; the result is this
list. All other target shapes are rejected. -/
theorem resolveTarget_eq_ok_iff (len : Nat) (target : List Int32) (hfits : positiveVolume target < countLimit) :
    (∀ sizes, resolveTarget len target = .ok sizes ↔ WellFormedTarget target ∧ OnlySolves len target sizes) ∧
      ((∀ sizes, ¬(WellFormedTarget target ∧ OnlySolves len target sizes)) →
        ∃ e, resolveTarget len target = .error e) := by
  have hiff (sizes : List Nat) :
      resolveTarget len target = .ok sizes ↔ WellFormedTarget target ∧ OnlySolves len target sizes := by
    constructor
    · intro h
      obtain ⟨scan, hscan, -⟩ := bind_eq_ok.1 h
      exact ⟨(scanned_of_foldlM hscan).wellFormed, (resolveTarget_of_scan hscan).1 h⟩
    · rintro ⟨hwell, honly⟩
      obtain ⟨scan, hscan⟩ : ∃ scan, target.zipIdx.foldlM TargetScan.step {} = .ok scan :=
        exists_scan 0 hwell.entries (by simpa using hwell.once) (by rwa [Nat.one_mul])
      exact (resolveTarget_of_scan hscan).2 honly
  refine ⟨hiff, fun hnone => ?_⟩
  cases h : resolveTarget len target with
  | error e => exact ⟨e, rfl⟩
  | ok sizes => exact absurd ((hiff sizes).1 h) (hnone sizes)

/-- Twelve elements in rows of four are three rows; an empty tensor has no one shape with a zero beside the entry -1. -/
theorem resolveTarget_eq_ok_rows : positiveVolume [-1, 4] < countLimit ∧ WellFormedTarget [-1, 4] ∧
    OnlySolves 12 [-1, 4] [3, 4] ∧ positiveVolume [-1, 0] < countLimit ∧ WellFormedTarget [-1, 0] ∧
    ∀ sizes, ¬OnlySolves 0 [-1, 0] sizes := by
  have hrows : positiveVolume [-1, 4] < countLimit := by decide
  have hempty : positiveVolume [-1, 0] < countLimit := by decide
  obtain ⟨hwell, honly⟩ := ((resolveTarget_eq_ok_iff 12 [-1, 4] hrows).1 [3, 4]).1 (by decide)
  have hzero : WellFormedTarget [-1, 0] := ⟨by simp, by decide⟩
  refine ⟨hrows, hwell, honly, hempty, hzero, fun sizes hsizes => ?_⟩
  cases ((resolveTarget_eq_ok_iff 0 [-1, 0] hempty).1 sizes).2 ⟨hzero, hsizes⟩

end TensorGraph.Layout
