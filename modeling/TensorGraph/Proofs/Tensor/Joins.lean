import Mathlib.Data.List.Basic
import Mathlib.Data.List.GetD
import Mathlib.Tactic.Tauto
import TensorGraph.Tensor.Shape

/-!
# Shapes in the order of broadcasting

Two shapes broadcast size by size once ones are put in front of the shorter one (`broadcast?_eq_some`). Shapes are
ordered by which of them broadcast to which. The shape that several shapes broadcast to is their least upper
bound in this order (`broadcastAll?_eq_some`), and there is one exactly if there is any upper bound
(`exists_joins`). So a chain of operators that broadcast two inputs each has the shape that all inputs of the chain
have together. Broadcasting of two shapes is commutative, associative and idempotent and has the empty shape as its
identity (`broadcastLaws`).
-/

namespace TensorGraph.Shape

/-! ## Shapes with ones in front -/

/-- The sizes, with ones in front up to the given rank. -/
def padTo (rank : Nat) (shape : List Nat) : List Nat := List.replicate (rank - shape.length) 1 ++ shape

theorem length_padTo {rank : Nat} {shape : List Nat} (h : shape.length ≤ rank) : (padTo rank shape).length = rank := by
  simp only [padTo, List.length_append, List.length_replicate]
  omega

theorem broadcastSize?_one_left (b : Nat) : broadcastSize? 1 b = some b := by
  unfold broadcastSize?
  split
  · next h => rw [h]
  · rfl

theorem broadcastSize?_one_right (a : Nat) : broadcastSize? a 1 = some a := by
  by_cases h : a = 1 <;> simp [broadcastSize?, h]

theorem zipWith_ones_left (bs : List Nat) :
    List.zipWith broadcastSize? (List.replicate bs.length 1) bs = bs.map some := by
  induction bs with
  | nil => rfl
  | cons b bs ih => simpa [List.replicate_succ, broadcastSize?_one_left] using ih

theorem zipWith_ones_right (as : List Nat) :
    List.zipWith broadcastSize? as (List.replicate as.length 1) = as.map some := by
  induction as with
  | nil => rfl
  | cons a as ih => simpa [List.replicate_succ, broadcastSize?_one_right] using ih

theorem broadcastReversed?_eq_some {as bs cs : List Nat} : broadcastReversed? as bs = some cs ↔
    List.zipWith broadcastSize? (as ++ List.replicate (bs.length - as.length) 1)
      (bs ++ List.replicate (as.length - bs.length) 1) = cs.map some := by
  fun_induction broadcastReversed? as bs generalizing cs with
  | case1 bs => simp [zipWith_ones_left, List.map_inj_right (f := some) fun _ _ => Option.some.inj]
  | case2 as => simp [zipWith_ones_right, List.map_inj_right (f := some) fun _ _ => Option.some.inj]
  | case3 a as b bs ih =>
    cases h : broadcastSize? a b with
    | none => cases cs <;> simp [h]
    | some c =>
      cases cs with
      | nil => simp [h, Option.bind_eq_some_iff]
      | cons c' cs => simp [h, Option.bind_eq_some_iff, ih, and_comm]

theorem broadcast?_eq_some_iff {a b c : List Nat} :
    broadcast? a b = some c ↔ broadcastReversed? a.reverse b.reverse = some c.reverse := by
  rw [broadcast?, Option.map_eq_some_iff]
  constructor
  · rintro ⟨d, hd, rfl⟩
    rw [hd, List.reverse_reverse]
  · exact fun h => ⟨_, h, List.reverse_reverse c⟩

theorem broadcast?_eq_some {a b c : List Nat} : broadcast? a b = some c ↔
    List.zipWith broadcastSize? (padTo (max a.length b.length) a) (padTo (max a.length b.length) b) =
      c.map some := by
  have hlen : (padTo (max a.length b.length) a).length = (padTo (max a.length b.length) b).length := by
    rw [length_padTo (by omega), length_padTo (by omega)]
  have ha : max a.length b.length - a.length = b.length - a.length := by omega
  have hb : max a.length b.length - b.length = a.length - b.length := by omega
  have hzip : List.zipWith broadcastSize? (a.reverse ++ List.replicate (b.length - a.length) 1)
      (b.reverse ++ List.replicate (a.length - b.length) 1) =
      (List.zipWith broadcastSize? (padTo (max a.length b.length) a) (padTo (max a.length b.length) b)).reverse := by
    rw [List.reverse_zipWith hlen]
    simp [padTo, ha, hb]
  rw [broadcast?_eq_some_iff, broadcastReversed?_eq_some, List.length_reverse, List.length_reverse, hzip, List.map_reverse,
    List.reverse_inj]

/-! ## The order of shapes -/

variable {s t u a b c : List Nat} {shapes : List (List Nat)}

/-! ## Sizes from the last -/

/-- The size of a dimension, counted from the last. Missing dimensions have size 1. -/
def sizeAt (shape : List Nat) (k : Nat) : Nat := shape.reverse.getD k 1

theorem sizeAt_eq_one (h : s.length ≤ k) : sizeAt s k = 1 := by
  rw [sizeAt, List.getD_eq_default _ _ (by simpa using h)]

theorem eq_of_getD (hlen : s.length = t.length) (h : ∀ k, s.getD k 1 = t.getD k 1) : s = t := by
  refine List.ext_getElem hlen fun k hk hk' => ?_
  have hsize := h k
  rwa [List.getD_eq_getElem _ _ hk, List.getD_eq_getElem _ _ hk'] at hsize

/-- Shapes are equal if they have the same sizes. -/
theorem eq_of_sizeAt (hlen : s.length = t.length) (h : ∀ k, sizeAt s k = sizeAt t k) : s = t :=
  List.reverse_inj.1 (eq_of_getD (by simpa using hlen) h)

/-! ## The order -/

theorem canBroadcast_iff :
    canBroadcast s t = true ↔ s.length ≤ t.length ∧ ∀ k, sizeAt s k = sizeAt t k ∨ sizeAt s k = 1 := by
  rw [canBroadcast, Bool.and_eq_true, decide_eq_true_eq]
  refine and_congr_right fun hlen => ?_
  have hlen' : (t.drop (t.length - s.length)).length = s.length := by
    rw [List.length_drop]
    omega
  -- The sizes of both that stand side by side, counted from the last.
  have hsizes (k : Nat) (hk : k < s.length) :
      (s.zip (t.drop (t.length - s.length)))[s.length - 1 - k]? = some (sizeAt s k, sizeAt t k) := by
    have hindex : t.length - s.length + (s.length - 1 - k) = t.length - 1 - k := by omega
    have hk' : k < t.length := Nat.lt_of_lt_of_le hk hlen
    rw [List.getElem?_eq_getElem (by rw [List.length_zip, hlen']; omega), List.getElem_zip, List.getElem_drop, sizeAt,
      sizeAt, List.getD_eq_getElem _ _ (by simpa using hk), List.getD_eq_getElem _ _ (by simpa using hk'),
      List.getElem_reverse, List.getElem_reverse]
    simp only [hindex]
  simp only [List.all_eq_true, Bool.or_eq_true, beq_iff_eq]
  constructor
  · intro h k
    by_cases hk : k < s.length
    · exact h _ (List.mem_of_getElem? (hsizes k hk))
    · exact .inr (sizeAt_eq_one (Nat.le_of_not_lt hk))
  · intro h p hp
    obtain ⟨i, hi⟩ := List.getElem?_of_mem hp
    have hi' : i < s.length := by
      have hlt := (List.getElem?_eq_some_iff.1 hi).1
      rwa [List.length_zip, hlen', Nat.min_self] at hlt
    have hk := hsizes (s.length - 1 - i) (by omega)
    have hindex : s.length - 1 - (s.length - 1 - i) = i := by omega
    rw [hindex, hi] at hk
    obtain rfl := Option.some.inj hk
    exact h _

theorem canBroadcast_refl (s : List Nat) : canBroadcast s s = true :=
  canBroadcast_iff.2 ⟨Nat.le_refl _, fun _ => .inl rfl⟩

theorem nil_canBroadcast (s : List Nat) : canBroadcast [] s = true :=
  canBroadcast_iff.2 ⟨Nat.zero_le _, fun _ => .inr rfl⟩

theorem canBroadcast_trans (hst : canBroadcast s t = true) (htu : canBroadcast t u = true) :
    canBroadcast s u = true := by
  obtain ⟨hst, hsize⟩ := canBroadcast_iff.1 hst
  obtain ⟨htu, hsize'⟩ := canBroadcast_iff.1 htu
  refine canBroadcast_iff.2 ⟨Nat.le_trans hst htu, fun k => ?_⟩
  have := hsize k
  have := hsize' k
  omega

theorem canBroadcast_antisymm (hst : canBroadcast s t = true) (hts : canBroadcast t s = true) : s = t := by
  obtain ⟨hst, hsize⟩ := canBroadcast_iff.1 hst
  obtain ⟨hts, hsize'⟩ := canBroadcast_iff.1 hts
  refine eq_of_sizeAt (Nat.le_antisymm hst hts) fun k => ?_
  have := hsize k
  have := hsize' k
  omega

/-! ## Joins -/

/-- Whether a shape broadcasts to just those shapes that all of the given shapes broadcast to. -/
def Joins (shapes : List (List Nat)) (c : List Nat) : Prop :=
  ∀ t, canBroadcast c t = true ↔ ∀ s ∈ shapes, canBroadcast s t = true

theorem Joins.unique (hs : Joins shapes s) (ht : Joins shapes t) : s = t :=
  canBroadcast_antisymm ((hs t).2 ((ht t).1 (canBroadcast_refl t))) ((ht s).2 ((hs s).1 (canBroadcast_refl s)))

theorem Joins.canBroadcast (h : Joins shapes c) (hs : s ∈ shapes) : canBroadcast s c = true :=
  (h c).1 (canBroadcast_refl c) s hs

theorem joins_nil : Joins [] [] := fun t => by simp [nil_canBroadcast t]

theorem joins_singleton (s : List Nat) : Joins [s] s := fun t => by simp

theorem joins_nil_cons : Joins ([] :: shapes) c ↔ Joins shapes c := by
  simp [Joins, nil_canBroadcast]

/-- Joins can be taken two shapes at a time. -/
theorem Joins.cons_iff {d : List Nat} (h : Joins [a, b] d) : Joins (a :: b :: shapes) c ↔ Joins (d :: shapes) c := by
  simp [Joins, h _, and_assoc]

/-! ### Two shapes -/

theorem broadcastSize?_eq_some {m n k : Nat} :
    broadcastSize? m n = some k ↔ m = n ∧ k = m ∨ m = 1 ∧ k = n ∨ n = 1 ∧ k = m := by
  simp only [broadcastSize?]
  split_ifs <;> simp <;> omega

theorem broadcastReversed?_iff : broadcastReversed? a b = some c ↔
    c.length = max a.length b.length ∧ ∀ k, broadcastSize? (a.getD k 1) (b.getD k 1) = some (c.getD k 1) := by
  fun_induction broadcastReversed? a b generalizing c with
  | case1 b =>
    simp only [List.getD_nil, broadcastSize?_one_left, Option.some.injEq, List.length_nil, Nat.zero_max]
    exact ⟨fun h => h ▸ ⟨rfl, fun _ => rfl⟩, fun h => eq_of_getD h.1.symm h.2⟩
  | case2 a =>
    simp only [List.getD_nil, broadcastSize?_one_right, Option.some.injEq, List.length_nil, Nat.max_zero]
    exact ⟨fun h => h ▸ ⟨rfl, fun _ => rfl⟩, fun h => eq_of_getD h.1.symm h.2⟩
  | case3 x a y b ih =>
    cases c with
    | nil => simp [Option.bind_eq_some_iff]
    | cons z c =>
      simp only [Option.bind_eq_bind, Option.bind_eq_some_iff, Option.pure_def, Option.some.injEq, List.cons.injEq,
        List.length_cons]
      constructor
      · rintro ⟨_, hz, _, hc, rfl, rfl⟩
        obtain ⟨hlen, h⟩ := ih.1 hc
        refine ⟨by omega, fun k => ?_⟩
        cases k with
        | zero => simpa using hz
        | succ k => simpa using h k
      · rintro ⟨hlen, h⟩
        refine ⟨z, by simpa using h 0, c, ih.2 ⟨by omega, fun k => ?_⟩, rfl, rfl⟩
        simpa using h (k + 1)

theorem isSome_broadcastReversed? :
    (broadcastReversed? a b).isSome ↔ ∀ k, (broadcastSize? (a.getD k 1) (b.getD k 1)).isSome := by
  fun_induction broadcastReversed? a b with
  | case1 b => simp [broadcastSize?_one_left]
  | case2 a => simp [broadcastSize?_one_right]
  | case3 x a y b ih =>
    constructor
    · intro h k
      obtain ⟨c, hc⟩ := Option.isSome_iff_exists.1 h
      obtain ⟨z, hz, c, hc, -⟩ := by simpa [Option.bind_eq_some_iff] using hc
      cases k with
      | zero => simp [hz]
      | succ k => simpa using ih.1 (by simp [hc]) k
    · intro h
      obtain ⟨z, hz⟩ := Option.isSome_iff_exists.1 (h 0)
      obtain ⟨c, hc⟩ := Option.isSome_iff_exists.1 (ih.2 fun k => by simpa using h (k + 1))
      simp only [List.getD_cons_zero] at hz
      simp [hz, hc]

theorem broadcast?_iff : broadcast? a b = some c ↔
    c.length = max a.length b.length ∧ ∀ k, broadcastSize? (sizeAt a k) (sizeAt b k) = some (sizeAt c k) := by
  rw [broadcast?_eq_some_iff, broadcastReversed?_iff]
  simp only [List.length_reverse, sizeAt]

theorem joins_of_broadcast? (h : broadcast? a b = some c) : Joins [a, b] c := by
  obtain ⟨hlen, hsize⟩ := broadcast?_iff.1 h
  intro t
  simp only [List.forall_mem_cons, List.not_mem_nil, false_imp_iff, implies_true, and_true, canBroadcast_iff, hlen,
    ← forall_and, and_and_and_comm]
  refine and_congr (by omega) (forall_congr' fun k => ?_)
  have := broadcastSize?_eq_some.1 (hsize k)
  omega

/-- Two shapes that broadcast to some shape broadcast to each other's. -/
theorem isSome_broadcast? (ha : canBroadcast a t = true) (hb : canBroadcast b t = true) :
    (broadcast? a b).isSome := by
  obtain ⟨-, ha⟩ := canBroadcast_iff.1 ha
  obtain ⟨-, hb⟩ := canBroadcast_iff.1 hb
  rw [broadcast?, Option.isSome_map, isSome_broadcastReversed?]
  intro k
  rw [Option.isSome_iff_exists]
  rcases ha k with ha | ha
  · rcases hb k with hb | hb
    · exact ⟨_, broadcastSize?_eq_some.2 (.inl ⟨ha.trans hb.symm, rfl⟩)⟩
    · exact ⟨_, broadcastSize?_eq_some.2 (.inr (.inr ⟨hb, rfl⟩))⟩
  · exact ⟨_, broadcastSize?_eq_some.2 (.inr (.inl ⟨ha, rfl⟩))⟩

theorem broadcast?_eq_some_iff_joins : broadcast? a b = some c ↔ Joins [a, b] c := by
  refine ⟨joins_of_broadcast?, fun h => ?_⟩
  have ha : canBroadcast a c = true := h.canBroadcast (by simp)
  have hb : canBroadcast b c = true := h.canBroadcast (by simp)
  obtain ⟨d, hd⟩ := Option.isSome_iff_exists.1 (isSome_broadcast? ha hb)
  rw [hd, h.unique (joins_of_broadcast? hd)]

/-- A shape and one that broadcasts to it broadcast together to the first. -/
theorem broadcast?_of_canBroadcast (h : canBroadcast b a = true) : broadcast? a b = some a := by
  refine broadcast?_eq_some_iff_joins.2 fun t => ?_
  simp only [List.forall_mem_cons, List.not_mem_nil, false_imp_iff, implies_true, and_true]
  exact ⟨fun ha => ⟨ha, canBroadcast_trans h ha⟩, And.left⟩

/-! ### Any number of shapes -/

theorem foldlM_broadcast?_eq_some : shapes.foldlM broadcast? a = some c ↔ Joins (a :: shapes) c := by
  induction shapes generalizing a with
  | nil =>
    rw [List.foldlM_nil, Option.pure_def, Option.some_inj]
    exact ⟨fun h => h ▸ joins_singleton a, fun h => (joins_singleton a).unique h⟩
  | cons b shapes ih =>
    rw [List.foldlM_cons, Option.bind_eq_bind, Option.bind_eq_some_iff]
    constructor
    · rintro ⟨d, hd, hc⟩
      exact (joins_of_broadcast? hd).cons_iff.2 (ih.1 hc)
    · intro h
      have ha : canBroadcast a c = true := h.canBroadcast (by simp)
      have hb : canBroadcast b c = true := h.canBroadcast (by simp)
      obtain ⟨d, hd⟩ := Option.isSome_iff_exists.1 (isSome_broadcast? ha hb)
      exact ⟨d, hd, ih.2 ((joins_of_broadcast? hd).cons_iff.1 h)⟩

theorem broadcastAll?_eq_some : broadcastAll? shapes = some c ↔ Joins shapes c :=
  foldlM_broadcast?_eq_some.trans joins_nil_cons

/-- Shapes that all broadcast to some shape have a join. -/
theorem exists_joins (h : ∀ s ∈ shapes, canBroadcast s t = true) : ∃ c, Joins shapes c := by
  induction shapes with
  | nil => exact ⟨[], joins_nil⟩
  | cons s shapes ih =>
    obtain ⟨hs, hshapes⟩ := List.forall_mem_cons.1 h
    obtain ⟨d, hd⟩ := ih hshapes
    obtain ⟨c, hc⟩ := Option.isSome_iff_exists.1 (isSome_broadcast? hs ((hd t).2 hshapes))
    refine ⟨c, fun t => ?_⟩
    simp [joins_of_broadcast? hc t, hd t]

/-! ## Laws of broadcasting -/

variable {shapes' : List (List Nat)}

/-- A join does not depend on the order of the shapes. -/
theorem Joins.congr (h : ∀ s, s ∈ shapes ↔ s ∈ shapes') : Joins shapes c ↔ Joins shapes' c := by
  unfold Joins
  simp only [h]

theorem bind_broadcast?_eq_some : (broadcast? a b).bind (broadcast? · c) = some s ↔ Joins [a, b, c] s := by
  rw [← foldlM_broadcast?_eq_some]
  simp

/-- The laws of broadcasting. -/
structure BroadcastLaws (a b c : List Nat) : Prop where
  comm : broadcast? a b = broadcast? b a
  /-- If one side has no result, neither has the other. -/
  assoc : (broadcast? a b).bind (broadcast? · c) = (broadcast? b c).bind (broadcast? a)
  self : broadcast? a a = some a
  nil_left : broadcast? [] a = some a
  nil_right : broadcast? a [] = some a
  /-- The result is the least shape to which both shapes broadcast. -/
  least : ∀ s, broadcast? a b = some s ↔ canBroadcast a s = true ∧ canBroadcast b s = true ∧
    ∀ t, canBroadcast a t = true → canBroadcast b t = true → canBroadcast s t = true
  none_iff : broadcast? a b = none ↔ ¬∃ t, canBroadcast a t = true ∧ canBroadcast b t = true

theorem broadcast?_comm (a b : List Nat) : broadcast? a b = broadcast? b a := by
  apply Option.ext
  intro s
  rw [broadcast?_eq_some_iff_joins, broadcast?_eq_some_iff_joins]
  apply Joins.congr
  simp [or_comm]

theorem broadcast?_assoc (a b c : List Nat) :
    (broadcast? a b).bind (broadcast? · c) = (broadcast? b c).bind (broadcast? a) := by
  have hswap : broadcast? a = (broadcast? · a) := funext (broadcast?_comm a)
  apply Option.ext
  intro s
  rw [hswap, bind_broadcast?_eq_some, bind_broadcast?_eq_some]
  apply Joins.congr
  intro t
  simp only [List.mem_cons, List.not_mem_nil, or_false]
  tauto

theorem broadcast?_eq_some_iff_least : broadcast? a b = some s ↔ canBroadcast a s = true ∧ canBroadcast b s = true ∧
    ∀ t, canBroadcast a t = true → canBroadcast b t = true → canBroadcast s t = true := by
  rw [broadcast?_eq_some_iff_joins]
  constructor
  · intro h
    refine ⟨h.canBroadcast (by simp), h.canBroadcast (by simp), ?_⟩
    intro t ha hb
    apply (h t).2
    simp [ha, hb]
  · rintro ⟨ha, hb, hleast⟩ t
    constructor
    · intro hst
      simp [canBroadcast_trans ha hst, canBroadcast_trans hb hst]
    · intro hall
      exact hleast t (hall a (by simp)) (hall b (by simp))

theorem broadcast?_eq_none_iff :
    broadcast? a b = none ↔ ¬∃ t, canBroadcast a t = true ∧ canBroadcast b t = true := by
  constructor
  · rintro h ⟨t, ha, hb⟩
    have hsome := isSome_broadcast? ha hb
    simp [h] at hsome
  · intro h
    rw [Option.eq_none_iff_forall_ne_some]
    intro s hs
    obtain ⟨ha, hb, -⟩ := broadcast?_eq_some_iff_least.1 hs
    exact h ⟨s, ha, hb⟩

theorem broadcastLaws (a b c : List Nat) : BroadcastLaws a b c where
  comm := broadcast?_comm a b
  assoc := broadcast?_assoc a b c
  self := broadcast?_of_canBroadcast (canBroadcast_refl a)
  nil_left := (broadcast?_comm [] a).trans (broadcast?_of_canBroadcast (nil_canBroadcast a))
  nil_right := broadcast?_of_canBroadcast (nil_canBroadcast a)
  least _ := broadcast?_eq_some_iff_least
  none_iff := broadcast?_eq_none_iff

end TensorGraph.Shape
