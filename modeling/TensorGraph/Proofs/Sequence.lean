import Mathlib.Data.List.Forall2
import TensorGraph.Graph.IdMap

/-!
# Collected results

A list whose elements are computed one after the other has a result exactly when each element has
one. `mapM_eq_some` and `mapM_eq_ok` say so for the two kinds of results, and `get?_insertAll` says
what a map contains after insertions.
-/

namespace TensorGraph

variable {α β ε ε' : Type}

/-! ## Results -/

theorem bind_eq_ok {x : Except ε α} {f : α → Except ε β} {b : β} :
    x.bind f = .ok b ↔ ∃ a, x = .ok a ∧ f a = .ok b := by
  cases x <;> simp [Except.bind]

theorem bind₂_eq_ok {γ : Type} {x : Except ε α} {y : Except ε β} {f : α → β → Except ε γ} {c : γ} :
    (x.bind fun a => y.bind fun b => f a b) = .ok c ↔ ∃ a b, x = .ok a ∧ y = .ok b ∧ f a b = .ok c := by
  simp only [bind_eq_ok]
  exact ⟨fun ⟨a, ha, b, hb, h⟩ => ⟨a, b, ha, hb, h⟩, fun ⟨a, b, ha, hb, h⟩ => ⟨a, ha, b, hb, h⟩⟩

/-- Computations with the same results can be followed by the same one. -/
theorem bind_eq_ok_congr {x y : Except ε α} (h : ∀ a, x = .ok a ↔ y = .ok a) {f : α → Except ε β} {b : β} :
    x.bind f = .ok b ↔ y.bind f = .ok b := by
  simp only [bind_eq_ok, h]

theorem map_eq_ok {f : α → β} {x : Except ε α} {b : β} : x.map f = .ok b ↔ ∃ a, x = .ok a ∧ f a = b := by
  cases x <;> simp [Except.map]

theorem mapError_eq_ok {ε' : Type} {x : Except ε α} {f : ε → ε'} {a : α} : x.mapError f = .ok a ↔ x = .ok a := by
  cases x <;> simp [Except.mapError]

theorem mapError_eq_error {f : ε → ε'} {x : Except ε α} {e : ε'} (h : x.mapError f = .error e) : ∃ e', f e' = e := by
  cases x with
  | error e' => exact ⟨e', Except.error.inj h⟩
  | ok a => cases h

theorem toOption_eq_some {x : Except ε α} {a : α} : x.toOption = some a ↔ x = .ok a := by
  cases x <;> simp [Except.toOption]

theorem toOption_bind (x : Except ε α) (f : α → Except ε β) :
    (x.bind f).toOption = x.toOption.bind fun a => (f a).toOption := by
  cases x <;> rfl

@[simp] theorem toOption_mapError (f : ε → ε') (x : Except ε α) :
    (x.mapError f).toOption = x.toOption := by
  cases x <;> rfl

theorem forM_eq_ok {f : α → Except ε PUnit} {l : List α} : l.forM f = .ok () ↔ ∀ a ∈ l, f a = .ok () := by
  induction l with
  | nil => simp [List.forM, pure, Except.pure]
  | cons a l ih =>
    rw [List.forall_mem_cons, ← ih, List.forM]
    cases f a <;> simp [bind, Except.bind]

theorem forM_congr {f f' : α → Except ε PUnit} {l : List α} (h : ∀ a ∈ l, f a = f' a) : l.forM f = l.forM f' := by
  induction l with
  | nil => rfl
  | cons a l ih =>
    obtain ⟨ha, hl⟩ := List.forall_mem_cons.1 h
    rw [List.forM, List.forM, ha, ih hl]

/-! ## Lists of results -/

theorem mapM_congr {m : Type → Type} [Monad m] [LawfulMonad m] {f g : α → m β} {l : List α}
    (h : ∀ a ∈ l, f a = g a) : l.mapM f = l.mapM g := by
  induction l with
  | nil => rfl
  | cons a l ih =>
    rw [List.mapM_cons, List.mapM_cons, h a (by simp), ih fun b hb => h b (by simp [hb])]

theorem mapM_eq_some {f : α → Option β} {l : List α} {ys : List β} :
    l.mapM f = some ys ↔ l.map f = ys.map some := by
  induction l generalizing ys with
  | nil => cases ys <;> simp
  | cons a l ih =>
    cases h : f a with
    | none => cases ys <;> simp [h]
    | some b =>
      cases ys with
      | nil => simp [h, Option.bind_eq_some_iff]
      | cons y ys => simpa [h, Option.bind_eq_some_iff, ← ih] using and_comm

theorem forall₂_of_mapM {R : α → β → Prop} {f : α → Option β} {l : List α} {ys : List β} (h : l.mapM f = some ys)
    (hR : ∀ a ∈ l, ∀ y, f a = some y → R a y) : List.Forall₂ R l ys := by
  rw [mapM_eq_some, ← List.forall₂_eq_eq_eq, List.forall₂_map_left_iff, List.forall₂_map_right_iff,
    List.forall₂_iff_zip] at h
  exact List.forall₂_iff_zip.2 ⟨h.1, fun hmem => hR _ (List.of_mem_zip hmem).1 _ (h.2 hmem)⟩

theorem mapM_of_forall₂ {R : α → β → Prop} {f : α → Option β} {l : List α} {ys : List β} (h : List.Forall₂ R l ys)
    (hf : ∀ a ∈ l, ∀ y, R a y → f a = some y) : l.mapM f = some ys := by
  rw [mapM_eq_some, ← List.forall₂_eq_eq_eq, List.forall₂_map_left_iff, List.forall₂_map_right_iff,
    List.forall₂_iff_zip]
  exact ⟨h.length_eq, fun hmem => hf _ (List.of_mem_zip hmem).1 _ (List.forall₂_zip h hmem)⟩

theorem exists_of_forall₂ {R : α → β → Prop} {l : List α} {ys : List β} (h : List.Forall₂ R l ys) {y : β}
    (hy : y ∈ ys) : ∃ a ∈ l, R a y := by
  induction h with
  | nil => cases hy
  | cons hR _ ih =>
    rcases List.mem_cons.1 hy with rfl | hy
    · exact ⟨_, List.mem_cons_self, hR⟩
    · obtain ⟨a, ha, hR⟩ := ih hy
      exact ⟨a, List.mem_cons_of_mem _ ha, hR⟩

theorem length_of_mapM {f : α → Option β} {l : List α} {ys : List β} (h : l.mapM f = some ys) :
    ys.length = l.length := by
  simpa using (congrArg List.length (mapM_eq_some.1 h)).symm

theorem isSome_mapM {f : α → Option β} {l : List α} : (l.mapM f).isSome ↔ ∀ a ∈ l, (f a).isSome := by
  induction l with
  | nil => simp
  | cons a l ih =>
    rw [List.mapM_cons, List.forall_mem_cons, ← ih]
    cases f a with
    | none => simp
    | some b => cases l.mapM f <;> simp

theorem toOption_mapM (f : α → Except ε β) (l : List α) :
    (l.mapM f).toOption = l.mapM fun a => (f a).toOption := by
  induction l with
  | nil => rfl
  | cons a l ih =>
    rw [List.mapM_cons, List.mapM_cons, ← ih]
    cases f a with
    | error e => rfl
    | ok b => cases l.mapM f <;> rfl

theorem mapM_eq_ok {f : α → Except ε β} {l : List α} {ys : List β} :
    l.mapM f = .ok ys ↔ l.map (fun a => (f a).toOption) = ys.map some := by
  rw [← toOption_eq_some, toOption_mapM, mapM_eq_some]

theorem mapM_eq_error {f : α → Except ε β} {l : List α} {e : ε} (h : l.mapM f = .error e) :
    ∃ a ∈ l, f a = .error e := by
  induction l with
  | nil => cases h
  | cons a l ih =>
    rw [List.mapM_cons] at h
    cases ha : f a with
    | error e' =>
      rw [ha] at h
      cases h
      exact ⟨a, by simp, ha⟩
    | ok b =>
      rw [ha] at h
      cases hl : l.mapM f with
      | error e' =>
        rw [hl] at h
        cases h
        obtain ⟨a, ha, he⟩ := ih hl
        exact ⟨a, by simp [ha], he⟩
      | ok bs => rw [hl] at h; cases h

/-- Computations that succeed for each element succeed one after the other. -/
theorem exists_mapM {f : α → Except ε β} {R : α → β → Prop} {l : List α} (h : ∀ a ∈ l, ∃ b, f a = .ok b ∧ R a b) :
    ∃ bs, l.mapM f = .ok bs ∧ List.Forall₂ R l bs := by
  induction l with
  | nil => exact ⟨[], rfl, .nil⟩
  | cons a l ih =>
    obtain ⟨⟨b, hb, hR⟩, hl⟩ := List.forall_mem_cons.1 h
    obtain ⟨bs, hbs, hall⟩ := ih hl
    refine ⟨b :: bs, ?_, .cons hR hall⟩
    rw [List.mapM_cons, hb, hbs]
    rfl

/-! ## Loops -/

/-- A loop succeeds if each step keeps what the steps need, and what they keep holds in the end. -/
theorem exists_foldlM {f : β → α → Except ε β} {P : β → Prop} {l : List α} {b : β}
    (hstep : ∀ a ∈ l, ∀ b, P b → ∃ b', f b a = .ok b' ∧ P b') (hb : P b) : ∃ b', l.foldlM f b = .ok b' ∧ P b' := by
  induction l generalizing b with
  | nil => exact ⟨b, rfl, hb⟩
  | cons a l ih =>
    obtain ⟨ha, hl⟩ := List.forall_mem_cons.1 hstep
    obtain ⟨b', hb', hP⟩ := ha b hb
    rw [List.foldlM_cons, hb']
    exact ih hl hP

theorem foldlM_eq_error {f : β → α → Except ε β} {l : List α} {b : β} {e : ε} (h : l.foldlM f b = .error e) :
    ∃ a ∈ l, ∃ b', f b' a = .error e := by
  induction l generalizing b with
  | nil => cases h
  | cons a l ih =>
    rw [List.foldlM_cons] at h
    cases ha : f b a with
    | error e' =>
      rw [ha] at h
      cases h
      exact ⟨a, List.mem_cons_self, b, ha⟩
    | ok b' =>
      rw [ha] at h
      obtain ⟨a', ha', hf⟩ := ih h
      exact ⟨a', List.mem_cons_of_mem _ ha', hf⟩

/-! ## Entries -/

section Lookup

variable {κ : Type} [BEq κ] [LawfulBEq κ] {es : List (κ × α)} {k : κ} {a : α}

theorem mem_of_lookup (h : es.lookup k = some a) : (k, a) ∈ es := by
  obtain ⟨l₁, l₂, rfl, -⟩ := List.lookup_eq_some_iff.1 h
  simp

theorem lookup_of_nodup (h : (es.map (·.1)).Nodup) (hmem : (k, a) ∈ es) : es.lookup k = some a := by
  obtain ⟨l₁, l₂, rfl⟩ := List.append_of_mem hmem
  refine List.lookup_eq_some_iff.2 ⟨l₁, l₂, rfl, fun e he => bne_iff_ne.2 ?_⟩
  rintro rfl
  rw [List.map_append] at h
  exact (List.nodup_append.1 h).2.2 _ (List.mem_map_of_mem he) _ List.mem_cons_self rfl

/-- Different keys have the values at their positions. -/
theorem lookup_zip {ks : List κ} {vs : List α} (h : ks.Nodup) (hlen : ks.length = vs.length) {i : Nat}
    (hi : ks[i]? = some k) : (ks.zip vs).lookup k = vs[i]? := by
  obtain ⟨hlt, rfl⟩ := List.getElem?_eq_some_iff.1 hi
  have hlt' : i < vs.length := hlen ▸ hlt
  have hkeys : ((ks.zip vs).map (·.1)).Nodup := by rwa [List.map_fst_zip (Nat.le_of_eq hlen)]
  rw [List.getElem?_eq_getElem hlt']
  have hzip : i < (ks.zip vs).length := by
    rw [List.length_zip]
    exact Nat.lt_min.2 ⟨hlt, hlt'⟩
  exact lookup_of_nodup hkeys (List.mem_iff_getElem.2 ⟨i, hzip, List.getElem_zip ..⟩)

end Lookup

/-! ## Inserted entries -/

namespace IdMap

theorem get?_insertAll (m : IdMap α) (es : List (NodeId × α)) (id : NodeId) :
    (m.insertAll es).get? id = (es.reverse.lookup id <|> m.get? id) := by
  induction es generalizing m with
  | nil => simp [insertAll]
  | cons e es ih =>
    obtain ⟨k, a⟩ := e
    have := ih (m.insert k a)
    simp only [insertAll, List.foldl_cons] at this ⊢
    rw [this, get?_insert, List.reverse_cons, List.lookup_append]
    cases es.reverse.lookup id with
    | some v => rfl
    | none =>
      by_cases h : id = k
      · simp [h]
      · simp [h, List.lookup_cons, beq_eq_false_iff_ne.2 h]

/-- After insertions, the inserted keys have values. -/
theorem isSome_get?_insertAll (m : IdMap α) {es : List (NodeId × α)} {id : NodeId}
    (h : id ∈ es.map (·.1)) : ((m.insertAll es).get? id).isSome := by
  rw [get?_insertAll]
  cases hlook : es.reverse.lookup id with
  | some a => rfl
  | none =>
    rw [List.lookup_eq_none_iff] at hlook
    obtain ⟨e, he, rfl⟩ := List.mem_map.1 h
    simpa using hlook e (List.mem_reverse.2 he)

theorem lookup_reverse_of_nodup (es : List (NodeId × α)) (h : (es.map (·.1)).Nodup) (id : NodeId) :
    es.reverse.lookup id = es.lookup id := by
  induction es with
  | nil => rfl
  | cons e es ih =>
    obtain ⟨k, a⟩ := e
    simp only [List.map_cons, List.nodup_cons] at h
    rw [List.reverse_cons, List.lookup_append, ih h.2]
    by_cases hk : id = k
    · subst hk
      have : es.lookup id = none := by
        rw [List.lookup_eq_none_iff]
        intro p hp
        refine bne_iff_ne.2 ?_
        rintro rfl
        exact h.1 (List.mem_map_of_mem hp)
      simp [this]
    · simp [List.lookup_cons, beq_eq_false_iff_ne.2 hk]

/-- A list of entries with different keys is a map by itself. -/
theorem get?_insertAll_of_nodup (es : List (NodeId × α)) (h : (es.map (·.1)).Nodup) (id : NodeId) :
    ((empty : IdMap α).insertAll es).get? id = (IdMap.mk es).get? id := by
  rw [get?_insertAll, lookup_reverse_of_nodup es h, get?_empty]
  simp [get?]

end IdMap

end TensorGraph
