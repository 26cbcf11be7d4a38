import Mathlib.Data.List.Forall2
import TensorGraph.Program.Check
import TensorGraph.Proofs.Program.Binding

/-!
# Observed values

A program that is checked learns the values of symbols from the values that it observes, in whatever order they come.
If all of them are what the inferred expressions evaluate to under one assignment of integers, then no check fails,
and what was learnt is part of the assignment at all times (`observe_run`). Expressions are evaluated before all of
their symbols are known, so what one part of an assignment gives an expression, another part gives it too, or fails
for an unknown symbol only (`SizeExpr.eval_within`).
-/

namespace TensorGraph

variable {ρ : String → Int} {m m' : SymbolMap} {known : InferredFacts}

/-- Whether all values of the map are those of the assignment. -/
def SymbolMap.Within (m : SymbolMap) (ρ : String → Int) : Prop := ∀ name w, m.get? name = some w → w.toInt = ρ name

/-- Whether the expression evaluates to the word under the assignment, or a part of it. -/
def SizeExpr.EvaluatesTo (ρ : String → Int) (e : SizeExpr) (w : Int32) : Prop :=
  ∃ m : SymbolMap, m.Within ρ ∧ e.eval m = .ok w

/-- Whether the sizes of a value, and the integers that are known, are those of the expressions. -/
structure TensorFacts.HoldsUnder (ρ : String → Int) (t : TensorFacts) (v : Value) : Prop where
  sizes : ∀ dims, t.dims? = some dims →
    List.Forall₂ (fun e (n : Nat) => ∃ w : Int32, e.EvaluatesTo ρ w ∧ w.toInt = (n : Int)) dims v.shape
  elements : ∀ exprs data, t.values? = some exprs → v = .ints data →
    List.Forall₂ (SizeExpr.EvaluatesTo ρ) exprs data.data.toList

/-- Whether no size and no element is a symbol that is marked as positive and below zero. -/
def TensorFacts.SignsKept (ρ : String → Int) (t : TensorFacts) : Prop :=
  ∀ s, .sym s ∈ t.dims?.getD [] ++ t.values?.getD [] → s.positive = true → 0 ≤ ρ s.name

/-! ## Evaluation with some symbols -/

/-- Whether the result is the given word, or a symbol is unknown. -/
def Undecided (r : Except EvalError Int32) (w : Int32) : Prop :=
  r = .ok w ∨ ∃ name, r = .error (.unknownSymbol name)

theorem undecided_bind {x x' : Except EvalError Int32} {f f' : Int32 → Except EvalError Int32} {w : Int32}
    (h : x.bind f = .ok w) (hx : ∀ a, x = .ok a → Undecided x' a) (hf : ∀ a, f a = .ok w → Undecided (f' a) w) :
    Undecided (x'.bind f') w := by
  obtain ⟨a, ha, hw⟩ := bind_eq_ok.1 h
  rcases hx a ha with rfl | ⟨name, rfl⟩
  · exact hf a hw
  · exact .inr ⟨name, rfl⟩

/-- The operands are evaluated from left to right. -/
theorem undecided_bind₂ {x x' y y' : Except EvalError Int32} {f : Int32 → Int32 → Except EvalError Int32} {w : Int32}
    (hx : ∀ a, x = .ok a → Undecided x' a) (hy : ∀ b, y = .ok b → Undecided y' b)
    (h : (x.bind fun a => y.bind (f a)) = .ok w) : Undecided (x'.bind fun a => y'.bind (f a)) w :=
  undecided_bind h hx fun _ ha => undecided_bind ha hy fun _ hb => .inl hb

theorem SizeExpr.eval_within {e : SizeExpr} {w : Int32} (hm : m.Within ρ) (hm' : m'.Within ρ)
    (h : e.eval m = .ok w) : Undecided (e.eval m') w := by
  induction e generalizing w with
  | value v => exact .inl h
  | sym s =>
    simp only [eval] at h ⊢
    cases hs : m.get? s.name with
    | none =>
      rw [hs] at h
      cases h
    | some v =>
      rw [hs] at h
      cases h
      cases hs' : m'.get? s.name with
      | none => exact .inr ⟨s.name, rfl⟩
      | some v' => exact .inl (congrArg _ (Int32.toInt_inj.1 ((hm' _ _ hs').trans (hm _ _ hs).symm)))
  | neg x ih => exact undecided_bind h (fun _ ha => ih ha) fun _ ha => .inl ha
  | add a b iha ihb | sub a b iha ihb | mul a b iha ihb | div a b iha ihb | max a b iha ihb | min a b iha ihb
  | broadcast a b iha ihb => exact undecided_bind₂ (fun _ ha => iha ha) (fun _ hb => ihb hb) h

namespace SymbolMap

theorem within_empty (ρ : String → Int) : empty.Within ρ := fun _ _ h => (by cases h)

theorem Within.insert (h : m.Within ρ) {name : String} {w : Int32} (hnew : m.get? name = none)
    (hw : w.toInt = ρ name) : (m.insert name w).Within ρ := by
  intro name' w' hget
  rw [get?_insert_new w hnew] at hget
  split at hget
  · next heq =>
    cases hget
    rw [heq, hw]
  · exact h name' w' hget

theorem ofCount_eq {n : Nat} {w : Int32} (h : w.toInt = (n : Int)) : Word.ofCount n = w := by
  rw [Word.ofCount, ← h, Int32.ofInt_toInt]

/-! ## Steps -/

/-- All expressions but unknown symbols are compared. -/
theorem observeSize_of_known {e : SizeExpr} {w : Int32} (h : Undecided (e.eval m) w)
    (hknown : ∀ s, e = .sym s → (m.get? s.name).isSome = true) : m.observeSize e w = .ok m := by
  cases e with
  | sym s =>
    rcases h with h | ⟨name, h⟩ <;> simp only [observeSize, h, hknown s rfl, if_true]
  | _ =>
    rcases h with h | ⟨name, h⟩ <;> simp only [observeSize, h, if_true]

theorem observeSize_of_new {s : Symbol} {w : Int32} (hnew : m.get? s.name = none)
    (hsign : s.positive = true → 0 ≤ w.toInt) : m.observeSize (.sym s) w = .ok (m.insert s.name w) := by
  have hkept : ¬(s.positive && decide (w < 0)) = true := by
    rw [Bool.and_eq_true, decide_eq_true_iff, Int32.lt_iff_toInt_lt]
    rintro ⟨hpos, hneg⟩
    have hzero : (0 : Int32).toInt = 0 := rfl
    have hle := hsign hpos
    omega
  simp only [observeSize, hnew]
  rw [if_neg (by simp), if_neg hkept]

/-- What an expression evaluates to is accepted, and a symbol only gets its own value. -/
theorem exists_observeSize {e : SizeExpr} {w : Int32} (hm : m.Within ρ) (he : e.EvaluatesTo ρ w)
    (hsign : ∀ s, e = .sym s → s.positive = true → 0 ≤ ρ s.name) :
    ∃ m', m.observeSize e w = .ok m' ∧ m'.Within ρ := by
  obtain ⟨part, hpart, heval⟩ := he
  by_cases hknown : ∀ s, e = .sym s → (m.get? s.name).isSome = true
  · exact ⟨m, observeSize_of_known (SizeExpr.eval_within hpart hm heval) hknown, hm⟩
  · push Not at hknown
    obtain ⟨s, rfl, hnew⟩ := hknown
    have hnew := Option.not_isSome_iff_eq_none.1 hnew
    have hw : w.toInt = ρ s.name := by
      rw [SizeExpr.eval] at heval
      split at heval
      · next v hv =>
        cases heval
        exact hpart _ _ hv
      · cases heval
    exact ⟨_, observeSize_of_new hnew fun hpos => hw ▸ hsign s rfl hpos, hm.insert hnew hw⟩

variable {t : TensorFacts} {v : Value}

theorem exists_observeShape (hm : m.Within ρ) (ht : t.HoldsUnder ρ v) (hsign : t.SignsKept ρ) :
    ∃ m', m.observeShape t v.shape = .ok m' ∧ m'.Within ρ := by
  unfold observeShape
  split
  · exact ⟨m, rfl, hm⟩
  · next dims hdims =>
    have hsizes := ht.sizes dims hdims
    have hrank : (dims.length != v.shape.length) = false := by simp [hsizes.length_eq]
    simp only [hrank]
    refine exists_foldlM (fun ⟨e, n⟩ hmem m hm => ?_) hm
    obtain ⟨w, hw, hn⟩ := List.forall₂_zip hsizes hmem
    have hsym : ∀ s, e = .sym s → s.positive = true → 0 ≤ ρ s.name := by
      rintro s rfl
      refine hsign s (List.mem_append_left _ ?_)
      rw [hdims]
      exact (List.of_mem_zip hmem).1
    obtain ⟨m', hm', hwithin⟩ := exists_observeSize hm hw hsym
    exact ⟨m', mapError_eq_ok.2 (by rwa [ofCount_eq hn]), hwithin⟩

theorem exists_observeElements (hm : m.Within ρ) (ht : t.HoldsUnder ρ v) (hsign : t.SignsKept ρ) :
    ∃ m', m.observeElements t v = .ok m' ∧ m'.Within ρ := by
  unfold observeElements
  split
  · next exprs data hexprs =>
    have hall := ht.elements exprs data hexprs rfl
    have hlen : (exprs.length != data.data.toList.length) = false := by simp [hall.length_eq]
    simp only [hlen]
    refine exists_foldlM (fun ⟨e, w⟩ hmem m hm => ?_) hm
    have hsym : ∀ s, e = .sym s → s.positive = true → 0 ≤ ρ s.name := by
      rintro s rfl
      refine hsign s (List.mem_append_right _ ?_)
      rw [hexprs]
      exact (List.of_mem_zip hmem).1
    obtain ⟨m', hm', hwithin⟩ := exists_observeSize hm (List.forall₂_zip hall hmem) hsym
    exact ⟨m', mapError_eq_ok.2 hm', hwithin⟩
  · exact ⟨m, rfl, hm⟩

/-- A value that is as inferred is accepted, whatever was learnt before. -/
theorem exists_observe (hm : m.Within ρ) {id : NodeId}
    (h : ∀ t, known.get? id = some t → t.HoldsUnder ρ v ∧ t.SignsKept ρ) :
    ∃ m', m.observe known id v = .ok m' ∧ m'.Within ρ := by
  unfold observe
  cases hknown : known.get? id with
  | none => exact ⟨m, rfl, hm⟩
  | some t =>
    obtain ⟨ht, hsign⟩ := h t hknown
    obtain ⟨m₁, hshape, hm₁⟩ := exists_observeShape hm ht hsign
    obtain ⟨m₂, helements, hm₂⟩ := exists_observeElements hm₁ ht hsign
    exact ⟨m₂, bind_eq_ok.2 ⟨m₁, hshape, helements⟩, hm₂⟩

/-! ## Runs -/

/-- Values that are as inferred under one assignment are accepted in any order, and after each of them what was learnt
is part of the assignment. -/
theorem observe_run (known : InferredFacts) (ρ : String → Int) (os : List (NodeId × Value))
    (hsigns : ∀ id t, known.get? id = some t → t.SignsKept ρ)
    (hvalues : ∀ o ∈ os, ∀ t, known.get? o.1 = some t → t.HoldsUnder ρ o.2) :
    ∀ before after, os = before ++ after →
      ∃ m, before.foldlM (fun m o => m.observe known o.1 o.2) empty = .ok m ∧ m.Within ρ := by
  rintro before after rfl
  refine exists_foldlM (fun o ho m hm => exists_observe hm fun t ht => ?_) (within_empty ρ)
  exact ⟨hvalues o (List.mem_append_left _ ho) t ht, hsigns o.1 t ht⟩

/-- Of a matrix, its flattened elements and a vector, the elements are checked before and after the rows are known. -/
theorem observe_run_rows :
    let n : SizeExpr := .posVar "n"
    let known : InferredFacts := { facts := ⟨[(0, .shape [n, .value 2]), (1, .shape [.mul n (.value 2)]),
      (2, .vector [.var "k", n])]⟩ }
    let ρ : String → Int := fun name => if name = "n" then 3 else -1
    let os : List (NodeId × Value) := [(1, .ints (.full [6] 0)), (0, .ints (.full [3, 2] 0)),
      (2, .ints (.vector #[-1, 3])), (1, .ints (.full [6] 0))]
    (∀ id t, known.get? id = some t → t.SignsKept ρ) ∧
      (∀ o ∈ os, ∀ t, known.get? o.1 = some t → t.HoldsUnder ρ o.2) ∧
      ∃ m, os.foldlM (fun m o => m.observe known o.1 o.2) empty = .ok m ∧ m.Within ρ := by
  intro n known ρ os
  have hpart : ((empty.insert "n" 3).insert "k" (-1)).Within ρ := ((within_empty ρ).insert rfl rfl).insert rfl rfl
  have heval {e : SizeExpr} {w : Int32} (h : e.eval ((empty.insert "n" 3).insert "k" (-1)) = .ok w) :
      e.EvaluatesTo ρ w := ⟨_, hpart, h⟩
  have hsigns : ∀ id t, known.get? id = some t → t.SignsKept ρ := by
    intro id t ht s hs hpos
    have hmem := mem_of_lookup (Option.filter_eq_some_iff.1 ht).1
    have hn : s = ⟨"n", true⟩ := by
      simp only [known, List.mem_cons, Prod.mk.injEq, List.not_mem_nil, or_false] at hmem
      rcases hmem with ⟨-, rfl⟩ | ⟨-, rfl⟩ | ⟨-, rfl⟩
      · simpa [TensorFacts.dims?, TensorFacts.values?, n, SizeExpr.posVar] using hs
      · simp [TensorFacts.dims?, TensorFacts.values?] at hs
      · rcases (by simpa [TensorFacts.dims?, TensorFacts.values?, SizeExpr.ofSize] using hs :
          SizeExpr.sym s = .var "k" ∨ SizeExpr.sym s = n) with h | h
        · cases h
          cases hpos
        · exact SizeExpr.sym.inj h
    rw [hn]
    decide
  have hflat : (TensorFacts.shape [.mul n (.value 2)]).HoldsUnder ρ (.ints (.full [6] 0)) := by
    refine ⟨fun _ h => ?_, fun _ _ h => (by cases h)⟩
    cases h
    exact .cons ⟨6, heval rfl, rfl⟩ .nil
  have hmatrix : (TensorFacts.shape [n, .value 2]).HoldsUnder ρ (.ints (.full [3, 2] 0)) := by
    refine ⟨fun _ h => ?_, fun _ _ h => (by cases h)⟩
    cases h
    exact .cons ⟨3, heval rfl, rfl⟩ (.cons ⟨2, heval rfl, rfl⟩ .nil)
  have hvector : (TensorFacts.vector [.var "k", n]).HoldsUnder ρ (.ints (.vector #[-1, 3])) := by
    refine ⟨fun _ h => ?_, fun _ _ h hv => ?_⟩
    · cases h
      exact .cons ⟨2, heval rfl, rfl⟩ .nil
    · cases h
      cases hv
      exact .cons (heval rfl) (.cons (heval rfl) .nil)
  have hvalues : ∀ o ∈ os, ∀ t, known.get? o.1 = some t → t.HoldsUnder ρ o.2 := by
    refine List.forall_mem_cons.2 ⟨?_, List.forall_mem_cons.2 ⟨?_, List.forall_mem_cons.2 ⟨?_,
      List.forall_mem_singleton.2 ?_⟩⟩⟩
    · exact fun t ht => Option.some.inj ht ▸ hflat
    · exact fun t ht => Option.some.inj ht ▸ hmatrix
    · exact fun t ht => Option.some.inj ht ▸ hvector
    · exact fun t ht => Option.some.inj ht ▸ hflat
  exact ⟨hsigns, hvalues, observe_run known ρ os hsigns hvalues os [] (List.append_nil os).symm⟩

end SymbolMap

end TensorGraph
