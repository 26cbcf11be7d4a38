import Mathlib.Data.List.GetD
import Mathlib.Data.List.Perm.Subperm
import TensorGraph.Operator.ScalarExpr

/-!
# Expressions in place of inputs

What becomes of a scalar expression when its inputs are replaced by expressions: its value is computed from their values
(`ScalarExpr.evalWith_mapInputs`), it reads what they read (`ScalarExpr.reads_mapInputs`), and it has their functions as
often as it reads them (`ScalarExpr.opCount_mapInputs`).
-/

namespace TensorGraph

/-! ## Sums -/

theorem total_append (ms ns : List Nat) : total (ms ++ ns) = total ms + total ns := by
  induction ms with
  | nil => simp [total]
  | cons m ms ih => simp only [List.cons_append, total, ih, Nat.add_assoc]

theorem total_perm {ms ns : List Nat} (h : ms.Perm ns) : total ms = total ns := by
  induction h with
  | nil => rfl
  | cons n _ ih => simp only [total, ih]
  | swap m n ns => simp only [total, Nat.add_left_comm]
  | trans _ _ ih ih' => rw [ih, ih']

theorem total_sublist {ms ns : List Nat} (h : ms.Sublist ns) : total ms ≤ total ns := by
  induction h with
  | slnil => exact Nat.le_refl _
  | cons n _ ih => exact Nat.le_trans ih (Nat.le_add_left ..)
  | cons_cons n _ ih => exact Nat.add_le_add_left ih n

section

variable {α : Type} {f g : α → Nat} {l m : List α}

theorem total_map_add (f g : α → Nat) (l : List α) :
    total (l.map fun a => f a + g a) = total (l.map f) + total (l.map g) := by
  induction l with
  | nil => rfl
  | cons a l ih =>
    simp only [List.map_cons, total, ih]
    omega

theorem total_map_le (h : ∀ a ∈ l, f a ≤ g a) : total (l.map f) ≤ total (l.map g) := by
  induction l with
  | nil => exact Nat.le_refl _
  | cons a l ih =>
    obtain ⟨ha, hl⟩ := List.forall_mem_cons.1 h
    exact Nat.add_le_add ha (ih hl)

theorem total_map_zero (l : List α) : total (l.map fun _ => 0) = 0 := by
  induction l with
  | nil => rfl
  | cons a l ih => simpa [total] using ih

/-- Only one number counts. -/
theorem total_range_single (f : Nat → Nat) (n j : Nat) :
    total ((List.range n).map fun i => (if j = i then 1 else 0) * f i) = if j < n then f j else 0 := by
  induction n with
  | zero => rfl
  | succ n ih =>
    rw [List.range_succ, List.map_append, total_append, ih]
    by_cases hj : j = n
    · simp [hj, total]
    · have hlt : j < n + 1 ↔ j < n := by omega
      simp [hj, hlt, total]

/-- Different elements count for no more than all of a list that contains them. -/
theorem total_map_subset (f : α → Nat) (hnodup : l.Nodup) (hsub : l ⊆ m) : total (l.map f) ≤ total (m.map f) := by
  obtain ⟨l', hperm, hsublist⟩ := hnodup.subperm hsub
  rw [← total_perm (hperm.map f)]
  exact total_sublist (hsublist.map f)

end

namespace ScalarExpr

variable {e : ScalarExpr} {f : Nat → ScalarExpr} {i n : Nat}

/-! ## Inputs -/

/-- Whether an expression reads an input. -/
def Reads (e : ScalarExpr) (i : Nat) : Prop := 0 < e.inputUses i

@[simp] theorem reads_input {j : Nat} : (input i).Reads j ↔ j = i := by
  simp only [Reads, inputUses]
  split <;> omega

@[simp] theorem not_reads_constant {c : Single} : ¬(constant c).Reads i := Nat.not_lt_zero _

@[simp] theorem reads_unary {fn : ScalarFn} {x : ScalarExpr} : (unary fn x).Reads i ↔ x.Reads i := Iff.rfl

@[simp] theorem reads_binary {fn : ScalarFn} {a b : ScalarExpr} : (binary fn a b).Reads i ↔ a.Reads i ∨ b.Reads i := by
  simp only [Reads, inputUses]
  omega

theorem numInputs_le_iff : e.numInputs ≤ n ↔ ∀ i, e.Reads i → i < n := by
  induction e with
  | input i =>
    simp only [numInputs, reads_input, forall_eq]
    exact Nat.succ_le_iff
  | constant c => simp [numInputs]
  | unary fn x ih => exact ih
  | binary fn a b iha ihb => simp only [numInputs, Nat.max_le, iha, ihb, reads_binary, or_imp, forall_and]

/-! ## Values -/

/-- The value of an expression, where its inputs have the given values. -/
def evalWith (x : Nat → Single) : ScalarExpr → Single
  | .input i => x i
  | .constant c => c
  | .unary fn e => fn.unary (e.evalWith x)
  | .binary fn a b => fn.binary (a.evalWith x) (b.evalWith x)

theorem eval_eq (e : ScalarExpr) (xs : List Single) : e.eval xs = e.evalWith fun i => xs.getD i .nan := by
  induction e with
  | input i => rfl
  | constant c => rfl
  | unary fn x ih => simp only [eval, evalWith, ih]
  | binary fn a b iha ihb => simp only [eval, evalWith, iha, ihb]

/-- Only inputs that are read matter. -/
theorem evalWith_congr {x y : Nat → Single} (h : ∀ i, e.Reads i → x i = y i) : e.evalWith x = e.evalWith y := by
  induction e with
  | input i => exact h i (reads_input.2 rfl)
  | constant c => rfl
  | unary fn e ih => simp only [evalWith, ih h]
  | binary fn a b iha ihb =>
    simp only [evalWith, iha fun i hi => h i (reads_binary.2 (.inl hi)), ihb fun i hi => h i (reads_binary.2 (.inr hi))]

theorem evalWith_mapInputs (e : ScalarExpr) (f : Nat → ScalarExpr) (x : Nat → Single) :
    (e.mapInputs f).evalWith x = e.evalWith fun i => (f i).evalWith x := by
  induction e with
  | input i => rfl
  | constant c => rfl
  | unary fn e ih => simp only [mapInputs, evalWith, ih]
  | binary fn a b iha ihb => simp only [mapInputs, evalWith, iha, ihb]

/-! ## Expressions for inputs -/

theorem mapInputs_congr {f g : Nat → ScalarExpr} (h : ∀ i, e.Reads i → f i = g i) : e.mapInputs f = e.mapInputs g := by
  induction e with
  | input i => exact h i (reads_input.2 rfl)
  | constant c => rfl
  | unary fn e ih => simp only [mapInputs, ih h]
  | binary fn a b iha ihb =>
    simp only [mapInputs, iha fun i hi => h i (reads_binary.2 (.inl hi)),
      ihb fun i hi => h i (reads_binary.2 (.inr hi))]

theorem mapInputs_mapInputs (e : ScalarExpr) (f g : Nat → ScalarExpr) :
    (e.mapInputs f).mapInputs g = e.mapInputs fun i => (f i).mapInputs g := by
  induction e with
  | input i => rfl
  | constant c => rfl
  | unary fn e ih => simp only [mapInputs, ih]
  | binary fn a b iha ihb => simp only [mapInputs, iha, ihb]

theorem reads_mapInputs {j : Nat} : (e.mapInputs f).Reads j ↔ ∃ i, e.Reads i ∧ (f i).Reads j := by
  induction e with
  | input i => simp [mapInputs]
  | constant c => simp [mapInputs]
  | unary fn e ih => exact ih
  | binary fn a b iha ihb => simp only [mapInputs, reads_binary, iha, ihb, or_and_right, exists_or]

/-- An input counts for what it is replaced by as often as it is read. -/
theorem opCount_mapInputs (hn : e.numInputs ≤ n) (f : Nat → ScalarExpr) : (e.mapInputs f).opCount =
    e.opCount + total ((List.range n).map fun i => e.inputUses i * (f i).opCount) := by
  induction e with
  | input i =>
    have hi : i < n := hn
    simp only [mapInputs, opCount, inputUses, total_range_single, if_pos hi, Nat.zero_add]
  | constant c => simp only [mapInputs, opCount, inputUses, Nat.zero_mul, total_map_zero]
  | unary fn e ih => simp only [mapInputs, opCount, inputUses, ih hn, Nat.add_assoc]
  | binary fn a b iha ihb =>
    obtain ⟨ha, hb⟩ := Nat.max_le.1 hn
    simp only [mapInputs, opCount, inputUses, iha ha, ihb hb, Nat.add_mul, total_map_add]
    omega

end ScalarExpr

end TensorGraph
