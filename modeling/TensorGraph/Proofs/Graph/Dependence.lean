import Mathlib.Data.Set.Finite.List
import Mathlib.Logic.Relation
import Mathlib.Order.WellFounded
import TensorGraph.Proofs.Graph.Edges

/-!
# Dependence between values

A value depends on those that it is computed from. A graph is `Acyclic` if no value depends on itself, and as there
are finitely many operators, dependence is then well-founded. Operators depend on those whose outputs they read, and a
graph is acyclic exactly if no operator depends on itself (`acyclic_iff_not_dependsOn`).
-/

namespace TensorGraph.Graph

open Relation

/-- Whether an operator reads the first value and produces the second one. -/
def Computes (g : Graph) (v w : NodeId) : Prop := ∃ id, v ∈ g.inputsOf id ∧ w ∈ g.outputsOf id

/-- Whether no value depends on itself. -/
def Acyclic (g : Graph) : Prop := ∀ v, ¬TransGen g.Computes v v

/-! ## Finite relations -/

section Finite

variable {α : Type} {r : α → α → Prop}

/-- A relation without cycles is well-founded, if only finitely many elements have others below them. -/
theorem wellFounded_of_not_transGen (l : List α) (hl : ∀ a b, r a b → b ∈ l) (h : ∀ a, ¬TransGen r a a) :
    WellFounded r := by
  have hleaf : ∀ a, a ∉ l → Acc r a := fun a ha => ⟨a, fun b hb => absurd (hl b a hb) ha⟩
  let below (a b : { a // a ∈ l }) : Prop := TransGen r a.1 b.1
  have : IsTrans _ below := ⟨fun _ _ _ => TransGen.trans⟩
  have : Std.Irrefl below := ⟨fun a => h a.1⟩
  have : Finite { a // a ∈ l } := (List.finite_toSet l).to_subtype
  have hbelow : WellFounded below := Finite.wellFounded_of_trans_of_irrefl below
  have hin : ∀ a : { a // a ∈ l }, Acc r a.1 := by
    intro a
    induction a using hbelow.induction with
    | _ a ih =>
      refine ⟨a.1, fun b hb => ?_⟩
      by_cases hmem : b ∈ l
      · exact ih ⟨b, hmem⟩ (.single hb)
      · exact hleaf b hmem
  refine ⟨fun a => ?_⟩
  by_cases hmem : a ∈ l
  · exact hin ⟨a, hmem⟩
  · exact hleaf a hmem

theorem not_transGen_of_acc {a : α} (h : Acc r a) : ¬TransGen r a a := by
  replace h := h.transGen
  induction h with
  | intro a _ ih => exact fun hcycle => ih a hcycle hcycle

end Finite

/-! ## Added edges -/

section Added

variable {α : Type} {r : α → α → Prop} {p q : α → Prop}

/-- A path through old and new edges is a path through old ones, or it ends with one after the last new edge. -/
theorem transGen_added {x y : α} (h : TransGen (fun a b => r a b ∨ p a ∧ q b) x y) :
    TransGen r x y ∨ ∃ a b, ReflTransGen (fun a b => r a b ∨ p a ∧ q b) x a ∧ p a ∧ q b ∧ ReflTransGen r b y := by
  induction h with
  | single hedge =>
    rcases hedge with hold | ⟨hp, hq⟩
    · exact .inl (.single hold)
    · exact .inr ⟨_, _, .refl, hp, hq, .refl⟩
  | tail hpath hedge ih =>
    rcases hedge with hold | ⟨hp, hq⟩
    · rcases ih with hpath | ⟨a, b, hstart, hp, hq, hend⟩
      · exact .inl (hpath.tail hold)
      · exact .inr ⟨a, b, hstart, hp, hq, hend.tail hold⟩
    · exact .inr ⟨_, _, hpath.to_reflTransGen, hp, hq, .refl⟩

/-- Edges from all elements with one property to all with another close a cycle exactly if there was a path back. -/
theorem not_transGen_added (h : ∀ a, ¬TransGen r a a) :
    (∀ a, ¬TransGen (fun a b => r a b ∨ p a ∧ q b) a a) ↔ ∀ a b, p a → q b → ¬ReflTransGen r b a := by
  constructor
  · intro hacyclic a b hp hq hpath
    exact hacyclic b (.tail' (ReflTransGen.mono (fun _ _ hold => .inl hold) _ _ hpath) (.inr ⟨hp, hq⟩))
  · intro hback x hcycle
    rcases transGen_added hcycle with hold | ⟨a, b, hstart, hp, hq, hend⟩
    · exact h x hold
    · have hpath := (ReflTransGen.mono (fun _ _ hold => Or.inl hold) _ _ hend).trans hstart
      rcases reflTransGen_iff_eq_or_transGen.1 hpath with rfl | hpath
      · exact hback a a hp hq .refl
      · rcases transGen_added hpath with hold | ⟨a', b', -, hp', hq', hend'⟩
        · exact hback a b hp hq hold.to_reflTransGen
        · exact hback a b' hp hq' hend'

end Added

/-! ## Dependence -/

variable {g : Graph}

theorem acyclic_iff_wellFounded : g.Acyclic ↔ WellFounded g.Computes := by
  refine ⟨wellFounded_of_not_transGen (g.operatorIds.flatMap g.outputsOf) ?_, fun h a => not_transGen_of_acc (h.apply a)⟩
  rintro v w ⟨id, -, hw⟩
  exact List.mem_flatMap.2 ⟨id, mem_operatorIds.2 (isSome_operator?_of_mem_outputsOf hw), hw⟩

/-- Whether an operator that is not in a list reads the first value and produces the second one. -/
def ComputesBeside (g : Graph) (ids : List NodeId) (v w : NodeId) : Prop :=
  ∃ id, id ∉ ids ∧ v ∈ g.inputsOf id ∧ w ∈ g.outputsOf id

theorem ComputesBeside.computes {ids : List NodeId} {v w : NodeId} (h : g.ComputesBeside ids v w) :
    g.Computes v w := by
  obtain ⟨id, -, hv, hw⟩ := h
  exact ⟨id, hv, hw⟩

theorem Acyclic.beside (h : g.Acyclic) (ids : List NodeId) (v : NodeId) : ¬TransGen (g.ComputesBeside ids) v v :=
  fun hcycle => h v (TransGen.mono (fun _ _ => ComputesBeside.computes) _ _ hcycle)

/-! ## Dependence between operators -/

/-- Whether an operator reads what another one produces. -/
def DependsOn (g : Graph) (id other : NodeId) : Prop := ∃ v ∈ g.inputsOf id, v ∈ g.outputsOf other

variable {a b : NodeId}

/-- What an operator that depends on another one reads depends on what this one produces. -/
theorem exists_path_of_dependsOn (h : TransGen g.DependsOn a b) :
    ∃ v ∈ g.outputsOf b, ∃ u ∈ g.inputsOf a, ReflTransGen g.Computes v u := by
  induction h with
  | single hdepends =>
    obtain ⟨v, hv, hout⟩ := hdepends
    exact ⟨v, hout, v, hv, .refl⟩
  | tail _ hdepends ih =>
    obtain ⟨v, hv, u, hu, hpath⟩ := ih
    obtain ⟨v', hv', hout⟩ := hdepends
    exact ⟨v', hout, u, hu, .head ⟨_, hv', hv⟩ hpath⟩

/-- A value depends on another one if its producer is, or depends on, an operator that reads the other one. -/
theorem exists_dependsOn_of_path {v w : NodeId} (h : TransGen g.Computes v w) :
    ∃ a b, v ∈ g.inputsOf a ∧ w ∈ g.outputsOf b ∧ ReflTransGen g.DependsOn b a := by
  induction h with
  | single hstep =>
    obtain ⟨id, hv, hw⟩ := hstep
    exact ⟨id, id, hv, hw, .refl⟩
  | tail _ hstep ih =>
    obtain ⟨a, b, hv, hw, hpath⟩ := ih
    obtain ⟨id, hw', hout⟩ := hstep
    exact ⟨a, id, hv, hout, .head ⟨_, hw', hw⟩ hpath⟩

/-- An operator that depends on itself produces a value that depends on itself. -/
theorem exists_cycle_of_dependsOn (h : TransGen g.DependsOn a a) : ∃ v ∈ g.outputsOf a, TransGen g.Computes v v := by
  obtain ⟨v, hv, u, hu, hpath⟩ := exists_path_of_dependsOn h
  exact ⟨v, hv, .tail' hpath ⟨a, hu, hv⟩⟩

theorem acyclic_iff_not_dependsOn : g.Acyclic ↔ ∀ id, ¬TransGen g.DependsOn id id := by
  constructor
  · intro h id hcycle
    obtain ⟨v, -, hpath⟩ := exists_cycle_of_dependsOn hcycle
    exact h v hpath
  · intro h v hcycle
    obtain ⟨a, b, hv, hw, hpath⟩ := exists_dependsOn_of_path hcycle
    exact h b (.tail' hpath ⟨v, hv, hw⟩)

end TensorGraph.Graph
