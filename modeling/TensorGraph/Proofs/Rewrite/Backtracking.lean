import TensorGraph.Proofs.Rewrite.Matching
import TensorGraph.Rewrite.Trail

/-!
# Matching on a trail finds the same matches

The search on a trail succeeds with the bindings that matching gives, and fails where there is no match
(`Pattern.searched?_eq_match?`). A search that fails may leave bindings, but only after those that it began with, and
all checkpoints are as they were (`Refines`). An attempt that fails leaves nothing (`Restores`), so that the second
order of two inputs is searched on the trail that the first order began with.
-/

namespace TensorGraph

/-! ## Searches and what they compute -/

/-- Whether a search on a trail does what a function of the bindings says. Where the function gives bindings, the search
succeeds with them; elsewhere it fails. In both cases it only adds bindings, and keeps the checkpoints. -/
structure Refines (s : Search) (m : Bindings → Option Bindings) : Prop where
  succeeds : ∀ t b, m t.bound = some b → t.bound <+: b ∧ s t = (true, ⟨b, t.checkpoints⟩)
  fails : ∀ t, m t.bound = none → ∃ left, t.bound <+: left ∧ s t = (false, ⟨left, t.checkpoints⟩)

/-- Whether a search does so and leaves no bindings where it fails. -/
structure Restores (s : Search) (m : Bindings → Option Bindings) : Prop where
  succeeds : ∀ t b, m t.bound = some b → t.bound <+: b ∧ s t = (true, ⟨b, t.checkpoints⟩)
  fails : ∀ t, m t.bound = none → s t = (false, t)

variable {s r : Search} {m n : Bindings → Option Bindings}

theorem Restores.refines (h : Restores s m) : Refines s m :=
  ⟨h.succeeds, fun t hnone => ⟨t.bound, List.prefix_refl _, h.fails t hnone⟩⟩

/-- Both cases at once. -/
theorem Restores.of_forall (h : ∀ t : Trail, match m t.bound with
    | some b => t.bound <+: b ∧ s t = (true, ⟨b, t.checkpoints⟩)
    | none => s t = (false, t)) : Restores s m := by
  refine ⟨fun t b hb => ?_, fun t hnone => ?_⟩
  · have ht := h t
    rwa [hb] at ht
  · have ht := h t
    rwa [hnone] at ht

theorem restores_test (c : Bool) : Restores (.test c) fun b => if c then some b else none := by
  refine .of_forall fun t => ?_
  cases c with
  | true => exact ⟨List.prefix_refl _, rfl⟩
  | false => rfl

theorem Refines.both (hs : Refines s m) (hr : Refines r n) : Refines (.both s r) fun b => (m b).bind n := by
  constructor
  · intro t b h
    obtain ⟨c, hc, hb⟩ := Option.bind_eq_some_iff.1 h
    obtain ⟨hfirst, hrun⟩ := hs.succeeds t c hc
    obtain ⟨hsecond, hrun'⟩ := hr.succeeds ⟨c, t.checkpoints⟩ b hb
    exact ⟨hfirst.trans hsecond, by rw [Search.both, hrun]; exact hrun'⟩
  · intro t h
    cases hc : m t.bound with
    | none =>
      obtain ⟨left, hleft, hrun⟩ := hs.fails t hc
      exact ⟨left, hleft, by rw [Search.both, hrun]⟩
    | some c =>
      rw [hc] at h
      obtain ⟨hfirst, hrun⟩ := hs.succeeds t c hc
      obtain ⟨left, hleft, hrun'⟩ := hr.fails ⟨c, t.checkpoints⟩ h
      exact ⟨left, hfirst.trans hleft, by rw [Search.both, hrun]; exact hrun'⟩

/-- Reverting cuts off exactly what a failed search has left. -/
theorem Refines.attempt (h : Refines s m) : Restores (.attempt s) m := by
  constructor
  · intro t b hb
    obtain ⟨hkept, hrun⟩ := h.succeeds t.checkpoint b hb
    exact ⟨hkept, by rw [Search.attempt, hrun]; rfl⟩
  · intro t hnone
    obtain ⟨left, hleft, hrun⟩ := h.fails t.checkpoint hnone
    have hcut : left.take t.bound.length = t.bound := (List.prefix_iff_eq_take.1 hleft).symm
    rw [Search.attempt, hrun]
    exact congrArg (fun b => (false, Trail.mk b t.checkpoints)) hcut

theorem Restores.either (hs : Restores s m) (hr : Restores r n) : Restores (.either s r) fun b => m b <|> n b := by
  refine .of_forall fun t => ?_
  unfold Search.either
  cases hm : m t.bound with
  | some b =>
    obtain ⟨hkept, hrun⟩ := hs.succeeds t b hm
    exact ⟨hkept, by rw [hrun]⟩
  | none =>
    -- The second search begins with the trail that the first one began with.
    rw [hs.fails t hm]
    cases hn : n t.bound with
    | some b => exact hr.succeeds t b hn
    | none => exact hr.fails t hn

theorem refines_bindKey (key : Option String) (id : NodeId) :
    Refines (.bindKey key id) fun b => some (b.withKey key id) := by
  refine ⟨fun t b h => ?_, nofun⟩
  cases h
  refine ⟨Bindings.prefix_withKey _ key id, ?_⟩
  cases key <;> rfl

namespace Pattern

variable {g : Graph}

theorem restores_resolve (name : String) (id : NodeId) : Restores (.resolve name id) fun b =>
    match b.lookup name with
    | some bound => if bound = id then some b else none
    | none => some (b ++ [(name, id)]) := by
  refine .of_forall fun t => ?_
  unfold Search.resolve Trail.find?
  cases t.bound.lookup name with
  | none => exact ⟨List.prefix_append _ _, rfl⟩
  | some bound =>
    dsimp only
    by_cases heq : bound = id
    · rw [if_pos heq]
      exact ⟨List.prefix_refl _, congrArg (·, t) (beq_iff_eq.2 heq)⟩
    · rw [if_neg heq]
      exact congrArg (·, t) (beq_eq_false_iff_ne.2 heq)

theorem restores_symbol (name : String) (constantOnly : Bool) (id : NodeId) :
    Restores (search g id (.symbol name constantOnly)) fun b => bindSymbol g id b name constantOnly := by
  unfold search bindSymbol
  split
  · exact restores_test false
  · exact restores_resolve name id

mutual

/-- By induction on the pattern. Only the orders of two inputs are attempts; all else leaves its bindings on failure. -/
theorem refines_search (id : NodeId) : (p : Pattern) → Refines (p.search g id) fun b => p.matchNode g id b
  | .constant x => by
    simp only [search, matchNode]
    exact (restores_test _).refines
  | .symbol name constantOnly => by
    simp only [matchNode]
    exact (restores_symbol name constantOnly id).refines
  | .operator name inputs key => by
    simp only [search, matchNode_operator_eq]
    cases operatorAt? g id with
    | none => exact (restores_test false).refines
    | some found =>
      obtain ⟨opId, op⟩ := found
      dsimp only
      split
      · exact (restores_test false).refines
      -- The key is bound last, so that an operator whose inputs fail to match leaves none.
      · refine Refines.both ?_ (refines_bindKey key opId)
        have hforward := refines_searchForward op.inputs inputs
        split
        · exact (hforward.attempt.either (refines_searchBackward op.inputs.reverse inputs).attempt).refines
        · exact hforward

theorem refines_searchForward : (ids : List NodeId) → (ps : List Pattern) →
    Refines (searchForward g ids ps) fun b => matchForward g ids b ps
  | id :: ids, p :: ps => by
    simp only [searchForward, matchForward]
    exact (refines_search id p).both (refines_searchForward ids ps)
  | [], ps => by
    simp only [searchForward, matchForward]
    exact (restores_test true).refines
  | id :: ids, [] => by
    simp only [searchForward, matchForward]
    exact (restores_test true).refines

theorem refines_searchBackward : (ids : List NodeId) → (ps : List Pattern) →
    Refines (searchBackward g ids ps) fun b => matchBackward g ids b ps
  | id :: ids, p :: ps => by
    simp only [searchBackward, matchBackward]
    exact (refines_searchBackward ids ps).both (refines_search id p)
  | [], ps => by
    simp only [searchBackward, matchBackward]
    exact (restores_test true).refines
  | id :: ids, [] => by
    simp only [searchBackward, matchBackward]
    exact (restores_test true).refines

end

variable {ids : List NodeId} {p : Pattern} {ps : List Pattern} {id : NodeId} {b b' found : Bindings}

/-- On an empty trail, the search gives the match and has taken back all checkpoints. -/
theorem search_of_match? (h : p.match? g id = some found) : p.search g id {} = (true, ⟨found, []⟩) :=
  ((refines_search id p).succeeds {} found h).2

/-- The search finds the matches that matching without a trail finds. -/
theorem searched?_eq_match? (p : Pattern) (g : Graph) (id : NodeId) : p.searched? g id = p.match? g id := by
  unfold searched?
  cases h : p.match? g id with
  | some found => rw [search_of_match? h]
  | none =>
    obtain ⟨left, -, hrun⟩ := (refines_search id p).fails {} h
    rw [hrun]

theorem prefix_of_matchNode (h : p.matchNode g id b = some b') : b <+: b' :=
  ((refines_search id p).succeeds ⟨b, []⟩ b' h).1

theorem prefix_of_matchForward (h : matchForward g ids b ps = some b') : b <+: b' :=
  ((refines_searchForward ids ps).succeeds ⟨b, []⟩ b' h).1

end Pattern

end TensorGraph
