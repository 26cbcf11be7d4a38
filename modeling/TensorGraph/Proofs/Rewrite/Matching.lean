import TensorGraph.Proofs.Rewrite.Pruning
import TensorGraph.Rewrite.Pattern

/-!
# Matched patterns

If a pattern matches a value, the value is computed from the nodes that its symbols stand for. Where all symbols
have one name, it is computed from one node and from constants only.
-/

namespace TensorGraph

open Relation

namespace Bindings

/-- Whether names that are bound stay bound to the same nodes. -/
def Extends (b' b : Bindings) : Prop := ∀ name id, b.lookup name = some id → b'.lookup name = some id

theorem Extends.refl (b : Bindings) : b.Extends b := fun _ _ h => h

theorem Extends.trans {b b' b'' : Bindings} (h' : b''.Extends b') (h : b'.Extends b) : b''.Extends b :=
  fun name id hid => h' name id (h name id hid)

theorem extends_of_prefix {b b' : Bindings} (h : b <+: b') : b'.Extends b := by
  obtain ⟨added, rfl⟩ := h
  intro name id hid
  rw [List.lookup_append, hid]
  rfl

/-- The bindings with the key of an operator, if it has one. -/
def withKey (b : Bindings) (key : Option String) (id : NodeId) : Bindings :=
  match key with
  | some key => b ++ [(key, id)]
  | none => b

theorem prefix_withKey (b : Bindings) (key : Option String) (id : NodeId) : b <+: b.withKey key id := by
  cases key with
  | none => exact List.prefix_refl b
  | some key => exact List.prefix_append b _

end Bindings

namespace Pattern

mutual

/-- Whether a pattern contains a symbol with a name. -/
def mentions (x : String) : Pattern → Bool
  | .constant _ => false
  | .symbol name _ => name == x
  | .operator _ inputs _ => anyMentions x inputs

def anyMentions (x : String) : List Pattern → Bool
  | [] => false
  | p :: ps => mentions x p || anyMentions x ps

end

mutual

/-- Whether all symbols in a pattern have one name, and each operator in it has one below it. -/
def isOver (x : String) : Pattern → Bool
  | .constant _ => true
  | .symbol name _ => name == x
  | .operator _ inputs _ => anyMentions x inputs && allOver x inputs

def allOver (x : String) : List Pattern → Bool
  | [] => true
  | p :: ps => isOver x p && allOver x ps

end

end Pattern

namespace Graph

/-- Whether a value is computed from one node and constants, and each operator on the way depends on the node. -/
inductive Over (g : Graph) (x : NodeId) : NodeId → Prop
  | node : Over g x x
  | constant {v : NodeId} (h : (g.constant? v).isSome) : Over g x v
  | computed {v id : NodeId} (hv : v ∈ g.outputsOf id) (hpath : ∃ u ∈ g.inputsOf id, ReflTransGen g.Computes x u)
      (hinputs : ∀ u ∈ g.inputsOf id, Over g x u) : Over g x v

end Graph

namespace Pattern

variable {g : Graph} {id : NodeId} {b b' : Bindings}

/-- A symbol is bound to a readable node, unless it is bound to it already. -/
theorem bindSymbol_cases {name : String} {constantOnly : Bool} (h : bindSymbol g id b name constantOnly = some b') :
    g.isReadable id = true ∧ (constantOnly = true → (g.constant? id).isSome = true) ∧
      (b.lookup name = some id ∧ b' = b ∨ b.lookup name = none ∧ b' = b ++ [(name, id)]) := by
  unfold bindSymbol at h
  split at h
  · cases h
  · next hnode =>
    simp only [Bool.or_eq_true, Bool.not_eq_true', Bool.and_eq_true, not_or, Bool.not_eq_false, not_and,
      Option.isNone_iff_eq_none, ← ne_eq, Option.ne_none_iff_isSome] at hnode
    refine ⟨hnode.1, hnode.2, ?_⟩
    split at h
    · next bound hbound =>
      split at h
      · next heq =>
        cases h
        exact .inl ⟨heq ▸ hbound, rfl⟩
      · cases h
    · next hnone =>
      cases h
      exact .inr ⟨hnone, rfl⟩

theorem bindSymbol_eq_some {name : String} {constantOnly : Bool}
    (h : bindSymbol g id b name constantOnly = some b') : b'.Extends b ∧ b'.lookup name = some id := by
  obtain ⟨-, -, ⟨hbound, rfl⟩ | ⟨hnone, rfl⟩⟩ := bindSymbol_cases h
  · exact ⟨.refl _, hbound⟩
  · refine ⟨Bindings.extends_of_prefix (List.prefix_append b _), ?_⟩
    rw [List.lookup_append, hnone]
    simp

/-- What a match says about a node, for all bindings that extend those of the match. -/
structure Matched (g : Graph) (p : Pattern) (id : NodeId) (b' b : Bindings) : Prop where
  extended : b'.Extends b
  path : ∀ c : Bindings, c.Extends b' → ∀ name x, c.lookup name = some x → p.mentions name = true →
    ReflTransGen g.Computes x id
  covers : ∀ c : Bindings, c.Extends b' → ∀ name x, c.lookup name = some x → p.isOver name = true → g.Over x id

/-- What matches of several patterns say about nodes. -/
structure AllMatched (g : Graph) (ps : List Pattern) (ids : List NodeId) (b' b : Bindings) : Prop where
  extended : b'.Extends b
  path : ∀ c : Bindings, c.Extends b' → ∀ name x, c.lookup name = some x → anyMentions name ps = true →
    ∃ id ∈ ids, ReflTransGen g.Computes x id
  covers : ∀ c : Bindings, c.Extends b' → ∀ name x, c.lookup name = some x → allOver name ps = true →
    ∀ id ∈ ids, g.Over x id

theorem AllMatched.nil (b : Bindings) : AllMatched g [] [] b b :=
  ⟨.refl b, fun _ _ _ _ _ h => (by cases h), fun _ _ _ _ _ _ _ h => (by cases h)⟩

/-- The first match may come before or after the others. -/
theorem AllMatched.cons {p : Pattern} {ps : List Pattern} {ids : List NodeId} {b₁ b₂ b₁' b₂' : Bindings}
    (h : Matched g p id b₁' b₁) (hs : AllMatched g ps ids b₂' b₂) (hb : b'.Extends b) (h₁ : b'.Extends b₁')
    (h₂ : b'.Extends b₂') : AllMatched g (p :: ps) (id :: ids) b' b := by
  refine ⟨hb, fun c hc name x hx hany => ?_, fun c hc name x hx hall => ?_⟩
  · rw [anyMentions, Bool.or_eq_true] at hany
    rcases hany with hp | hps
    · exact ⟨id, List.mem_cons_self .., h.path c (hc.trans h₁) name x hx hp⟩
    · obtain ⟨id', hid', hpath⟩ := hs.path c (hc.trans h₂) name x hx hps
      exact ⟨id', List.mem_cons_of_mem _ hid', hpath⟩
  · rw [allOver, Bool.and_eq_true] at hall
    exact List.forall_mem_cons.2 ⟨h.covers c (hc.trans h₁) name x hx hall.1, hs.covers c (hc.trans h₂) name x hx hall.2⟩

theorem operatorAt?_eq_some (hg : g.Indexed) (hid : g.isReadable id = true) {opId : NodeId} {op : OperatorNode}
    (h : operatorAt? g id = some (opId, op)) : g.operator? opId = some op ∧ id ∈ g.outputsOf opId := by
  unfold operatorAt? at h
  cases hnode : g.node? id with
  | none => simp [hnode] at h
  | some node =>
    cases node with
    | operator n => simp [Graph.isReadable, hnode, Node.isReadable] at hid
    | constant n => simp [hnode] at h
    | value n =>
      simp only [hnode] at h
      exact (Graph.producer?_eq_some hg).1 h

/-- What matching an operator comes down to. -/
theorem matchNode_operator_eq (id : NodeId) (b : Bindings) (name : String) (inputs : List Pattern)
    (key : Option String) : (operator name inputs key).matchNode g id b =
      match operatorAt? g id with
      | none => none
      | some (opId, op) =>
        if op.op.name != name || inputs.length != op.inputs.length then none
        else
          (if op.op.isCommutative && inputs.length == 2 then
            matchForward g op.inputs b inputs <|> matchBackward g op.inputs.reverse b inputs
          else matchForward g op.inputs b inputs).bind fun b => some (b.withKey key opId) := by
  rw [matchNode]
  cases operatorAt? g id with
  | none => rfl
  | some found =>
    obtain ⟨opId, op⟩ := found
    change (if op.op.name != name || inputs.length != op.inputs.length then _ else _) = _
    dsimp only
    split
    · rfl
    · split <;> rfl

/-- A pattern for an operator that matches a node matches the inputs of the operator at the node, in their order or in
the other one. -/
theorem matchNode_operator_cases {name : String} {inputs : List Pattern} {key : Option String}
    (h : (Pattern.operator name inputs key).matchNode g id b = some b') :
    ∃ opId op found, operatorAt? g id = some (opId, op) ∧ op.op.name = name ∧ inputs.length = op.inputs.length ∧
      (matchForward g op.inputs b inputs = some found ∨ op.op.isCommutative = true ∧ inputs.length = 2 ∧
        matchBackward g op.inputs.reverse b inputs = some found) ∧ b' = found.withKey key opId := by
  rw [matchNode_operator_eq] at h
  split at h
  · cases h
  · next opId op hop =>
    split at h
    · cases h
    · next hshape =>
      simp only [bne_iff_ne, Bool.or_eq_true, not_or, ne_eq, Decidable.not_not] at hshape
      obtain ⟨found, hfound, h⟩ := Option.bind_eq_some_iff.1 h
      refine ⟨opId, op, found, hop, hshape.1, hshape.2, ?_, (Option.some.inj h).symm⟩
      split at hfound
      · next hswap =>
        simp only [Bool.and_eq_true, beq_iff_eq] at hswap
        have hor := Option.or_eq_some_iff.1 (Option.or_eq_orElse.trans hfound)
        exact hor.imp_right fun hbackward => ⟨hswap.1, hswap.2, hbackward.2⟩
      · exact .inl hfound

/-- A pattern for an operator that matches a value matches the inputs of its producer. -/
theorem matchNode_operator {name : String} {inputs : List Pattern} {key : Option String}
    (hg : g.Indexed) (hid : g.isReadable id = true)
    (h : (Pattern.operator name inputs key).matchNode g id b = some b') :
    ∃ opId op found, g.operator? opId = some op ∧ id ∈ g.outputsOf opId ∧ inputs.length = op.inputs.length ∧
      (matchForward g op.inputs b inputs = some found ∨ matchBackward g op.inputs.reverse b inputs = some found) ∧
      b'.Extends found := by
  obtain ⟨opId, op, found, hop, -, hlength, hfound, rfl⟩ := matchNode_operator_cases h
  obtain ⟨hop, hout⟩ := operatorAt?_eq_some hg hid hop
  exact ⟨opId, op, found, hop, hout, hlength, hfound.imp_right fun h => h.2.2,
    Bindings.extends_of_prefix (Bindings.prefix_withKey found key opId)⟩

/-- A pattern for an operator with one input. -/
theorem matchNode_unary {name : String} {p : Pattern} (hg : g.Indexed) (hid : g.isReadable id = true)
    (h : (Pattern.unary name p).matchNode g id b = some b') : ∃ opId op input, g.operator? opId = some op ∧
      id ∈ op.outputs ∧ op.op.name = name ∧ op.inputs = [input] ∧ p.matchNode g input b = some b' := by
  obtain ⟨opId, op, found, hop, hname, hlength, hfound, rfl⟩ := matchNode_operator_cases h
  obtain ⟨hop, hout⟩ := operatorAt?_eq_some hg hid hop
  obtain ⟨input, hinput⟩ := List.length_eq_one_iff.1 hlength.symm
  rw [hinput] at hfound
  have hforward := hfound.resolve_right fun hswap => by cases hswap.2.1
  refine ⟨opId, op, input, hop, Graph.outputsOf_of_operator? hop ▸ hout, hname, hinput, ?_⟩
  simpa [matchForward] using hforward

/-- What is said about an operator's output follows from what is said about the inputs. -/
theorem AllMatched.operator {name : String} {inputs : List Pattern} {key : Option String} {found : Bindings}
    {opId : NodeId} {op : OperatorNode} {ids : List NodeId} (hop : g.operator? opId = some op)
    (hid : id ∈ g.outputsOf opId) (hids : ∀ v, v ∈ ids ↔ v ∈ op.inputs) (h : AllMatched g inputs ids found b)
    (hb : b'.Extends found) : Matched g (.operator name inputs key) id b' b := by
  have hins := Graph.inputsOf_of_operator? hop
  refine ⟨hb.trans h.extended, fun c hc name x hx hany => ?_, fun c hc name x hx hover => ?_⟩
  · obtain ⟨u, hu, hpath⟩ := h.path c (hc.trans hb) name x hx hany
    exact hpath.tail ⟨opId, hins ▸ (hids u).1 hu, hid⟩
  · rw [isOver, Bool.and_eq_true] at hover
    obtain ⟨u, hu, hpath⟩ := h.path c (hc.trans hb) name x hx hover.1
    refine .computed hid ⟨u, hins ▸ (hids u).1 hu, hpath⟩ fun w hw => ?_
    exact h.covers c (hc.trans hb) name x hx hover.2 w ((hids w).2 (hins ▸ hw))

mutual

theorem matched_of_matchNode (hg : g.Indexed) (hformed : g.WellFormed) :
    (p : Pattern) → ∀ {id : NodeId} {b b' : Bindings}, g.isReadable id = true → p.matchNode g id b = some b' →
      Matched g p id b' b
  | .constant x, id, b, b', _, h => by
    rw [matchNode] at h
    split at h
    · next hany =>
      cases h
      exact ⟨.refl b, fun _ _ _ _ _ hmem => (by cases hmem), fun _ _ _ _ _ _ => .constant (Option.isSome_of_any hany)⟩
    · cases h
  | .symbol name constantOnly, id, b, b', _, h => by
    rw [matchNode] at h
    obtain ⟨hext, hbound⟩ := bindSymbol_eq_some h
    have hsame (c : Bindings) (hc : c.Extends b') (name' : String) (x : NodeId) (hx : c.lookup name' = some x)
        (hname : (name == name') = true) : x = id := by
      rw [← eq_of_beq hname, hc name id hbound] at hx
      exact (Option.some.inj hx).symm
    refine ⟨hext, fun c hc name' x hx hname => ?_, fun c hc name' x hx hname => ?_⟩
    · exact hsame c hc name' x hx hname ▸ .refl
    · exact hsame c hc name' x hx hname ▸ .node
  | .operator name inputs key, id, b, b', hid, h => by
    obtain ⟨opId, op, found, hop, hout, hlength, hfound, hext⟩ := matchNode_operator hg hid h
    have hread : ∀ v ∈ op.inputs, g.isReadable v = true := hformed.reads opId op hop
    rcases hfound with hforward | hbackward
    · exact (allMatched_of_matchForward hg hformed inputs hlength hread hforward).operator hop hout
        (fun _ => Iff.rfl) hext
    · exact (allMatched_of_matchBackward hg hformed inputs (by rwa [List.length_reverse])
        (fun v hv => hread v (List.mem_reverse.1 hv)) hbackward).operator hop hout (fun _ => List.mem_reverse) hext

theorem allMatched_of_matchForward (hg : g.Indexed) (hformed : g.WellFormed) :
    (ps : List Pattern) → ∀ {ids : List NodeId} {b b' : Bindings}, ps.length = ids.length →
      (∀ id ∈ ids, g.isReadable id = true) → matchForward g ids b ps = some b' → AllMatched g ps ids b' b
  | [], ids, b, b', hlength, _, h => by
    obtain rfl : ids = [] := List.eq_nil_of_length_eq_zero hlength.symm
    rw [matchForward] at h
    · cases h
      exact .nil b
    · simp
  | p :: ps, ids, b, b', hlength, hids, h => by
    cases ids with
    | nil => cases hlength
    | cons id ids =>
      obtain ⟨hid, hids⟩ := List.forall_mem_cons.1 hids
      rw [matchForward] at h
      obtain ⟨next, hnext, h⟩ := Option.bind_eq_some_iff.1 h
      have hfirst := matched_of_matchNode hg hformed p hid hnext
      have hrest := allMatched_of_matchForward hg hformed ps (Nat.succ.inj hlength) hids h
      exact .cons hfirst hrest (hrest.extended.trans hfirst.extended) hrest.extended (.refl b')

theorem allMatched_of_matchBackward (hg : g.Indexed) (hformed : g.WellFormed) :
    (ps : List Pattern) → ∀ {ids : List NodeId} {b b' : Bindings}, ps.length = ids.length →
      (∀ id ∈ ids, g.isReadable id = true) → matchBackward g ids b ps = some b' → AllMatched g ps ids b' b
  | [], ids, b, b', hlength, _, h => by
    obtain rfl : ids = [] := List.eq_nil_of_length_eq_zero hlength.symm
    rw [matchBackward] at h
    · cases h
      exact .nil b
    · simp
  | p :: ps, ids, b, b', hlength, hids, h => by
    cases ids with
    | nil => cases hlength
    | cons id ids =>
      obtain ⟨hid, hids⟩ := List.forall_mem_cons.1 hids
      rw [matchBackward] at h
      obtain ⟨next, hnext, h⟩ := Option.bind_eq_some_iff.1 h
      have hrest := allMatched_of_matchBackward hg hformed ps (Nat.succ.inj hlength) hids hnext
      have hfirst := matched_of_matchNode hg hformed p hid h
      exact .cons hfirst hrest (hfirst.extended.trans hrest.extended) (.refl b') hfirst.extended

end

/-! ## Matched values -/

variable {name symbol : String} {inputs : List Pattern} {key : Option String} {x : NodeId} {found : Bindings}

/-- The output of a matched operator depends on what a symbol below it stands for. -/
theorem transGen_of_match? (hg : g.Indexed) (hformed : g.WellFormed) (hid : g.isReadable id = true)
    (h : (Pattern.operator name inputs key).match? g id = some found) (hx : found.lookup symbol = some x)
    (hsymbol : anyMentions symbol inputs = true) : TransGen g.Computes x id := by
  obtain ⟨opId, op, b, hop, hout, hlength, hfound, hext⟩ := matchNode_operator hg hid h
  have hread : ∀ v ∈ op.inputs, g.isReadable v = true := hformed.reads opId op hop
  have hpath : ∃ u ∈ op.inputs, ReflTransGen g.Computes x u := by
    rcases hfound with hforward | hbackward
    · exact (allMatched_of_matchForward hg hformed inputs hlength hread hforward).path found hext symbol x hx hsymbol
    · obtain ⟨u, hu, hpath⟩ := (allMatched_of_matchBackward hg hformed inputs (by rwa [List.length_reverse])
        (fun v hv => hread v (List.mem_reverse.1 hv)) hbackward).path found hext symbol x hx hsymbol
      exact ⟨u, List.mem_reverse.1 hu, hpath⟩
  obtain ⟨u, hu, hpath⟩ := hpath
  exact .tail' hpath ⟨opId, Graph.inputsOf_of_operator? hop ▸ hu, hout⟩

theorem over_of_match? (hg : g.Indexed) (hformed : g.WellFormed) {p : Pattern} (hid : g.isReadable id = true)
    (h : p.match? g id = some found) (hx : found.lookup symbol = some x) (hsymbol : p.isOver symbol = true) :
    g.Over x id :=
  (matched_of_matchNode hg hformed p hid h).covers found (.refl found) symbol x hx hsymbol

end Pattern

/-- The operators that compute a value from one node and constants do not produce that node. -/
theorem Graph.Over.not_mem_outputsOf {g : Graph} (hg : g.Indexed) (hacyclic : g.Acyclic) {x output id : NodeId}
    {start : List NodeId} (hx : x ∈ start) (hconstants : g.constantIds ⊆ start) (h : g.Over x output)
    (hid : g.MetOperator start [output] id) : x ∉ g.outputsOf id := by
  have hover (v : NodeId) (hv : g.Met start [output] v) : g.Over x v := by
    induction hv with
    | output hv => exact List.mem_singleton.1 hv ▸ h
    | @input v w source _ hv hsource hw ih =>
      cases ih with
      | node => exact absurd hx hv
      | constant hconstant => exact absurd (hconstants (mem_constantIds.2 hconstant)) hv
      | computed hout _ hinputs => exact hinputs w (hg.producer_unique hsource hout ▸ hw)
  obtain ⟨v, hmet, hv, hid⟩ := hid
  intro hmem
  cases hover v hmet with
  | node => exact hv hx
  | constant hconstant => exact hv (hconstants (mem_constantIds.2 hconstant))
  | computed hout hpath _ =>
    obtain ⟨u, hu, hpath⟩ := hpath
    exact hacyclic x (.tail' hpath ⟨id, hg.producer_unique hout hid ▸ hu, hmem⟩)

end TensorGraph
