import TensorGraph.Proofs.Rewrite.Backtracking

/-!
# What patterns meet in a match

If a pattern matches a node, then there is a way to lay it over the subgraph at the node (`Pattern.Meets`): operators
meet operators of their names, with the inputs in order or, for two inputs of a commutative operator, in the other
order; constants meet constants of one element that are close to them. The bindings of the match are those of the
symbols and named operators that are met in this way and no others, and each symbol meets the one node that it is bound
to (`Pattern.match?_meets`).
-/

namespace TensorGraph

theorem Value.size_of_asScalar? {v : Value} {x : Single} (h : v.asScalar? = some x) : v.size = 1 := by
  have hitem {α : Type} {t : Tensor α} {y : α} (ht : t.item? = some y) : t.size = 1 := by
    unfold Tensor.item? at ht
    split at ht
    · assumption
    · cases ht
  cases v with
  | floats t => exact hitem h
  | ints t =>
    obtain ⟨y, hy, -⟩ := Option.map_eq_some_iff.1 h
    exact hitem hy

namespace Pattern

/-! ## Patterns that meet nodes -/

/-- A symbol or a named operator of a pattern, and the node that it meets. -/
inductive Use where
  | symbol (name : String) (node : NodeId)
  | operator (key : String) (node : NodeId)
deriving DecidableEq, Repr

namespace Use

/-- The binding of what is met. -/
def binding : Use → String × NodeId
  | symbol name node => (name, node)
  | operator key node => (key, node)

/-- An operator with its key, if it has one. -/
def ofKey (key : Option String) (node : NodeId) : List Use := (key.map (operator · node)).toList

end Use

mutual

/-- Whether a pattern can be laid over the subgraph at a node, with what its symbols and named operators meet there. -/
inductive Meets (g : Graph) : Pattern → NodeId → List Use → Prop
  /-- A constant meets a constant of one element, up to the tolerance. -/
  | constant {x y : Single} {id : NodeId} {v : Value} (hv : g.constant? id = some v) (hone : v.size = 1)
      (hy : v.asScalar? = some y) (hnear : (y.sub x).abs.le tolerance = true) : Meets g (.constant x) id []
  /-- A symbol meets a value or a constant, and a symbol for constants only a constant. -/
  | symbol {name : String} {constantOnly : Bool} {id : NodeId} (hread : g.isReadable id = true)
      (hconstant : constantOnly = true → (g.constant? id).isSome = true) :
      Meets g (.symbol name constantOnly) id [.symbol name id]
  /-- An operator meets an operator of that name, or its output, and its inputs meet the inputs in order. -/
  | operator {name : String} {inputs : List Pattern} {key : Option String} {id opId : NodeId} {op : OperatorNode}
      {uses : List Use} (hop : operatorAt? g id = some (opId, op)) (hname : op.op.name = name)
      (hinputs : MeetsAll g inputs op.inputs uses) : Meets g (.operator name inputs key) id (uses ++ Use.ofKey key opId)
  /-- If the operator that is met is commutative, two inputs can be swapped. -/
  | swapped {name : String} {inputs : List Pattern} {key : Option String} {id opId : NodeId} {op : OperatorNode}
      {uses : List Use} (hop : operatorAt? g id = some (opId, op)) (hname : op.op.name = name)
      (hcommutative : op.op.isCommutative = true) (htwo : inputs.length = 2)
      (hinputs : MeetsAll g inputs op.inputs.reverse uses) :
      Meets g (.operator name inputs key) id (uses ++ Use.ofKey key opId)

/-- Whether as many patterns as nodes meet the nodes, each the one at its position. -/
inductive MeetsAll (g : Graph) : List Pattern → List NodeId → List Use → Prop
  | nil : MeetsAll g [] [] []
  | cons {p : Pattern} {ps : List Pattern} {id : NodeId} {ids : List NodeId} {uses uses' : List Use}
      (h : Meets g p id uses) (hs : MeetsAll g ps ids uses') : MeetsAll g (p :: ps) (id :: ids) (uses ++ uses')

end

/-! ## What is bound -/

/-- Whether the bindings `b'` are the bindings `b` and those of the given uses, where all symbols that are used are
bound to the nodes that they meet. -/
structure Records (b b' : Bindings) (uses : List Use) : Prop where
  recorded : ∀ u ∈ uses, u.binding ∈ b'
  genuine : ∀ e ∈ b', e ∈ b ∨ ∃ u ∈ uses, u.binding = e
  resolved : ∀ name x, Use.symbol name x ∈ uses → b'.lookup name = some x

variable {g : Graph} {id : NodeId} {b b' b'' : Bindings} {uses uses' : List Use}

theorem records_nil (b : Bindings) : Records b b [] := ⟨nofun, fun _ he => .inl he, nofun⟩

theorem Records.congr (h : Records b b' uses) (hmem : ∀ u, u ∈ uses ↔ u ∈ uses') : Records b b' uses' where
  recorded u hu := h.recorded u ((hmem u).2 hu)
  genuine e he := (h.genuine e he).imp_right fun ⟨u, hu, heq⟩ => ⟨u, (hmem u).1 hu, heq⟩
  resolved name x hx := h.resolved name x ((hmem _).2 hx)

/-- What is bound first stays bound, as bindings are only added. -/
theorem Records.append (h : Records b b' uses) (h' : Records b' b'' uses') (hadded : b' <+: b'') :
    Records b b'' (uses ++ uses') where
  recorded u hu := (List.mem_append.1 hu).elim (fun hu => hadded.subset (h.recorded u hu)) (h'.recorded u)
  genuine e he := by
    rcases h'.genuine e he with he | ⟨u, hu, heq⟩
    · exact (h.genuine e he).imp_right fun ⟨u, hu, heq⟩ => ⟨u, List.mem_append_left _ hu, heq⟩
    · exact .inr ⟨u, List.mem_append_right _ hu, heq⟩
  resolved name x hx := (List.mem_append.1 hx).elim
    (fun hx => Bindings.extends_of_prefix hadded name x (h.resolved name x hx)) (h'.resolved name x)

theorem records_withKey (b : Bindings) (key : Option String) (id : NodeId) :
    Records b (b.withKey key id) (Use.ofKey key id) := by
  cases key with
  | none => exact records_nil b
  | some key =>
    refine ⟨fun u hu => ?_, fun e he => ?_, fun name x hx => ?_⟩
    · cases List.mem_singleton.1 hu
      exact List.mem_append_right b (List.mem_singleton_self _)
    · exact (List.mem_append.1 he).imp_right fun he => ⟨_, List.mem_singleton_self _, (List.mem_singleton.1 he).symm⟩
    · cases List.mem_singleton.1 hx

theorem records_bindSymbol {name : String} {constantOnly : Bool} (h : bindSymbol g id b name constantOnly = some b') :
    Records b b' [.symbol name id] := by
  have hlookup := (bindSymbol_eq_some h).2
  refine ⟨fun u hu => ?_, fun e he => ?_, fun name' x hx => ?_⟩
  · cases List.mem_singleton.1 hu
    exact mem_of_lookup hlookup
  · obtain ⟨-, -, ⟨-, rfl⟩ | ⟨-, rfl⟩⟩ := bindSymbol_cases h
    · exact .inl he
    · exact (List.mem_append.1 he).imp_right fun he => ⟨_, List.mem_singleton_self _, (List.mem_singleton.1 he).symm⟩
  · cases List.mem_singleton.1 hx
    exact hlookup

/-! ## Matches -/

theorem meets_constant {x : Single} (h : (Pattern.constant x).matchNode g id b = some b') :
    b' = b ∧ Meets g (.constant x) id [] := by
  rw [matchNode] at h
  split at h
  · next hany =>
    cases h
    obtain ⟨v, hv, hmatches⟩ := (Option.any_eq_true ..).1 hany
    obtain ⟨y, hy, hnear⟩ := (Option.any_eq_true ..).1 hmatches
    exact ⟨rfl, .constant hv (Value.size_of_asScalar? hy) hy hnear⟩
  · cases h

mutual

/-- By induction on the pattern: the inputs of an operator are matched one after the other, each with the bindings that
the ones before it have left. -/
theorem exists_meets : (p : Pattern) → ∀ {id : NodeId} {b b' : Bindings}, p.matchNode g id b = some b' →
    ∃ uses, Meets g p id uses ∧ Records b b' uses
  | .constant x, id, b, b', h => by
    obtain ⟨rfl, hmeets⟩ := meets_constant h
    exact ⟨[], hmeets, records_nil b'⟩
  | .symbol name constantOnly, id, b, b', h => by
    rw [matchNode] at h
    obtain ⟨hread, hconstant, -⟩ := bindSymbol_cases h
    exact ⟨_, .symbol hread hconstant, records_bindSymbol h⟩
  | .operator name inputs key, id, b, b', h => by
    obtain ⟨opId, op, found, hop, hname, hlength, hfound, rfl⟩ := matchNode_operator_cases h
    have hadded := Bindings.prefix_withKey found key opId
    rcases hfound with hforward | ⟨hcommutative, htwo, hbackward⟩
    · obtain ⟨uses, hmeets, hrecords⟩ := exists_meetsAll_of_matchForward inputs hlength hforward
      exact ⟨_, .operator hop hname hmeets, hrecords.append (records_withKey found key opId) hadded⟩
    · obtain ⟨uses, hmeets, hrecords⟩ :=
        exists_meetsAll_of_matchBackward inputs (by rwa [List.length_reverse]) hbackward
      exact ⟨_, .swapped hop hname hcommutative htwo hmeets,
        hrecords.append (records_withKey found key opId) hadded⟩

theorem exists_meetsAll_of_matchForward : (ps : List Pattern) → ∀ {ids : List NodeId} {b b' : Bindings},
    ps.length = ids.length → matchForward g ids b ps = some b' → ∃ uses, MeetsAll g ps ids uses ∧ Records b b' uses
  | [], ids, b, b', hlength, h => by
    obtain rfl : ids = [] := List.eq_nil_of_length_eq_zero hlength.symm
    cases h
    exact ⟨[], .nil, records_nil b⟩
  | p :: ps, [], b, b', hlength, h => by cases hlength
  | p :: ps, id :: ids, b, b', hlength, h => by
    rw [matchForward] at h
    obtain ⟨next, hnext, h⟩ := Option.bind_eq_some_iff.1 h
    obtain ⟨uses, hmeets, hfirst⟩ := exists_meets p hnext
    obtain ⟨uses', hall, hrest⟩ := exists_meetsAll_of_matchForward ps (Nat.succ.inj hlength) h
    exact ⟨_, .cons hmeets hall, hfirst.append hrest (prefix_of_matchForward h)⟩

theorem exists_meetsAll_of_matchBackward : (ps : List Pattern) → ∀ {ids : List NodeId} {b b' : Bindings},
    ps.length = ids.length → matchBackward g ids b ps = some b' → ∃ uses, MeetsAll g ps ids uses ∧ Records b b' uses
  | [], ids, b, b', hlength, h => by
    obtain rfl : ids = [] := List.eq_nil_of_length_eq_zero hlength.symm
    cases h
    exact ⟨[], .nil, records_nil b⟩
  | p :: ps, [], b, b', hlength, h => by cases hlength
  | p :: ps, id :: ids, b, b', hlength, h => by
    rw [matchBackward] at h
    obtain ⟨next, hnext, h⟩ := Option.bind_eq_some_iff.1 h
    obtain ⟨uses', hall, hrest⟩ := exists_meetsAll_of_matchBackward ps (Nat.succ.inj hlength) hnext
    obtain ⟨uses, hmeets, hfirst⟩ := exists_meets p h
    exact ⟨_, .cons hmeets hall, (hrest.append hfirst (prefix_of_matchNode h)).congr fun u => by simp [or_comm]⟩

end

/-- A match is genuine. The search on a trail returns it and keeps no checkpoints. The pattern can be laid over the
subgraph at the node so that the bindings are those of what it meets there, none being left from an attempt that failed;
each symbol meets only the node that it is bound to; and a key that is not also the name of a symbol is bound to an
operator that is met by a pattern with this key. -/
theorem match?_meets {p : Pattern} {found : Bindings} (h : p.match? g id = some found) :
    p.search g id {} = (true, ⟨found, []⟩) ∧
    ∃ uses, Meets g p id uses ∧ (∀ e, e ∈ found ↔ ∃ u ∈ uses, u.binding = e) ∧
      (∀ name x, Use.symbol name x ∈ uses → found.lookup name = some x) ∧
      ∀ key x, Use.operator key x ∈ uses → (∀ y, Use.symbol key y ∉ uses) →
        ∃ x', Use.operator key x' ∈ uses ∧ found.lookup key = some x' := by
  obtain ⟨uses, hmeets, hrecords⟩ := exists_meets p h
  have hgenuine (e : String × NodeId) (he : e ∈ found) : ∃ u ∈ uses, u.binding = e :=
    (hrecords.genuine e he).resolve_left nofun
  refine ⟨search_of_match? h, uses, hmeets, fun e => ⟨hgenuine e, ?_⟩, hrecords.resolved, fun key x hx hsymbol => ?_⟩
  · rintro ⟨u, hu, rfl⟩
    exact hrecords.recorded u hu
  · cases hlookup : found.lookup key with
    | none => exact absurd (List.lookup_eq_none_iff.1 hlookup _ (hrecords.recorded _ hx)) (by simp [Use.binding])
    | some x' =>
      obtain ⟨u, hu, heq⟩ := hgenuine (key, x') (mem_of_lookup hlookup)
      cases u with
      | symbol name y =>
        cases heq
        exact absurd hu (hsymbol x')
      | operator key' y =>
        cases heq
        exact ⟨x', hu, rfl⟩

/-! ## A match in the other order -/

/-- The product of an exponential and a value. -/
def scaledExponential : Graph :=
  let g := ["x", "y", "e", "out"].foldl (fun g name => (g.addValue name none none).1) Graph.empty
  let g := (g.addOperator "exp" (.elementwise { fn := .exp }) [0] [2]).1
  let g := (g.addOperator "multiply" (.elementwise { fn := .mul }) [2, 1] [3]).1
  (g.setInputs [0, 1]).setOutputs [3]

/-- In the order of the pattern, `a` is bound to the exponential before the other input fails to match. -/
def scaledPattern : Pattern := .binary "Mul" (.any "a") ((Pattern.unary "Exp" (.any "x")).named "exp")

/-- After that attempt, `a` is bound to the value and not to the exponential. -/
theorem match?_meets_scaledExponential : ∃ uses, Meets scaledExponential scaledPattern 3 uses ∧
    scaledPattern.search scaledExponential 3 {} = (true, ⟨[("x", 0), ("exp", 4), ("a", 1)], []⟩) ∧
    (∀ e, e ∈ [("x", 0), ("exp", 4), ("a", (1 : NodeId))] ↔ ∃ u ∈ uses, u.binding = e) ∧
    ∀ x, Use.symbol "a" x ∈ uses → x = 1 := by
  have hmatch : scaledPattern.match? scaledExponential 3 = some [("x", 0), ("exp", 4), ("a", 1)] := by decide +kernel
  obtain ⟨hsearch, uses, hmeets, hbound, hresolved, -⟩ := match?_meets hmatch
  refine ⟨uses, hmeets, hsearch, hbound, fun x hx => ?_⟩
  exact (Option.some.inj (hresolved "a" x hx)).symm

end Pattern

end TensorGraph
