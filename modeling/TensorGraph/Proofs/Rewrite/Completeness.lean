import TensorGraph.Proofs.Rewrite.MatchedNodes

/-!
# Matches that are found

Matching settles the order of the inputs of a commutative operator with the first one that matches, before the patterns
that come later. If a pattern can be laid over the subgraph at a node, then it is found to match, provided that such a
choice never binds a symbol of a later pattern to another node (`Pattern.isSome_match?_iff`). Without repeated symbols
there is nothing to choose wrongly (`Pattern.Linear.match?_iff`).
-/

namespace TensorGraph.Pattern

mutual

/-- The names that the operators of a pattern are bound to. -/
def keys : Pattern → List String
  | .operator _ inputs key => allKeys inputs ++ key.toList
  | _ => []

def allKeys : List Pattern → List String
  | [] => []
  | p :: ps => p.keys ++ allKeys ps

end

/-- Whether each symbol that is used meets the node that is assigned to its name. -/
def Fits (σ : String → NodeId) (uses : List Use) : Prop := ∀ name x, Use.symbol name x ∈ uses → x = σ name

/-- Whether patterns that can be laid over nodes in both orders have their symbols at the same nodes, as far as later
patterns contain these symbols. Those that earlier patterns contain are at the same nodes anyway. -/
def SwapsAgree (g : Graph) (ps before later : List Pattern) (ids : List NodeId) : Prop :=
  ∀ σ σ' uses uses', MeetsAll g ps ids uses → MeetsAll g ps ids.reverse uses' → Fits σ uses → Fits σ' uses' →
    (∀ name, anyMentions name ps = true → anyMentions name before = true → σ name = σ' name) →
    ∀ name, anyMentions name ps = true → anyMentions name later = true → σ name = σ' name

mutual

/-- Whether the order in which the inputs of commutative operators are met makes no difference to the patterns that are
matched later, given those that were matched before. -/
def Unambiguous (g : Graph) : Pattern → (before later : List Pattern) → NodeId → Prop
  | .operator name inputs _, before, later, id => ∀ opId op, operatorAt? g id = some (opId, op) → op.op.name = name →
      UnambiguousForward g inputs before later op.inputs ∧
      (op.op.isCommutative = true → inputs.length = 2 →
        UnambiguousBackward g inputs before later op.inputs.reverse ∧ SwapsAgree g inputs before later op.inputs)
  | _, _, _, _ => True

/-- The same of patterns that are matched first to last. -/
def UnambiguousForward (g : Graph) : (ps before later : List Pattern) → List NodeId → Prop
  | p :: ps, before, later, id :: ids =>
    Unambiguous g p before (ps ++ later) id ∧ UnambiguousForward g ps (before ++ [p]) later ids
  | _, _, _, _ => True

/-- The same of patterns that are matched last to first. -/
def UnambiguousBackward (g : Graph) : (ps before later : List Pattern) → List NodeId → Prop
  | p :: ps, before, later, id :: ids =>
    UnambiguousBackward g ps before (p :: later) ids ∧ Unambiguous g p (before ++ ps) later id
  | _, _, _, _ => True

end

variable {g : Graph} {p : Pattern} {ps before later : List Pattern} {id : NodeId} {ids : List NodeId}
  {uses : List Use} {σ : String → NodeId} {b b' : Bindings} {name : String}

/-! ## Names -/

theorem anyMentions_append (name : String) (ps qs : List Pattern) :
    anyMentions name (ps ++ qs) = (anyMentions name ps || anyMentions name qs) := by
  induction ps with
  | nil => rfl
  | cons p ps ih => rw [List.cons_append, anyMentions, anyMentions, ih, Bool.or_assoc]

/-- Whether the keys of patterns are no symbols of these patterns or of later ones. -/
def KeysApart (ps later : List Pattern) : Prop := ∀ key ∈ allKeys ps, anyMentions key (ps ++ later) = false

theorem KeysApart.inputs {inputs : List Pattern} {key : Option String}
    (h : KeysApart [.operator name inputs key] later) :
    KeysApart inputs later ∧ ∀ k ∈ key, anyMentions k later = false := by
  simp only [KeysApart, allKeys, keys, anyMentions_append, anyMentions, mentions, Bool.or_false, List.append_nil,
    List.mem_append, Option.mem_toList, Bool.or_eq_false_iff] at h ⊢
  exact ⟨fun k hk => h k (.inl hk), fun k hk => (h k (.inr hk)).2⟩

theorem KeysApart.forward (h : KeysApart (p :: ps) later) : KeysApart [p] (ps ++ later) ∧ KeysApart ps later := by
  simp only [KeysApart, allKeys, anyMentions_append, anyMentions, Bool.or_false, List.append_nil,
    List.mem_append, Bool.or_eq_false_iff] at h ⊢
  exact ⟨fun k hk => ⟨(h k (.inl hk)).1.1, (h k (.inl hk)).1.2, (h k (.inl hk)).2⟩,
    fun k hk => ⟨(h k (.inr hk)).1.2, (h k (.inr hk)).2⟩⟩

theorem KeysApart.backward (h : KeysApart (p :: ps) later) : KeysApart ps (p :: later) ∧ KeysApart [p] later := by
  simp only [KeysApart, allKeys, anyMentions_append, anyMentions, Bool.or_false, List.append_nil,
    List.mem_append, Bool.or_eq_false_iff] at h ⊢
  exact ⟨fun k hk => ⟨(h k (.inr hk)).1.2, (h k (.inr hk)).1.1, (h k (.inr hk)).2⟩,
    fun k hk => ⟨(h k (.inl hk)).1.1, (h k (.inl hk)).2⟩⟩

/-! ## Uses -/

theorem symbol_notMem_ofKey {key : Option String} {x opId : NodeId} : Use.symbol name x ∉ Use.ofKey key opId := by
  cases key <;> simp [Use.ofKey]

theorem operator_mem_ofKey {k : String} {key : Option String} {x opId : NodeId}
    (h : Use.operator k x ∈ Use.ofKey key opId) : k ∈ key := by
  cases key with
  | none => simp [Use.ofKey] at h
  | some k' =>
    obtain ⟨rfl, -⟩ : k = k' ∧ x = opId := by simpa [Use.ofKey] using h
    rfl

mutual

/-- The symbols of a pattern are those that meet something. -/
theorem Meets.mentions_iff : ∀ {p : Pattern} {id : NodeId} {uses : List Use}, Meets g p id uses →
    (p.mentions name = true ↔ ∃ x, Use.symbol name x ∈ uses)
  | _, _, _, .constant .. => by simp [mentions]
  | _, _, _, .symbol .. => by
    simp only [mentions, beq_iff_eq, List.mem_singleton, Use.symbol.injEq]
    constructor
    · rintro rfl
      exact ⟨_, rfl, rfl⟩
    · rintro ⟨_, rfl, _⟩
      rfl
  | _, _, _, .operator _ _ hinputs => by simp [mentions, hinputs.mentions_iff, symbol_notMem_ofKey]
  | _, _, _, .swapped _ _ _ _ hinputs => by simp [mentions, hinputs.mentions_iff, symbol_notMem_ofKey]

theorem MeetsAll.mentions_iff : ∀ {ps : List Pattern} {ids : List NodeId} {uses : List Use}, MeetsAll g ps ids uses →
    (anyMentions name ps = true ↔ ∃ x, Use.symbol name x ∈ uses)
  | _, _, _, .nil => by simp [anyMentions]
  | _, _, _, .cons h hs => by simp [anyMentions, h.mentions_iff, hs.mentions_iff, exists_or]

end

mutual

/-- Operators that are met are bound to keys of the pattern. -/
theorem Meets.mem_keys {key : String} {x : NodeId} : ∀ {p : Pattern} {id : NodeId} {uses : List Use},
    Meets g p id uses → Use.operator key x ∈ uses → key ∈ p.keys
  | _, _, _, .constant .., hmem => nomatch hmem
  | _, _, _, .symbol .., hmem => by simp at hmem
  | _, _, _, .operator _ _ hinputs, hmem
  | _, _, _, .swapped _ _ _ _ hinputs, hmem => List.mem_append.2 ((List.mem_append.1 hmem).imp hinputs.mem_allKeys
      fun hkey => Option.mem_toList.2 (operator_mem_ofKey hkey))

theorem MeetsAll.mem_allKeys {key : String} {x : NodeId} : ∀ {ps : List Pattern} {ids : List NodeId} {uses : List Use},
    MeetsAll g ps ids uses → Use.operator key x ∈ uses → key ∈ allKeys ps
  | _, _, _, .nil, hmem => nomatch hmem
  | _, _, _, .cons h hs, hmem => List.mem_append.2 ((List.mem_append.1 hmem).imp h.mem_keys hs.mem_allKeys)

end

theorem MeetsAll.length_eq (h : MeetsAll g ps ids uses) : ps.length = ids.length := by
  induction ps generalizing ids uses with
  | nil =>
    cases h
    rfl
  | cons p ps ih =>
    cases h with
    | cons _ hs => rw [List.length_cons, List.length_cons, ih hs]

/-! ## Bindings that suit -/

/-- Whether the symbols of some patterns are bound, and those of others to no other nodes than the assigned ones. -/
structure Suits (σ : String → NodeId) (before needed : List Pattern) (b : Bindings) : Prop where
  bound : ∀ name, anyMentions name before = true → (b.lookup name).isSome = true
  agrees : ∀ name x, anyMentions name needed = true → b.lookup name = some x → x = σ name

theorem Suits.congr {before' needed needed' : List Pattern} (h : Suits σ before needed b)
    (hbefore : ∀ name, anyMentions name before' = true → anyMentions name before = true)
    (hneeded : ∀ name, anyMentions name needed' = true → anyMentions name needed = true) :
    Suits σ before' needed' b :=
  ⟨fun name hname => h.bound name (hbefore name hname), fun name x hname => h.agrees name x (hneeded name hname)⟩

theorem Suits.withKey {key : Option String} (h : Suits σ before later b)
    (hkey : ∀ k ∈ key, anyMentions k later = false) (id : NodeId) : Suits σ before later (b.withKey key id) := by
  have hextends := Bindings.extends_of_prefix (Bindings.prefix_withKey b key id)
  refine ⟨fun name hname => ?_, fun name x hname hx => ?_⟩
  · obtain ⟨y, hy⟩ := Option.isSome_iff_exists.1 (h.bound name hname)
    exact Option.isSome_iff_exists.2 ⟨y, hextends name y hy⟩
  · cases hlookup : b.lookup name with
    | some y =>
      rw [hextends name y hlookup] at hx
      exact h.agrees name x hname (hlookup.trans hx)
    | none =>
      -- The name is then the key, which is no symbol of a later pattern.
      cases key with
      | none => exact absurd (hlookup.symm.trans hx) nofun
      | some k =>
        rw [Bindings.withKey, List.lookup_append, hlookup, Option.none_or] at hx
        obtain ⟨rfl, -⟩ := Prod.mk.inj (List.mem_singleton.1 (mem_of_lookup hx))
        rw [hkey name rfl] at hname
        cases hname

theorem Suits.bindSymbol {constantOnly : Bool} (h : Suits σ before (.symbol name constantOnly :: later) b)
    (hread : g.isReadable id = true) (hconstant : constantOnly = true → (g.constant? id).isSome = true)
    (hid : id = σ name) : ∃ b', bindSymbol g id b name constantOnly = some b' ∧
      Suits σ (before ++ [.symbol name constantOnly]) later b' := by
  have hmentions (name' : String) :
      mentions name' (.symbol name constantOnly) = true ↔ name = name' := by rw [mentions, beq_iff_eq]
  have hcond : (!g.isReadable id || (constantOnly && (g.constant? id).isNone)) = false := by
    cases constantOnly with
    | false => simp [hread]
    | true => simpa [hread] using hconstant rfl
  unfold Pattern.bindSymbol
  rw [hcond, if_neg Bool.false_ne_true]
  cases hlookup : b.lookup name with
  | some bound =>
    have hbound := h.agrees name bound (by simp [anyMentions, mentions]) hlookup
    refine ⟨b, if_pos (hbound.trans hid.symm), fun name' hname' => ?_, fun name' x hname' => ?_⟩
    · rw [anyMentions_append, Bool.or_eq_true, anyMentions, anyMentions, Bool.or_false, hmentions] at hname'
      rcases hname' with hname' | rfl
      · exact h.bound name' hname'
      · rw [hlookup, Option.isSome_some]
    · exact h.agrees name' x (by rw [anyMentions, hname', Bool.or_true])
  | none =>
    refine ⟨_, rfl, fun name' hname' => ?_, fun name' x hname' hx => ?_⟩
    · rw [anyMentions_append, Bool.or_eq_true, anyMentions, anyMentions, Bool.or_false, hmentions] at hname'
      rcases hname' with hname' | rfl
      · simp [List.lookup_append, h.bound name' hname']
      · simp [List.lookup_append]
    · by_cases hsame : name' = name
      · subst hsame
        have hx : id = x := by simpa [List.lookup_append, hlookup] using hx
        exact hx.symm.trans hid
      · have hx : b.lookup name' = some x := by
          rwa [List.lookup_append, List.lookup_cons, beq_eq_false_iff_ne.2 hsame, List.lookup_nil,
            Option.or_none] at hx
        exact h.agrees name' x (by rw [anyMentions, hname', Bool.or_true]) hx

/-- An order of inputs that is found to match suits later patterns, even if another order was meant. -/
theorem Suits.of_matchForward (hagree : SwapsAgree g ps before later ids) (hkeys : KeysApart ps later)
    (hswapped : MeetsAll g ps ids.reverse uses) (hfits : Fits σ uses) (hsuits : Suits σ before (ps ++ later) b)
    (hfound : matchForward g ids b ps = some b') : Suits σ (before ++ ps) later b' := by
  have hlength : ps.length = ids.length := by rw [hswapped.length_eq, List.length_reverse]
  obtain ⟨uses', hforward, hrecords⟩ := exists_meetsAll_of_matchForward ps hlength hfound
  have hextends := Bindings.extends_of_prefix (prefix_of_matchForward hfound)
  have hbound (name : String) (h : (b.lookup name).isSome = true) : b'.lookup name = b.lookup name := by
    obtain ⟨x, hx⟩ := Option.isSome_iff_exists.1 h
    rw [hx, hextends name x hx]
  refine ⟨fun name hname => ?_, fun name x hname hx => ?_⟩
  · rw [anyMentions_append, Bool.or_eq_true] at hname
    rcases hname with hname | hname
    · rw [hbound name (hsuits.bound name hname)]
      exact hsuits.bound name hname
    · obtain ⟨x, hx⟩ := hforward.mentions_iff.1 hname
      rw [hrecords.resolved name x hx]
      rfl
  · have hneeded : anyMentions name (ps ++ later) = true := by rw [anyMentions_append, hname, Bool.or_true]
    by_cases hps : anyMentions name ps = true
    · -- The bindings assign nodes to symbols too, and both assignments agree on the earlier patterns.
      have hassigned := hagree (fun name => (b'.lookup name).getD (σ name)) σ uses' uses hforward hswapped
        (fun name x hx => by simp [hrecords.resolved name x hx]) hfits
        (fun name hps hbefore => by
          obtain ⟨y, hy⟩ := Option.isSome_iff_exists.1 (hsuits.bound name hbefore)
          have hneeded : anyMentions name (ps ++ later) = true := by rw [anyMentions_append, hps, Bool.true_or]
          simpa [hextends name y hy] using hsuits.agrees name y hneeded hy)
        name hps hname
      simpa [hx] using hassigned
    · -- A symbol of later patterns only was bound before.
      have hmem : (name, x) ∈ b := by
        refine (hrecords.genuine _ (mem_of_lookup hx)).resolve_right ?_
        rintro ⟨u, hu, heq⟩
        cases u with
        | symbol name' y =>
          cases heq
          exact hps (hforward.mentions_iff.2 ⟨x, hu⟩)
        | operator key y =>
          cases heq
          rw [hkeys name (hforward.mem_allKeys hu)] at hneeded
          cases hneeded
      have hsome : (b.lookup name).isSome = true := by
        rw [Option.isSome_iff_ne_none, ne_eq, List.lookup_eq_none_iff]
        exact fun h => by simpa using h _ hmem
      exact hsuits.agrees name x hneeded ((hbound name hsome).symm.trans hx)

/-! ## Completeness -/

mutual

/-- By induction on the pattern: bindings that suit what is left to match can be extended by those of a pattern that
meets a node, so that they suit what is left then. -/
theorem exists_matchNode : (p : Pattern) → ∀ {before later : List Pattern} {id : NodeId} {uses : List Use}
    {b : Bindings}, Unambiguous g p before later id → KeysApart [p] later → Meets g p id uses → Fits σ uses →
    Suits σ before (p :: later) b → ∃ b', p.matchNode g id b = some b' ∧ Suits σ (before ++ [p]) later b'
  | .constant x, before, later, id, uses, b, _, _, hmeets, _, hsuits => by
    cases hmeets with
    | constant hv _ hy hnear =>
      refine ⟨b, ?_, hsuits.congr (fun name h => ?_) fun name h => ?_⟩
      · simp [matchNode, hv, constantMatches, hy, hnear]
      · simpa [anyMentions_append, anyMentions, mentions] using h
      · simpa [anyMentions, mentions] using h
  | .symbol name constantOnly, before, later, id, uses, b, _, _, hmeets, hfits, hsuits => by
    cases hmeets with
    | symbol hread hconstant =>
      have hid : id = σ name := hfits name id (List.mem_singleton_self _)
      exact hsuits.bindSymbol hread hconstant hid
  | .operator name inputs key, before, later, id, uses, b, hunambiguous, hkeys, hmeets, hfits, hsuits => by
    obtain ⟨hinputs, hkey⟩ := hkeys.inputs
    rw [Unambiguous] at hunambiguous
    have hsuits' : Suits σ before (inputs ++ later) b :=
      hsuits.congr (fun _ h => h) fun name h => by rwa [anyMentions, mentions, ← anyMentions_append]
    have hkeyed (opId : NodeId) {found : Bindings} (h : Suits σ (before ++ inputs) later found) :
        Suits σ (before ++ [.operator name inputs key]) later (found.withKey key opId) :=
      (h.withKey hkey opId).congr
        (fun name h => by simpa [anyMentions_append, anyMentions, mentions] using h) fun _ h => h
    cases hmeets with
    | @operator _ _ _ _ opId op uses' hop hname hall =>
      obtain ⟨found, hfound, hfoundSuits⟩ := exists_matchForward inputs (hunambiguous opId op hop hname).1 hinputs hall
        (fun name x hx => hfits name x (List.mem_append_left _ hx)) hsuits'
      refine ⟨_, ?_, hkeyed opId hfoundSuits⟩
      simp [matchNode_operator_eq, hop, hname, hall.length_eq, hfound]
    | @swapped _ _ _ _ opId op uses' hop hname hcommutative htwo hall =>
      obtain ⟨hbackward, hagree⟩ := (hunambiguous opId op hop hname).2 hcommutative htwo
      have hfits' : Fits σ uses' := fun name x hx => hfits name x (List.mem_append_left _ hx)
      have hlength : op.inputs.length = 2 := by rw [← List.length_reverse, ← hall.length_eq, htwo]
      cases hforward : matchForward g op.inputs b inputs with
      | some found =>
        refine ⟨found.withKey key opId, ?_, hkeyed opId (.of_matchForward hagree hinputs hall hfits' hsuits' hforward)⟩
        simp [matchNode_operator_eq, hop, hname, hcommutative, htwo, hlength, hforward]
      | none =>
        obtain ⟨found, hfound, hfoundSuits⟩ := exists_matchBackward inputs hbackward hinputs hall hfits' hsuits'
        refine ⟨found.withKey key opId, ?_, hkeyed opId hfoundSuits⟩
        simp [matchNode_operator_eq, hop, hname, hcommutative, htwo, hlength, hforward, hfound]

theorem exists_matchForward : (ps : List Pattern) → ∀ {before later : List Pattern} {ids : List NodeId}
    {uses : List Use} {b : Bindings}, UnambiguousForward g ps before later ids → KeysApart ps later →
    MeetsAll g ps ids uses → Fits σ uses → Suits σ before (ps ++ later) b →
    ∃ b', matchForward g ids b ps = some b' ∧ Suits σ (before ++ ps) later b'
  | [], before, later, ids, uses, b, _, _, hmeets, _, hsuits => by
    cases hmeets
    exact ⟨b, rfl, by simpa using hsuits⟩
  | p :: ps, before, later, ids, uses, b, hunambiguous, hkeys, hmeets, hfits, hsuits => by
    cases hmeets with
    | cons hmeet hmeets =>
      rw [UnambiguousForward] at hunambiguous
      obtain ⟨hkey, hkeys⟩ := hkeys.forward
      obtain ⟨next, hnext, hsuits⟩ := exists_matchNode p hunambiguous.1 hkey hmeet
        (fun name x hx => hfits name x (List.mem_append_left _ hx)) hsuits
      obtain ⟨b', hb', hsuits⟩ := exists_matchForward ps hunambiguous.2 hkeys hmeets
        (fun name x hx => hfits name x (List.mem_append_right _ hx)) hsuits
      refine ⟨b', ?_, by simpa using hsuits⟩
      rw [matchForward, hnext]
      exact hb'

theorem exists_matchBackward : (ps : List Pattern) → ∀ {before later : List Pattern} {ids : List NodeId}
    {uses : List Use} {b : Bindings}, UnambiguousBackward g ps before later ids → KeysApart ps later →
    MeetsAll g ps ids uses → Fits σ uses → Suits σ before (ps ++ later) b →
    ∃ b', matchBackward g ids b ps = some b' ∧ Suits σ (before ++ ps) later b'
  | [], before, later, ids, uses, b, _, _, hmeets, _, hsuits => by
    cases hmeets
    exact ⟨b, rfl, by simpa using hsuits⟩
  | p :: ps, before, later, ids, uses, b, hunambiguous, hkeys, hmeets, hfits, hsuits => by
    cases hmeets with
    | cons hmeet hmeets =>
      rw [UnambiguousBackward] at hunambiguous
      obtain ⟨hkeys, hkey⟩ := hkeys.backward
      obtain ⟨next, hnext, hsuits⟩ := exists_matchBackward ps hunambiguous.1 hkeys hmeets
        (fun name x hx => hfits name x (List.mem_append_right _ hx))
        (hsuits.congr (fun _ h => h) fun name h => by
          simpa [anyMentions_append, anyMentions, or_left_comm, or_assoc] using h)
      obtain ⟨b', hb', hsuits⟩ := exists_matchNode p hunambiguous.2 hkey hmeet
        (fun name x hx => hfits name x (List.mem_append_left _ hx)) hsuits
      refine ⟨b', ?_, hsuits.congr (fun name h => ?_) fun _ h => h⟩
      · rw [matchBackward, hnext]
        exact hb'
      · simpa [anyMentions_append, anyMentions, or_comm, or_left_comm] using h

end

theorem exists_fits_of_match? (h : (p.match? g id).isSome = true) : ∃ σ uses, Meets g p id uses ∧ Fits σ uses := by
  obtain ⟨found, hfound⟩ := Option.isSome_iff_exists.1 h
  obtain ⟨-, uses, hmeets, -, hresolved, -⟩ := match?_meets hfound
  refine ⟨fun name => (found.lookup name).getD id, uses, hmeets, fun name x hx => ?_⟩
  simp [hresolved name x hx]

theorem isSome_match?_of_meets (hkeys : ∀ key ∈ p.keys, p.mentions key = false)
    (hunambiguous : Unambiguous g p [] [] id) (hmeets : Meets g p id uses) (hfits : Fits σ uses) :
    (p.match? g id).isSome = true := by
  have hapart : KeysApart [p] [] := fun key hkey => by
    simpa [anyMentions] using hkeys key (by simpa [allKeys] using hkey)
  have hsuits : Suits σ [] [p] [] := ⟨nofun, nofun⟩
  obtain ⟨found, hfound, -⟩ := exists_matchNode p hunambiguous hapart hmeets hfits hsuits
  exact Option.isSome_iff_exists.2 ⟨found, hfound⟩

/-- Where no order of inputs can bind a symbol of a later pattern to another node, and no key of the pattern is also
the name of a symbol, a pattern is found to match exactly if it can be laid over the subgraph at the node, under some
assignment of nodes to symbols. -/
theorem isSome_match?_iff (p : Pattern) (g : Graph) (id : NodeId)
    (hkeys : ∀ key ∈ p.keys, p.mentions key = false) (hunambiguous : Unambiguous g p [] [] id) :
    (p.match? g id).isSome = true ↔ ∃ σ uses, Meets g p id uses ∧ Fits σ uses :=
  ⟨exists_fits_of_match?, fun ⟨_, _, hmeets, hfits⟩ => isSome_match?_of_meets hkeys hunambiguous hmeets hfits⟩

/-! ## A symbol that is shared -/

/-- The sum of one and the magnitude of a value, divided by the value. -/
def inverseSoftsign : Graph :=
  let g := ["x", "magnitude", "sum", "out"].foldl (fun g name => (g.addValue name none none).1) Graph.empty
  let g := (g.addConstant none (.floats (.scalar .one))).1
  let g := (g.addOperator "abs" (.elementwise { fn := .abs }) [0] [1]).1
  let g := (g.addOperator "add" (.elementwise { fn := .add }) [4, 1] [2]).1
  let g := (g.addOperator "divide" (.elementwise { fn := .div }) [2, 0] [3]).1
  (g.setInputs [0]).setOutputs [3]

/-- The sum is in the other order than in the graph, and the symbol occurs in it and after it. -/
def inversePattern : Pattern :=
  .binary "Div" (.binary "Add" (.unary "Abs" (.any "x")) (.constant .one)) (.any "x")

theorem operatorAt?_inverseSoftsign : operatorAt? inverseSoftsign 4 = none ∧
    operatorAt? inverseSoftsign 1 = some (5, ⟨"abs", [0], [1], .elementwise { fn := .abs }⟩) ∧
    operatorAt? inverseSoftsign 2 = some (6, ⟨"add", [4, 1], [2], .elementwise { fn := .add }⟩) ∧
    operatorAt? inverseSoftsign 3 = some (7, ⟨"divide", [2, 0], [3], .elementwise { fn := .div }⟩) :=
  ⟨rfl, rfl, rfl, rfl⟩

theorem unambiguous_inversePattern : Unambiguous inverseSoftsign inversePattern [] [] 3 := by
  obtain ⟨hone, habs, hadd, hdivide⟩ := operatorAt?_inverseSoftsign
  have hcommutative : (Operator.elementwise { fn := .div }).isCommutative = false := rfl
  -- A pattern for an operator cannot be laid over the constant, so that there is one order only.
  have hagree : SwapsAgree inverseSoftsign [.unary "Abs" (.any "x"), .constant .one] [] [.any "x"] [4, 1] := by
    intro _ _ _ _ hforward
    cases hforward with
    | cons h _ =>
      cases h with
      | operator hop | swapped hop => exact nomatch hone.symm.trans hop
  rw [unary, any] at hagree
  simp [inversePattern, binary, unary, any, Unambiguous, UnambiguousForward, UnambiguousBackward, hone, habs, hadd,
    hdivide, hcommutative, hagree]

/-- The sum matches in the other order, with the symbol at the value that it is divided by. -/
theorem isSome_match?_inversePattern : (inversePattern.match? inverseSoftsign 3).isSome = true := by
  obtain ⟨-, habs, hadd, hdivide⟩ := operatorAt?_inverseSoftsign
  have hkeys : ∀ key ∈ inversePattern.keys, inversePattern.mentions key = false := by
    simp [inversePattern, binary, unary, any, keys, allKeys]
  have hx : Meets inverseSoftsign (.any "x") 0 [.symbol "x" 0] := .symbol rfl nofun
  have hone : Meets inverseSoftsign (.constant .one) 4 [] := .constant rfl rfl rfl (by decide +kernel)
  have hmagnitude : Meets inverseSoftsign (.unary "Abs" (.any "x")) 1 _ := .operator habs rfl (.cons hx .nil)
  have hsum : Meets inverseSoftsign (.binary "Add" (.unary "Abs" (.any "x")) (.constant .one)) 2 _ :=
    .swapped hadd rfl rfl rfl (.cons hmagnitude (.cons hone .nil))
  have hquotient : Meets inverseSoftsign inversePattern 3 _ := .operator hdivide rfl (.cons hsum (.cons hx .nil))
  refine (isSome_match?_iff inversePattern inverseSoftsign 3 hkeys unambiguous_inversePattern).2
    ⟨fun _ => 0, _, hquotient, fun name x hmem => ?_⟩
  obtain ⟨-, rfl⟩ : name = "x" ∧ x = 0 := by simpa [Use.ofKey] using hmem
  rfl

/-- The difference between a sum and its second summand. -/
def cancelledSum : Graph :=
  let g := ["x", "y", "sum", "out"].foldl (fun g name => (g.addValue name none none).1) Graph.empty
  let g := (g.addOperator "add" (.elementwise { fn := .add }) [1, 0] [2]).1
  let g := (g.addOperator "subtract" (.elementwise { fn := .sub }) [2, 0] [3]).1
  (g.setInputs [0, 1]).setOutputs [3]

/-- With `a` as the first summand, the sum matches in the order of the pattern, but `a` is then bound to the wrong value
for the subtraction. The other order, in which the pattern can be laid over the graph, is not tried again. -/
example :
    ((Pattern.binary "Sub" (.binary "Add" (.any "a") (.any "b")) (.any "a")).match? cancelledSum 3 = none) ∧
    (Pattern.binary "Sub" (.binary "Add" (.any "b") (.any "a")) (.any "a")).match? cancelledSum 3 =
      some [("b", 1), ("a", 0)] := by
  decide +kernel

/-! ## Patterns without repeated symbols -/

mutual

/-- Whether each symbol occurs once in a pattern. -/
def Linear : Pattern → Prop
  | .operator _ inputs _ => AllLinear inputs
  | _ => True

def AllLinear : List Pattern → Prop
  | [] => True
  | p :: ps => p.Linear ∧ AllLinear ps ∧ ∀ name, p.mentions name = true → anyMentions name ps = false

end

mutual

theorem Linear.unambiguous : (p : Pattern) → ∀ {before later : List Pattern} {id : NodeId}, p.Linear →
    (∀ name, p.mentions name = true → anyMentions name later = false) → Unambiguous g p before later id
  | .constant _, _, _, _, _, _
  | .symbol _ _, _, _, _, _, _ => by simp [Unambiguous]
  | .operator name inputs key, before, later, id, hlinear, hlater => by
    rw [Unambiguous]
    intro opId op _ _
    refine ⟨AllLinear.forward inputs hlinear hlater, fun _ _ => ⟨AllLinear.backward inputs hlinear hlater, ?_⟩⟩
    intro _ _ _ _ _ _ _ _ _ name hname hmentions
    rw [hlater name hname] at hmentions
    cases hmentions

theorem AllLinear.forward : (ps : List Pattern) → ∀ {before later : List Pattern} {ids : List NodeId}, AllLinear ps →
    (∀ name, anyMentions name ps = true → anyMentions name later = false) → UnambiguousForward g ps before later ids
  | [], _, _, _, _, _
  | _ :: _, _, _, [], _, _ => by simp [UnambiguousForward]
  | p :: ps, before, later, id :: ids, hlinear, hlater => by
    obtain ⟨hp, hps, hapart⟩ := hlinear
    rw [UnambiguousForward]
    refine ⟨Linear.unambiguous p hp fun name hname => ?_, AllLinear.forward ps hps fun name hname => ?_⟩
    · rw [anyMentions_append, hapart name hname, hlater name (by rw [anyMentions, hname, Bool.true_or]), Bool.or_false]
    · exact hlater name (by rw [anyMentions, hname, Bool.or_true])

theorem AllLinear.backward : (ps : List Pattern) → ∀ {before later : List Pattern} {ids : List NodeId}, AllLinear ps →
    (∀ name, anyMentions name ps = true → anyMentions name later = false) → UnambiguousBackward g ps before later ids
  | [], _, _, _, _, _
  | _ :: _, _, _, [], _, _ => by simp [UnambiguousBackward]
  | p :: ps, before, later, id :: ids, hlinear, hlater => by
    obtain ⟨hp, hps, hapart⟩ := hlinear
    rw [UnambiguousBackward]
    refine ⟨AllLinear.backward ps hps fun name hname => ?_, Linear.unambiguous p hp fun name hname => ?_⟩
    · have hp : p.mentions name = false := by
        by_contra h
        have := hapart name (by simpa using h)
        rw [hname] at this
        cases this
      rw [anyMentions, hp, hlater name (by rw [anyMentions, hname, Bool.or_true]), Bool.or_false]
    · exact hlater name (by rw [anyMentions, hname, Bool.true_or])

end

/-- A pattern without repeated symbols is found to match wherever it can be laid over a subgraph. -/
theorem Linear.match?_iff (hlinear : p.Linear) (hkeys : ∀ key ∈ p.keys, p.mentions key = false) :
    (p.match? g id).isSome = true ↔ ∃ σ uses, Meets g p id uses ∧ Fits σ uses :=
  ⟨exists_fits_of_match?, fun ⟨_, _, hmeets, hfits⟩ =>
    isSome_match?_of_meets hkeys (Linear.unambiguous p hlinear fun _ _ => rfl) hmeets hfits⟩

end TensorGraph.Pattern
