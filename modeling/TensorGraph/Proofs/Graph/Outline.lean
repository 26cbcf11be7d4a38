import Mathlib.Data.List.Nodup
import TensorGraph.Graph.Outline
import TensorGraph.Proofs.Graph.Edges
import TensorGraph.Proofs.Operator.Expressions

/-!
# Expanded operators

Below the number of an output, each line of an outline shows a value. `Shows` says which values are shown one after the
other, and which operators are expanded on the way: a value whose operator was expanded before has a star, and the inputs
of any other operator are shown below it. Every operator that is reached from the outputs is expanded, none twice
(`Shows.mem_expanded`, `Shows.nodup_expanded`), and from that the number of lines follows (`Shows.length`). The bound on the
recursion is never met, because each expansion leaves fewer operators (`outlined`).
-/

namespace TensorGraph

/-- What a line of an outline shows: a value, how deep it stands, and whether it has a star. -/
structure OutlineItem where
  depth : Nat
  value : NodeId
  starred : Bool
deriving DecidableEq, Repr

namespace Graph

/-- The operators that produce the values of some items. -/
def referred (g : Graph) (items : List OutlineItem) : List NodeId := items.filterMap fun e => g.source? e.value

/-- The operators that some items expand. -/
def expanded (g : Graph) (items : List OutlineItem) : List NodeId := g.referred (items.filter (!·.starred))

/-- The values that are shown below an item, one level deeper. -/
def shownInputs (g : Graph) (e : OutlineItem) : List NodeId :=
  if e.starred then [] else ((g.source? e.value).map g.inputsOf).getD []

/-- The operators from which an output of the graph can be reached along the recorded producers. -/
inductive Reached (g : Graph) : NodeId → Prop
  | output {v id : NodeId} (hv : v ∈ g.outputIds) (hid : g.source? v = some id) : Reached g id
  | input {v id reader : NodeId} (h : Reached g reader) (hv : v ∈ g.inputsOf reader) (hid : g.source? v = some id) :
      Reached g id

/-- Whether items show values one after the other, where the operators in `before` are expanded already and those in
`after` when all values are shown. -/
inductive Shows (g : Graph) : (depth : Nat) → (values before : List NodeId) → List OutlineItem → (after : List NodeId) →
    Prop
  | done {depth : Nat} {before : List NodeId} : Shows g depth [] before [] before
  | leaf {depth : Nat} {v : NodeId} {values before after : List NodeId} {items : List OutlineItem}
      (hv : g.source? v = none) (more : Shows g depth values before items after) :
      Shows g depth (v :: values) before (⟨depth, v, false⟩ :: items) after
  | again {depth : Nat} {v id : NodeId} {values before after : List NodeId} {items : List OutlineItem}
      (hv : g.source? v = some id) (hid : id ∈ before) (more : Shows g depth values before items after) :
      Shows g depth (v :: values) before (⟨depth, v, true⟩ :: items) after
  | first {depth : Nat} {v id : NodeId} {values before middle after : List NodeId} {under items : List OutlineItem}
      (hv : g.source? v = some id) (hid : id ∉ before)
      (below : Shows g (depth + 1) (g.inputsOf id) (id :: before) under middle)
      (more : Shows g depth values middle items after) :
      Shows g depth (v :: values) before (⟨depth, v, false⟩ :: (under ++ items)) after

variable {g : Graph} {depth : Nat} {v id : NodeId} {values before middle after : List NodeId}
  {items under rest : List OutlineItem} {e : OutlineItem}

/-! ## Producers -/

theorem isSome_operator?_of_source? (h : g.source? v = some id) : (g.operator? id).isSome :=
  (Option.filter_eq_some_iff.1 h).2

theorem producer?_of_source? (h : g.source? v = some id) : ∃ op, g.operator? id = some op ∧ g.producer? v = some (id, op) := by
  obtain ⟨op, hop⟩ := Option.isSome_iff_exists.1 (isSome_operator?_of_source? h)
  refine ⟨op, hop, ?_⟩
  rw [producer?, h]
  simp [hop]

theorem producer?_of_source?_eq_none (h : g.source? v = none) : g.producer? v = none := by
  rw [producer?, h]
  rfl

/-! ## Operators of items -/

@[simp] theorem referred_nil : g.referred [] = [] := rfl

theorem referred_cons_leaf (h : g.source? e.value = none) : g.referred (e :: items) = g.referred items :=
  List.filterMap_cons_none h

theorem referred_cons (h : g.source? e.value = some id) : g.referred (e :: items) = id :: g.referred items :=
  List.filterMap_cons_some h

@[simp] theorem referred_append : g.referred (items ++ rest) = g.referred items ++ g.referred rest :=
  List.filterMap_append

@[simp] theorem expanded_nil : g.expanded [] = [] := rfl

theorem expanded_cons_starred (h : e.starred = true) : g.expanded (e :: items) = g.expanded items := by
  simp [expanded, h]

theorem expanded_cons_leaf (h : g.source? e.value = none) : g.expanded (e :: items) = g.expanded items := by
  rw [expanded, List.filter_cons]
  split
  · exact referred_cons_leaf h
  · rfl

theorem expanded_cons (hstar : e.starred = false) (h : g.source? e.value = some id) :
    g.expanded (e :: items) = id :: g.expanded items := by
  rw [expanded, List.filter_cons_of_pos (by simp [hstar]), referred_cons h]
  rfl

@[simp] theorem expanded_append : g.expanded (items ++ rest) = g.expanded items ++ g.expanded rest := by
  simp [expanded]

theorem shownInputs_leaf (h : g.source? e.value = none) : g.shownInputs e = [] := by
  simp [shownInputs, h]

theorem shownInputs_first (hstar : e.starred = false) (h : g.source? e.value = some id) :
    g.shownInputs e = g.inputsOf id := by
  simp [shownInputs, hstar, h]

/-! ## Items in their places -/

/-- Whether an item comes before the values that it shows, each with what is below it, and has a star if its operator is
known. -/
structure Placed (g : Graph) (known : NodeId → Prop) (e : OutlineItem) (later : List OutlineItem) : Prop where
  below : ∃ under rest, later = under ++ rest ∧ (∀ u ∈ under, e.depth < u.depth) ∧
    (under.filter (·.depth == e.depth + 1)).map (·.value) = g.shownInputs e ∧ ∀ r ∈ rest.head?, r.depth ≤ e.depth
  starred : e.starred = true ↔ ∃ id, g.source? e.value = some id ∧ known id

theorem Placed.congr {known known' : NodeId → Prop} {later : List OutlineItem} (h : g.Placed known e later)
    (hknown : ∀ id, known id ↔ known' id) : g.Placed known' e later :=
  ⟨h.below, h.starred.trans (exists_congr fun id => and_congr_right fun _ => hknown id)⟩

/-- An item below which nothing stands. -/
theorem Placed.last {known : NodeId → Prop} {later : List OutlineItem} (hnone : g.shownInputs e = [])
    (hlater : ∀ r ∈ later.head?, r.depth ≤ e.depth)
    (hstar : e.starred = true ↔ ∃ id, g.source? e.value = some id ∧ known id) : g.Placed known e later :=
  ⟨⟨[], later, rfl, List.forall_mem_nil _, hnone.symm, hlater⟩, hstar⟩

theorem Placed.append {known : NodeId → Prop} {later : List OutlineItem} (h : g.Placed known e later)
    (hrest : ∀ r ∈ rest.head?, r.depth ≤ e.depth) : g.Placed known e (later ++ rest) := by
  obtain ⟨under, between, rfl, hdeeper, hvalues, hbetween⟩ := h.below
  refine ⟨⟨under, between ++ rest, List.append_assoc .., hdeeper, hvalues, ?_⟩, h.starred⟩
  cases between with
  | nil => exact hrest
  | cons b between => exact hbetween

/-- Where an item can stand in a list that is put together. -/
theorem cons_append_eq_append_cons {α : Type} {x y : α} {xs ys earlier later : List α}
    (h : x :: (xs ++ ys) = earlier ++ y :: later) :
    (earlier = [] ∧ x = y ∧ later = xs ++ ys) ∨ (∃ as bs, earlier = x :: as ∧ xs = as ++ y :: bs ∧ later = bs ++ ys) ∨
      ∃ as, earlier = x :: (xs ++ as) ∧ ys = as ++ y :: later := by
  rcases List.cons_eq_append_iff.1 h with ⟨rfl, hcons⟩ | ⟨as, rfl, htail⟩
  · cases hcons
    exact .inl ⟨rfl, rfl, rfl⟩
  · rcases List.append_eq_append_iff.1 htail with ⟨bs, rfl, hys⟩ | ⟨bs, rfl, hcons⟩
    · exact .inr (.inr ⟨bs, rfl, hys⟩)
    · rcases List.cons_eq_append_iff.1 hcons with ⟨rfl, hys⟩ | ⟨cs, rfl, rfl⟩
      · exact .inr (.inr ⟨[], by simp, hys⟩)
      · exact .inr (.inl ⟨as, cs, rfl, rfl, rfl⟩)

/-! ## What is shown -/

namespace Shows

theorem append {values' : List NodeId} (h : g.Shows depth values before items middle)
    (h' : g.Shows depth values' middle rest after) : g.Shows depth (values ++ values') before (items ++ rest) after := by
  induction h with
  | done => exact h'
  | leaf hv _ ih => exact .leaf hv (ih h')
  | again hv hid _ ih => exact .again hv hid (ih h')
  | first hv hid below _ _ ih =>
    rw [List.cons_append, List.cons_append, List.append_assoc]
    exact .first hv hid below (ih h')

/-- What is expanded in the end was expanded before or is expanded by an item. -/
theorem after_eq (h : g.Shows depth values before items after) : after = (g.expanded items).reverse ++ before := by
  induction h with
  | done => rfl
  | leaf hv _ ih => rw [ih, expanded_cons_leaf hv]
  | again hv hid _ ih => rw [ih, expanded_cons_starred rfl]
  | first hv hid _ _ ihbelow ihmore =>
    rw [ihmore, ihbelow, expanded_cons rfl hv, expanded_append]
    simp

theorem before_subset (h : g.Shows depth values before items after) : before ⊆ after := by
  rw [h.after_eq]
  exact List.subset_append_right _ _

theorem nodup (h : g.Shows depth values before items after) (hnodup : before.Nodup) : after.Nodup := by
  induction h with
  | done => exact hnodup
  | leaf _ _ ih => exact ih hnodup
  | again _ _ _ ih => exact ih hnodup
  | first _ hid _ _ ihbelow ihmore => exact ihmore (ihbelow (List.nodup_cons.2 ⟨hid, hnodup⟩))

/-- There is a line for each value, and one for each input of an operator that is expanded. -/
theorem length (h : g.Shows depth values before items after) :
    items.length = values.length + total ((g.expanded items).map fun id => (g.inputsOf id).length) := by
  induction h with
  | done => rfl
  | leaf hv _ ih =>
    rw [expanded_cons_leaf hv, List.length_cons, List.length_cons, ih]
    omega
  | again hv hid _ ih =>
    rw [expanded_cons_starred rfl, List.length_cons, List.length_cons, ih]
    omega
  | first hv hid _ _ ihbelow ihmore =>
    rw [expanded_cons rfl hv, expanded_append, List.map_cons, List.map_append, total, total_append, List.length_cons,
      List.length_cons, List.length_append, ihbelow, ihmore]
    omega

/-- The operators of all items are expanded in the end. -/
theorem mem_after (h : g.Shows depth values before items after) : id ∈ after ↔ id ∈ before ∨ id ∈ g.referred items := by
  induction h with
  | done => simp
  | leaf hv _ ih => rw [ih, referred_cons_leaf hv]
  | again hv hid _ ih =>
    rw [ih, referred_cons hv, List.mem_cons]
    constructor
    · rintro (hmem | hmem)
      · exact .inl hmem
      · exact .inr (.inr hmem)
    · rintro (hmem | rfl | hmem)
      · exact .inl hmem
      · exact .inl hid
      · exact .inr hmem
  | first hv hid _ _ ihbelow ihmore =>
    rw [ihmore, ihbelow, referred_cons hv, referred_append]
    simp only [List.mem_cons, List.mem_append]
    tauto

/-! ## Depths -/

theorem depth_le (h : g.Shows depth values before items after) : ∀ e ∈ items, depth ≤ e.depth := by
  induction h with
  | done => simp
  | leaf _ _ ih => exact List.forall_mem_cons.2 ⟨Nat.le_refl _, ih⟩
  | again _ _ _ ih => exact List.forall_mem_cons.2 ⟨Nat.le_refl _, ih⟩
  | first _ _ _ _ ihbelow ihmore =>
    refine List.forall_mem_cons.2 ⟨Nat.le_refl _, List.forall_mem_append.2 ⟨fun e he => ?_, ihmore⟩⟩
    exact Nat.le_of_succ_le (ihbelow e he)

theorem depth_head? (h : g.Shows depth values before items after) : ∀ e ∈ items.head?, e.depth = depth := by
  cases h <;> simp

/-- The values stand at the given depth, in order. -/
theorem values_eq (h : g.Shows depth values before items after) :
    (items.filter (·.depth == depth)).map (·.value) = values := by
  induction h with
  | done => rfl
  | leaf _ _ ih => simp [ih]
  | again _ _ _ ih => simp [ih]
  | first _ _ below _ _ ihmore =>
    have hnone : ∀ {l : List OutlineItem} {d : Nat}, (∀ e ∈ l, d + 1 ≤ e.depth) → l.filter (·.depth == d) = [] := by
      intro l d hl
      refine List.filter_eq_nil_iff.2 fun e he => ?_
      have := hl e he
      simp only [beq_iff_eq]
      omega
    simp [List.filter_append, hnone below.depth_le, ihmore]

theorem placed (h : g.Shows depth values before items after) {earlier later : List OutlineItem}
    (hitems : items = earlier ++ e :: later) :
    g.Placed (fun id => id ∈ before ∨ id ∈ g.referred earlier) e later := by
  induction h generalizing earlier later with
  | done => simp at hitems
  | leaf hv more ih =>
    rcases List.cons_eq_append_iff.1 hitems with ⟨rfl, hcons⟩ | ⟨earlier, rfl, htail⟩
    · cases hcons
      exact .last (shownInputs_leaf hv) (fun r hr => Nat.le_of_eq (more.depth_head? r hr)) (by simp [hv])
    · rw [referred_cons_leaf hv]
      exact ih htail
  | again hv hid more ih =>
    rcases List.cons_eq_append_iff.1 hitems with ⟨rfl, hcons⟩ | ⟨earlier, rfl, htail⟩
    · cases hcons
      exact .last rfl (fun r hr => Nat.le_of_eq (more.depth_head? r hr)) (by simp [hv, hid])
    · refine (ih htail).congr fun id => ?_
      rw [referred_cons hv, List.mem_cons, or_left_comm]
      refine (or_iff_right_of_imp ?_).symm
      rintro rfl
      exact .inl hid
  | first hv hid below more ihbelow ihmore =>
    -- The item itself, one below it, or one that comes after all of these.
    rcases cons_append_eq_append_cons hitems with ⟨rfl, rfl, rfl⟩ | ⟨earlier, later, rfl, hunder, rfl⟩ | ⟨earlier, rfl, htail⟩
    · refine ⟨⟨_, _, rfl, below.depth_le, ?_, fun r hr => Nat.le_of_eq (more.depth_head? r hr)⟩, by simp [hv, hid]⟩
      rw [shownInputs_first rfl hv]
      exact below.values_eq
    · have hdeeper := below.depth_le e (hunder ▸ by simp)
      refine ((ihbelow hunder).congr fun id => ?_).append fun r hr => ?_
      · rw [referred_cons hv, List.mem_cons, List.mem_cons]
        tauto
      · rw [more.depth_head? r hr]
        exact Nat.le_of_succ_le hdeeper
    · refine (ihmore htail).congr fun id => ?_
      rw [below.mem_after, referred_cons hv, referred_append]
      simp only [List.mem_cons, List.mem_append]
      tauto

/-! ## Operators that are expanded -/

theorem source_mem_after (h : g.Shows depth values before items after) (hv : v ∈ values) (hid : g.source? v = some id) :
    id ∈ after := by
  rw [← h.values_eq] at hv
  obtain ⟨e, he, rfl⟩ := List.mem_map.1 hv
  exact h.mem_after.2 (.inr (List.mem_filterMap.2 ⟨e, (List.mem_filter.1 he).1, hid⟩))

theorem closed (h : g.Shows depth values before items after) :
    ∀ reader ∈ g.expanded items, ∀ v ∈ g.inputsOf reader, ∀ id, g.source? v = some id → id ∈ after := by
  induction h with
  | done => simp
  | leaf hv _ ih =>
    rw [expanded_cons_leaf hv]
    exact ih
  | again _ _ _ ih =>
    rw [expanded_cons_starred rfl]
    exact ih
  | first hv _ below more ihbelow ihmore =>
    rw [expanded_cons rfl hv, expanded_append]
    refine List.forall_mem_cons.2 ⟨?_, List.forall_mem_append.2 ⟨?_, ihmore⟩⟩
    · intro v hv id hid
      exact more.before_subset (below.source_mem_after hv hid)
    · intro reader hreader v hv id hid
      exact more.before_subset (ihbelow reader hreader v hv id hid)

theorem reached (h : g.Shows depth values before items after)
    (hvalues : ∀ v ∈ values, ∀ id, g.source? v = some id → g.Reached id) : ∀ id ∈ g.expanded items, g.Reached id := by
  induction h with
  | done => simp
  | leaf hv _ ih =>
    rw [expanded_cons_leaf hv]
    exact ih (List.forall_mem_cons.1 hvalues).2
  | again _ _ _ ih =>
    rw [expanded_cons_starred rfl]
    exact ih (List.forall_mem_cons.1 hvalues).2
  | first hv _ _ _ ihbelow ihmore =>
    obtain ⟨hfirst, hmore⟩ := List.forall_mem_cons.1 hvalues
    have hreader := hfirst _ hv
    rw [expanded_cons rfl hv, expanded_append]
    exact List.forall_mem_cons.2 ⟨hreader, List.forall_mem_append.2
      ⟨ihbelow fun v hv id hid => hreader.input hv hid, ihmore hmore⟩⟩

theorem nodup_expanded (h : g.Shows depth values [] items after) : (g.expanded items).Nodup := by
  have := h.nodup List.nodup_nil
  rwa [h.after_eq, List.append_nil, List.nodup_reverse] at this

/-- The operators that are reached are expanded, and no others. -/
theorem mem_expanded (h : g.Shows depth g.outputIds [] items after) : id ∈ g.expanded items ↔ g.Reached id := by
  have hafter {id : NodeId} : id ∈ after ↔ id ∈ g.expanded items := by simp [h.after_eq]
  constructor
  · exact h.reached (fun v hv id hid => .output hv hid) id
  · intro hid
    induction hid with
    | output hv hid => exact hafter.1 (h.source_mem_after hv hid)
    | input _ hv hid ih => exact hafter.1 (h.closed _ ih _ hv _ hid)

end Shows

/-! ## The recursion -/

/-- The number of operators that are not expanded. -/
def unexpanded (g : Graph) (expanded : List NodeId) : Nat := (g.operatorIds.filter (· ∉ expanded)).length

theorem unexpanded_le (h : before ⊆ after) : g.unexpanded after ≤ g.unexpanded before := by
  refine (List.monotone_filter_right _ fun id hid => ?_).length_le
  simp only [decide_eq_true_eq] at hid ⊢
  exact fun hmem => hid (h hmem)

theorem unexpanded_cons_lt (hop : (g.operator? id).isSome) (hid : id ∉ before) :
    g.unexpanded (id :: before) < g.unexpanded before := by
  have hfilter : g.operatorIds.filter (· ∉ id :: before) = (g.operatorIds.filter (· ∉ before)).filter (· ≠ id) := by
    rw [List.filter_filter]
    refine List.filter_congr fun other _ => ?_
    simp
  rw [unexpanded, hfilter, unexpanded, List.length_filter_lt_length_iff_exists]
  exact ⟨id, List.mem_filter.2 ⟨mem_operatorIds.2 hop, by simpa using hid⟩, by simp⟩

theorem unexpanded_lt (g : Graph) (before : List NodeId) : g.unexpanded before < g.operatorCount + 1 :=
  Nat.lt_succ_of_le (List.length_filter_le _ _)

variable {f : InferredFacts}

/-- The text of an item, after the bars that show how deep it stands. -/
def itemText (g : Graph) (f : InferredFacts) (e : OutlineItem) : String :=
  match g.producer? e.value with
  | none => g.leafText f e.value
  | some (id, op) => g.resultText f e.value id op ++ if e.starred then " *" else ""

def itemLine (g : Graph) (f : InferredFacts) (e : OutlineItem) : String := outlineLine e.depth (g.itemText f e)

/-- Whether the lines for one value are those of items, and the bound is not met. -/
def Outlined (g : Graph) (f : InferredFacts) (bound depth : Nat) (v : NodeId) (before : List NodeId) : Prop :=
  ∃ items after, g.Shows depth [v] before items after ∧
    g.outlineValue f bound depth v before = (items.map (g.itemLine f), after)

theorem exists_shows_foldl {bound : Nat} {known : List NodeId} (values : List NodeId)
    (h : ∀ v before, known ⊆ before → g.Outlined f bound depth v before) (lines : List String)
    (hbefore : known ⊆ before) : ∃ items after, g.Shows depth values before items after ∧
      values.foldl (fun (lines, expanded) input =>
        let (more, expanded) := g.outlineValue f bound depth input expanded
        (lines ++ more, expanded)) (lines, before) = (lines ++ items.map (g.itemLine f), after) := by
  induction values generalizing before lines with
  | nil => exact ⟨[], before, .done, by simp⟩
  | cons v values ih =>
    obtain ⟨items, middle, hitems, hone⟩ := h v before hbefore
    obtain ⟨more, after, hmore, hrest⟩ := ih (lines ++ items.map (g.itemLine f)) (List.Subset.trans hbefore hitems.before_subset)
    refine ⟨items ++ more, after, hitems.append hmore, ?_⟩
    rw [List.foldl_cons]
    simp only [hone, hrest, List.map_append, List.append_assoc]

theorem outlined (f : InferredFacts) {bound : Nat} (hbound : g.unexpanded before < bound) (depth : Nat) (v : NodeId) :
    g.Outlined f bound depth v before := by
  induction bound generalizing depth v before with
  | zero => omega
  | succ bound ih =>
    unfold Outlined outlineValue
    cases hv : g.source? v with
    | none =>
      refine ⟨[⟨depth, v, false⟩], before, .leaf hv .done, ?_⟩
      simp [producer?_of_source?_eq_none hv, itemLine, itemText]
    | some id =>
      obtain ⟨op, hop, hproducer⟩ := producer?_of_source? hv
      by_cases hid : id ∈ before
      · refine ⟨[⟨depth, v, true⟩], before, .again hv hid .done, ?_⟩
        simp [hproducer, hid, itemLine, itemText, outlineLine, String.append_assoc]
      · -- The inputs are shown with one operator more expanded, so a smaller bound is enough for each.
        have hless := unexpanded_cons_lt (isSome_operator?_of_source? hv) hid
        have hinner (w : NodeId) (known : List NodeId) (hknown : id :: before ⊆ known) :
            g.Outlined f bound (depth + 1) w known :=
          ih (Nat.lt_of_le_of_lt (unexpanded_le hknown) (by omega)) (depth + 1) w
        obtain ⟨under, after, hunder, hlines⟩ := exists_shows_foldl op.inputs hinner
          [outlineLine depth (g.resultText f v id op)] (List.Subset.refl _)
        refine ⟨⟨depth, v, false⟩ :: (under ++ []), after, .first hv hid ?_ .done, ?_⟩
        · rwa [inputsOf_of_operator? hop]
        · simp [hproducer, hid, hlines, itemLine, itemText]

/-! ## All outputs -/

/-- A part of an outline shows an output, with everything else below it. -/
def IsPart (v : NodeId) (part : List OutlineItem) : Prop :=
  ∃ starred under, part = ⟨0, v, starred⟩ :: under ∧ ∀ e ∈ under, 0 < e.depth

/-- The lines of an outline: each part stands below the number of its output. -/
def partLines (g : Graph) (f : InferredFacts) (parts : List (List OutlineItem)) (start : Nat) : List String :=
  (parts.zipIdx start).flatMap fun (part, i) => ("Output " ++ toString i) :: part.map (g.itemLine f)

theorem Shows.isPart (h : g.Shows 0 [v] before items after) : IsPart v items := by
  cases h with
  | leaf hv more =>
    cases more
    exact ⟨false, [], rfl, List.forall_mem_nil _⟩
  | again hv hid more =>
    cases more
    exact ⟨true, [], rfl, List.forall_mem_nil _⟩
  | first hv hid below more =>
    cases more
    exact ⟨false, _, by rw [List.append_nil], below.depth_le⟩

theorem exists_shows_outputs (g : Graph) (f : InferredFacts) (outputs : List NodeId) (start : Nat)
    (lines : List String) (before : List NodeId) :
    ∃ parts after, g.Shows 0 outputs before parts.flatten after ∧ List.Forall₂ IsPart outputs parts ∧
      (outputs.zipIdx start).foldl (fun (lines, expanded) (id, i) =>
        let (more, expanded) := g.outlineValue f (g.operatorCount + 1) 0 id expanded
        (lines ++ ("Output " ++ toString i) :: more, expanded)) (lines, before) =
      (lines ++ g.partLines f parts start, after) := by
  induction outputs generalizing start lines before with
  | nil => exact ⟨[], before, .done, .nil, by simp [partLines]⟩
  | cons v outputs ih =>
    obtain ⟨part, middle, hpart, hone⟩ := outlined f (g.unexpanded_lt before) 0 v
    obtain ⟨parts, after, hparts, hforall, hrest⟩ :=
      ih (start + 1) (lines ++ ("Output " ++ toString start) :: part.map (g.itemLine f)) middle
    refine ⟨part :: parts, after, hpart.append hparts, .cons hpart.isPart hforall, ?_⟩
    rw [List.zipIdx_cons, List.foldl_cons]
    simp only [hone, hrest]
    simp [partLines]

/-- An outline with its items: a part for each output, in which each operator that is reached is expanded once. -/
structure Outlines (g : Graph) (parts : List (List OutlineItem)) : Prop where
  roots : List.Forall₂ IsPart g.outputIds parts
  nodup : (g.expanded parts.flatten).Nodup
  mem_expanded : ∀ id, id ∈ g.expanded parts.flatten ↔ g.Reached id
  /-- An operator has a star exactly if it was shown before. What an item without a star reads comes below it. -/
  placed : ∀ earlier e later, parts.flatten = earlier ++ e :: later → g.Placed (· ∈ g.referred earlier) e later

theorem exists_outlines (g : Graph) (f : InferredFacts) : ∃ parts, g.Outlines parts ∧
    parts.flatten.length = g.outputIds.length +
      total ((g.expanded parts.flatten).map fun id => (g.inputsOf id).length) ∧
    g.outline f = g.partLines f parts 0 := by
  obtain ⟨parts, after, hshows, hroots, hlines⟩ := g.exists_shows_outputs f g.outputIds 0 [] []
  refine ⟨parts, ⟨hroots, hshows.nodup_expanded, fun id => hshows.mem_expanded, fun earlier e later hitems => ?_⟩,
    hshows.length, congrArg Prod.fst hlines⟩
  exact (hshows.placed hitems).congr fun id => by simp

end Graph

end TensorGraph
