import TensorGraph.Proofs.Graph.Freshness
import TensorGraph.Proofs.Graph.Outline

/-!
# The text of an outline

A line of an outline ends with a star exactly if its item has one. If no name of the graph and no symbol of the inferred
shapes contains a line break, neither does a line, so that the text has as many lines as there are outputs and items.
Main statement: `outline_exact`.
-/

namespace TensorGraph

/-! ## Texts without line breaks -/

def OneLine (s : String) : Prop := '\n' ∉ s.toList

instance : DecidablePred OneLine := fun s => inferInstanceAs (Decidable ('\n' ∉ s.toList))

@[simp] theorem oneLine_append {s t : String} : OneLine (s ++ t) ↔ OneLine s ∧ OneLine t := by
  simp [OneLine]

theorem oneLine_join {texts : List String} (h : ∀ s ∈ texts, OneLine s) : OneLine (String.join texts) := by
  simpa [OneLine, String.toList_join] using h

theorem oneLine_bracketed {items : List String} (h : ∀ s ∈ items, OneLine s) : OneLine (bracketed items) := by
  have hitems : OneLine (", ".intercalate items) := by
    induction items with
    | nil => decide
    | cons s items ih =>
      obtain ⟨hs, hrest⟩ := List.forall_mem_cons.1 h
      cases items with
      | nil => simpa using hs
      | cons t items =>
        rw [String.intercalate_cons_cons, oneLine_append, oneLine_append]
        exact ⟨⟨hs, by decide⟩, ih hrest⟩
  simp only [bracketed, oneLine_append, hitems]
  decide

theorem oneLine_nat (n : Nat) : OneLine (toString n) := by
  intro hmem
  have hdigit := Nat.isDigit_of_mem_toDigits (b := 10) (n := n) (by decide) (by decide) (by simpa using hmem)
  exact absurd hdigit (by decide)

theorem oneLine_word (v : Int32) : OneLine (toString v) := by
  have htext : toString v = v.toInt.repr := rfl
  rw [htext]
  cases v.toInt with
  | ofNat n => exact oneLine_nat n
  | negSucc n => exact oneLine_append.2 ⟨by decide, oneLine_nat _⟩

namespace SizeExpr

theorem oneLine_bracketIf (b : Bool) {s : String} (h : OneLine s) : OneLine (bracketIf b s) := by
  cases b with
  | false => exact h
  | true =>
    simp only [bracketIf, if_true, oneLine_append, h]
    decide

theorem oneLine_infixText {op s t : String} (e a b : SizeExpr) (hop : OneLine op) (hs : OneLine s) (ht : OneLine t) :
    OneLine (text.infixText op e a s b t) := by
  simp only [text.infixText, oneLine_append]
  exact ⟨⟨⟨⟨oneLine_bracketIf _ hs, by decide⟩, hop⟩, by decide⟩, oneLine_bracketIf _ ht⟩

theorem oneLine_call {name s t : String} (hname : OneLine name) (hs : OneLine s) (ht : OneLine t) :
    OneLine (name ++ s ++ ", " ++ t ++ ")") := by
  simp only [oneLine_append]
  exact ⟨⟨⟨⟨hname, hs⟩, by decide⟩, ht⟩, by decide⟩

theorem oneLine_text {e : SizeExpr} (h : e.Over OneLine) : OneLine (e.text false) := by
  induction e with
  | value v => exact oneLine_word v
  | sym s => exact h
  | neg x ih => exact oneLine_append.2 ⟨by decide, oneLine_bracketIf _ (ih h)⟩
  | add a b iha ihb | sub a b iha ihb | mul a b iha ihb | div a b iha ihb =>
    exact oneLine_infixText _ _ _ (by decide) (iha h.1) (ihb h.2)
  | max a b iha ihb | min a b iha ihb | broadcast a b iha ihb => exact oneLine_call (by decide) (iha h.1) (ihb h.2)

end SizeExpr

namespace Dimension

theorem oneLine_text {d : Dimension} (h : ∀ name, d = .symbolic name → OneLine name) : OneLine d.text := by
  cases d with
  | fixed size => exact oneLine_nat size
  | symbolic name => exact h name rfl

theorem oneLine_ofSizeExpr {e : SizeExpr} (h : e.Over OneLine) : OneLine (ofSizeExpr e).text := by
  cases e with
  | value v =>
    rw [ofSizeExpr]
    split
    · exact oneLine_nat _
    · exact oneLine_word v
  | sym s => exact h
  | _ => exact SizeExpr.oneLine_text h

end Dimension

/-! ## Numbers -/

/-- The characters of numbers, infinities and what is no number. -/
def IsNumeral (c : Char) : Prop := c.isDigit = true ∨ c ∈ ['-', '.', 'i', 'n', 'f', 'N', 'a']

theorem IsNumeral.ne {c : Char} (h : IsNumeral c) : c ≠ '\n' ∧ c ≠ '*' := by
  constructor
  · rintro rfl
    exact absurd h (by simp [IsNumeral])
  · rintro rfl
    exact absurd h (by simp [IsNumeral])

theorem isDigit_of_mem_ofScaled {n : Nat} {scale : Int} : ∀ c ∈ (Decimal.ofScaled n scale).digits, c.isDigit = true := by
  intro c hc
  have hmem : c ∈ (toString n).toList.reverse := (List.dropWhile_suffix _).subset (List.mem_reverse.1 hc)
  exact Nat.isDigit_of_mem_toDigits (b := 10) (n := n) (by decide) (by decide) (by simpa using hmem)

theorem exists_ofScaled_of_nearestMultiple? {r : RoundingInterval} {scale : Int} {d : Decimal}
    (h : r.nearestMultiple? scale = some d) : ∃ n, d = Decimal.ofScaled n scale := by
  unfold RoundingInterval.nearestMultiple? at h
  dsimp only at h
  split at h
  · cases h
  · exact ⟨_, (Option.some.inj h).symm⟩
  · exact ⟨_, (Option.some.inj h).symm⟩
  · split at h <;> exact ⟨_, (Option.some.inj h).symm⟩

theorem isDigit_of_mem_shortest (r : RoundingInterval) : ∀ c ∈ r.shortest.digits, c.isDigit = true := by
  simp only [RoundingInterval.shortest]
  cases h : (List.range 20).findSome? fun (n : Nat) => r.nearestMultiple? (r.decimalExponent - (n + 1)) with
  | none => simp
  | some d =>
    obtain ⟨n, -, hd⟩ := List.exists_of_findSome?_eq_some h
    obtain ⟨m, rfl⟩ := exists_ofScaled_of_nearestMultiple? hd
    exact isDigit_of_mem_ofScaled

theorem isNumeral_of_mem_positional {d : Decimal} (h : ∀ c ∈ d.digits, c.isDigit = true) :
    ∀ c ∈ (d.positional false).toList, IsNumeral c := by
  have hdigits : ∀ c ∈ d.digits, IsNumeral c := fun c hc => .inl (h c hc)
  have hzero : IsNumeral '0' := .inl (by decide)
  have hpoint : IsNumeral '.' := .inr (by decide)
  have hzeros (n : Nat) : ∀ c ∈ List.replicate n '0', IsNumeral c := fun c hc => List.eq_of_mem_replicate hc ▸ hzero
  simp only [Decimal.positional, String.toList_ofList]
  split
  · exact List.forall_mem_cons.2 ⟨hzero, List.forall_mem_cons.2 ⟨hpoint, List.forall_mem_append.2 ⟨hzeros _, hdigits⟩⟩⟩
  · split
    · exact List.forall_mem_append.2 ⟨fun c hc => hdigits c (List.mem_of_mem_take hc),
        List.forall_mem_cons.2 ⟨hpoint, fun c hc => hdigits c (List.mem_of_mem_drop hc)⟩⟩
    · exact List.forall_mem_append.2 ⟨List.forall_mem_append.2 ⟨hdigits, hzeros _⟩, List.forall_mem_nil _⟩

theorem Single.isNumeral_of_mem_text (x : Single) : ∀ c ∈ x.text.toList, IsNumeral c := by
  unfold Single.text Single.textWith
  split
  · simp [IsNumeral]
  · rw [String.toList_append]
    refine List.forall_mem_append.2 ⟨?_, ?_⟩
    · split <;> simp [IsNumeral]
    · split
      · simp [IsNumeral]
      · split
        · exact isNumeral_of_mem_positional (isDigit_of_mem_shortest _)
        · simp [IsNumeral]

theorem Single.oneLine_text (x : Single) : OneLine x.text := fun hmem => (x.isNumeral_of_mem_text _ hmem).ne.1 rfl

namespace Graph

variable {g : Graph} {f : InferredFacts} {v id : NodeId} {e : OutlineItem}

/-! ## Stars -/

/-- Whether a text ends with a character other than a star. -/
def EndsPlainly (s : String) : Prop := ∃ c, s.toList.getLast? = some c ∧ c ≠ '*'

theorem EndsPlainly.append {t : String} (h : EndsPlainly t) (s : String) : EndsPlainly (s ++ t) := by
  obtain ⟨c, hc, hne⟩ := h
  exact ⟨c, by simp [List.getLast?_append, hc], hne⟩

theorem endsPlainly_bracket : EndsPlainly "]" := ⟨']', rfl, by decide⟩

theorem endsPlainly_valueInfo (g : Graph) (f : InferredFacts) (v : NodeId) : EndsPlainly (g.valueInfo f v) := by
  unfold valueInfo
  refine EndsPlainly.append ?_ _
  split
  · exact endsPlainly_bracket.append _
  · exact ⟨']', rfl, by decide⟩

theorem endsPlainly_text (x : Single) : EndsPlainly (" = " ++ x.text) := by
  rw [EndsPlainly, String.toList_append, List.getLast?_append]
  cases h : x.text.toList.getLast? with
  | none => exact ⟨' ', rfl, by decide⟩
  | some c => exact ⟨c, rfl, (x.isNumeral_of_mem_text c (List.mem_of_getLast? h)).ne.2⟩

theorem endsPlainly_leafText (g : Graph) (f : InferredFacts) (v : NodeId) : EndsPlainly (g.leafText f v) := by
  unfold leafText
  dsimp only
  split
  · split
    · exact (endsPlainly_text _).append _
    · rw [String.append_empty]
      exact (endsPlainly_valueInfo g f v).append _
  · exact (endsPlainly_valueInfo g f v).append _
  · exact (endsPlainly_bracket.append _).append _

theorem endsPlainly_resultText (g : Graph) (f : InferredFacts) (v id : NodeId) (op : OperatorNode) :
    EndsPlainly (g.resultText f v id op) := (endsPlainly_valueInfo g f v).append _

theorem EndsPlainly.getLast?_ne {s : String} (h : EndsPlainly s) : s.toList.getLast? ≠ some '*' := by
  obtain ⟨c, hc, hne⟩ := h
  rw [hc]
  exact fun heq => hne (Option.some.inj heq)

theorem getLast?_itemLine (hsource : e.starred = true → (g.source? e.value).isSome) :
    (g.itemLine f e).toList.getLast? = some '*' ↔ e.starred = true := by
  unfold itemLine itemText outlineLine
  cases hv : g.source? e.value with
  | none =>
    have hstar : ¬ e.starred = true := fun hstar => by simpa [hv] using hsource hstar
    rw [producer?_of_source?_eq_none hv]
    exact iff_of_false ((endsPlainly_leafText g f e.value).append _).getLast?_ne hstar
  | some id =>
    obtain ⟨op, -, hproducer⟩ := producer?_of_source? hv
    rw [hproducer]
    cases hstar : e.starred with
    | true => simp [List.getLast?_append]
    | false =>
      refine iff_of_false (EndsPlainly.getLast?_ne ?_) (by decide)
      simpa using (endsPlainly_resultText g f e.value id op).append _

/-! ## Lines -/

/-- Whether no name that is shown contains a line break. -/
structure NamesOneLine (g : Graph) (f : InferredFacts) : Prop where
  nodes : ∀ id, ∀ node ∈ g.node? id, ∀ name ∈ node.name?, OneLine name
  operators : ∀ id, ∀ node ∈ g.operator? id, ∀ op, node.op = .custom op → OneLine op.name
  dimensions : ∀ name, g.Declares name → OneLine name
  symbols : f.Over OneLine

theorem oneLine_operatorName {op : Operator} (h : ∀ custom, op = .custom custom → OneLine custom.name) :
    OneLine op.name := by
  have hscalar (fn : ScalarFn) : OneLine fn.name := by cases fn <;> decide
  cases op with
  | elementwise op => exact hscalar op.fn
  | reduce op =>
    simp only [Operator.name, Reduce.name]
    cases op.fn <;> decide
  | custom op => exact h op rfl
  | _ =>
    simp only [Operator.name]
    decide

namespace NamesOneLine

variable (h : g.NamesOneLine f)

include h

theorem nodeName : OneLine (g.nodeName v) := by
  unfold Graph.nodeName
  cases hname : (g.node? v).bind Node.name? with
  | none =>
    simp only [Option.getD_none, oneLine_append]
    exact ⟨⟨by decide, oneLine_nat v⟩, by decide⟩
  | some name =>
    obtain ⟨node, hnode, hname⟩ := Option.bind_eq_some_iff.1 hname
    exact h.nodes v node hnode name hname

theorem dims {dims : List Dimension} (hdims : f.dims? v = some dims) : ∀ d ∈ dims, OneLine d.text := by
  obtain ⟨t, ht, hdims⟩ := Option.bind_eq_some_iff.1 hdims
  obtain ⟨sizes, hsizes, hdims⟩ := Option.bind_eq_some_iff.1 hdims
  cases hdims
  have hover := (h.symbols v t (Option.filter_eq_some_iff.1 ht).1).dims hsizes
  exact List.forall_mem_map.2 fun d hd => Dimension.oneLine_ofSizeExpr (hover d hd)

theorem shape {node : Node} {dims : List Dimension} (hnode : g.node? v = some node) (hdims : node.shape? = some dims) :
    ∀ d ∈ dims, OneLine d.text := by
  intro d hd
  refine Dimension.oneLine_text fun name hname => ?_
  subst hname
  cases node with
  | operator n => cases hdims
  | constant n =>
    cases hdims
    simp at hd
  | value n => exact h.dimensions name ⟨v, n, dims, hnode, hdims, hd⟩

theorem valueInfo : OneLine (g.valueInfo f v) := by
  unfold Graph.valueInfo
  simp only [oneLine_append]
  refine ⟨⟨?_, by decide⟩, ?_⟩
  · split
    · next type _ => cases type <;> decide
    · decide
  · split
    · next dims hdims =>
      refine oneLine_bracketed (List.forall_mem_map.2 ?_)
      cases hinferred : f.dims? v with
      | some inferred =>
        rw [hinferred] at hdims
        cases hdims
        exact h.dims hinferred
      | none =>
        rw [hinferred] at hdims
        obtain ⟨node, hnode, hdims⟩ := Option.bind_eq_some_iff.1 hdims
        exact h.shape hnode hdims
    · decide

theorem leafText : OneLine (g.leafText f v) := by
  have htag : OneLine ("[id " ++ toString v ++ "]") := by
    simp only [oneLine_append]
    exact ⟨⟨by decide, oneLine_nat v⟩, by decide⟩
  unfold Graph.leafText
  dsimp only
  split
  · next n _ =>
    refine oneLine_append.2 ⟨?_, ?_⟩
    · rw [oneLine_append, oneLine_append, oneLine_append]
      exact ⟨⟨⟨by decide, htag⟩, by decide⟩, h.valueInfo⟩
    · split
      · exact oneLine_append.2 ⟨by decide, Single.oneLine_text _⟩
      · decide
  · rw [oneLine_append, oneLine_append, oneLine_append, oneLine_append, oneLine_append]
    exact ⟨⟨⟨⟨⟨by decide, h.nodeName⟩, by decide⟩, htag⟩, by decide⟩, h.valueInfo⟩
  · exact oneLine_append.2 ⟨by decide, htag⟩

theorem resultText {op : OperatorNode} (hop : g.operator? id = some op) : OneLine (g.resultText f v id op) := by
  have hname := oneLine_operatorName (h.operators id op hop)
  unfold Graph.resultText
  dsimp only
  simp only [oneLine_append]
  refine ⟨⟨⟨⟨⟨⟨⟨⟨hname, by decide⟩, oneLine_nat id⟩, by decide⟩, ?_⟩, by decide⟩, h.nodeName⟩, by decide⟩, h.valueInfo⟩
  split
  · split
    · exact oneLine_append.2 ⟨by decide, oneLine_nat _⟩
    · decide
  · decide

theorem itemLine : OneLine (g.itemLine f e) := by
  refine oneLine_append.2 ⟨oneLine_join fun s hs => List.eq_of_mem_replicate hs ▸ by decide, ?_⟩
  unfold itemText
  cases hv : g.source? e.value with
  | none =>
    rw [producer?_of_source?_eq_none hv]
    exact h.leafText
  | some id =>
    obtain ⟨op, hop, hproducer⟩ := producer?_of_source? hv
    rw [hproducer]
    refine oneLine_append.2 ⟨h.resultText hop, ?_⟩
    split <;> decide

theorem partLines (parts : List (List OutlineItem)) (start : Nat) : ∀ s ∈ g.partLines f parts start, OneLine s := by
  intro s hs
  obtain ⟨⟨part, i⟩, -, hs⟩ := List.mem_flatMap.1 hs
  rcases List.mem_cons.1 hs with rfl | hs
  · exact oneLine_append.2 ⟨by decide, oneLine_nat i⟩
  · obtain ⟨e, -, rfl⟩ := List.mem_map.1 hs
    exact h.itemLine

end NamesOneLine

/-! ## The whole text -/

/-- The text of lines that are written one after the other. -/
def writtenText (lines : List String) : String := String.join (lines.map (· ++ "\n"))

theorem count_writtenText {lines : List String} (h : ∀ s ∈ lines, OneLine s) :
    (writtenText lines).toList.count '\n' = lines.length := by
  induction lines with
  | nil => rfl
  | cons s lines ih =>
    obtain ⟨hs, hlines⟩ := List.forall_mem_cons.1 h
    have htext : writtenText (s :: lines) = s ++ "\n" ++ writtenText lines := by simp [writtenText]
    rw [htext, String.toList_append, String.toList_append, List.count_append, List.count_append, ih hlines,
      List.count_eq_zero.2 hs, List.length_cons]
    exact Nat.add_comm ..

theorem length_partLines {values : List NodeId} {parts : List (List OutlineItem)}
    (h : List.Forall₂ IsPart values parts) (start : Nat) :
    (g.partLines f parts start).length = values.length + parts.flatten.length := by
  induction h generalizing start with
  | nil => rfl
  | cons _ _ ih =>
    have hrest := ih (start + 1)
    simp only [partLines] at hrest
    simp only [partLines, List.zipIdx_cons, List.flatMap_cons, List.length_append, hrest, List.length_cons,
      List.length_map, List.flatten_cons]
    omega

/-- The outline of any graph, whether it has cycles or not, expands each operator that is reached from the outputs once
and shows its inputs below it; wherever else the operator is shown, and nowhere else, a line ends with a star. The lines
are two for each output and one for each input of an operator that is reached, and if no name contains a line break, these
are the lines of the text. -/
theorem outline_exact (g : Graph) (f : InferredFacts) : ∃ parts, g.Outlines parts ∧ g.outline f = g.partLines f parts 0 ∧
    (∀ e ∈ parts.flatten, (g.itemLine f e).toList.getLast? = some '*' ↔ e.starred = true) ∧
    (g.outline f).length =
      2 * g.outputIds.length + total ((g.expanded parts.flatten).map fun id => (g.inputsOf id).length) ∧
    (g.NamesOneLine f → (writtenText (g.outline f)).toList.count '\n' = (g.outline f).length) := by
  obtain ⟨parts, houtlines, hlength, hlines⟩ := g.exists_outlines f
  refine ⟨parts, houtlines, hlines, fun e he => getLast?_itemLine fun hstar => ?_, ?_, fun hnames => ?_⟩
  · obtain ⟨earlier, later, hitems⟩ := List.append_of_mem he
    obtain ⟨id, hid, -⟩ := (houtlines.placed earlier e later hitems).starred.1 hstar
    simp [hid]
  · rw [hlines, length_partLines houtlines.roots, hlength]
    omega
  · rw [hlines]
    exact count_writtenText (hnames.partLines parts 0)

/-- An operator that reads its own output, which is an output of the graph twice. -/
def looped : Graph :=
  let values := ["x", "y"].foldl (fun g name => (g.addValue (some name) none none).1) Graph.empty
  ((values.addOperator (some "loop") (.elementwise { fn := .add }) [0, 1] [1]).1.setInputs [0]).setOutputs [1, 1]

theorem outline_exact_looped : looped.NamesOneLine {} ∧
    looped.outline {} = ["Output 0", "Add [id 2] 'y' ? [?]", " |'x' [id 0] ? [?]", " |Add [id 2] 'y' ? [?] *",
      "Output 1", "Add [id 2] 'y' ? [?] *"] ∧
    (writtenText (looped.outline {})).toList.count '\n' = 6 := by
  have hlines : looped.outline {} = ["Output 0", "Add [id 2] 'y' ? [?]", " |'x' [id 0] ? [?]",
      " |Add [id 2] 'y' ? [?] *", "Output 1", "Add [id 2] 'y' ? [?] *"] := by
    decide +kernel
  have hnodes : ∀ id ∈ looped.ids, ∀ node ∈ looped.node? id, node.shape? = none ∧ ∀ name ∈ node.name?, OneLine name := by
    decide +kernel
  have hoperators : ∀ id ∈ looped.operatorIds, ∀ node ∈ looped.operator? id, OneLine node.op.name := by
    decide +kernel
  have hnames : looped.NamesOneLine {} := by
    constructor
    · intro id node hnode
      exact (hnodes id (mem_ids.2 (Option.isSome_of_mem hnode)) node hnode).2
    · intro id node hnode op hop
      have := hoperators id (mem_operatorIds.2 (Option.isSome_of_mem hnode)) node hnode
      rwa [hop] at this
    · rintro name ⟨id, n, dims, hnode, hshape, -⟩
      have hnone : n.shape = none := (hnodes id (mem_ids.2 (Option.isSome_of_mem hnode)) _ hnode).1
      rw [hshape] at hnone
      cases hnone
    · intro id t ht
      cases ht
  obtain ⟨parts, -, -, -, -, hcount⟩ := outline_exact looped {}
  refine ⟨hnames, hlines, (hcount hnames).trans ?_⟩
  rw [hlines]
  rfl

end Graph

end TensorGraph
