import TensorGraph.Formula.Build
import TensorGraph.Proofs.Formula.Sketches
import TensorGraph.Proofs.Operator.Results

/-!
# Sketches of formulas

The sketch of a formula over inputs with different names is complete (`complete_build`), and every operator in it is
applied to as many expressions as it takes (`CallArguments.operator_spec`).
-/

namespace TensorGraph

/-! ## Operators of calls -/

/-- Whether an operator needs exactly the number of inputs, or at least one if there is no limit. -/
def Operator.Requires (op : Operator) (count : Nat) : Prop := 1 ≤ count ∧ op.Takes count

theorem Operator.requires_maxInputs {op : Operator} {most : Nat} (hpos : 1 ≤ most) (hmost : op.maxInputs = some most) :
    op.Requires most :=
  ⟨hpos, fun _ hm => Option.some.inj (hmost.symm.trans hm)⟩

namespace CallArguments

theorem check_eq_ok {c : CallArguments} {least most : Nat} {expected : String} {known : List String}
    (h : c.check least most expected known = .ok ()) : least ≤ c.args.length ∧ c.args.length ≤ most := by
  unfold check at h
  by_cases hcount : c.args.length < least ∨ most < c.args.length
  · rw [if_pos hcount] at h
    cases h
  · omega

theorem requires_first {c : CallArguments} {op : Operator} (hcount : 1 ≤ c.args.length) (hmost : op.maxInputs = some 1) :
    op.Requires (min 1 c.args.length) := by
  rw [Nat.min_eq_left hcount]
  exact Operator.requires_maxInputs (Nat.le_refl 1) hmost

theorem requires_all {c : CallArguments} {op : Operator} {most : Nat} (hpos : 1 ≤ most)
    (hcount : most ≤ c.args.length ∧ c.args.length ≤ most) (hmost : op.maxInputs = some most) : op.Requires (min c.args.length c.args.length) := by
  rw [Nat.min_self, Nat.le_antisymm hcount.2 hcount.1]
  exact Operator.requires_maxInputs hpos hmost

/-- A call whose operator reads the first argument. -/
theorem first_spec {c : CallArguments} {op : Operator} {least most count : Nat} {expected : String}
    {known : List String} {k : Unit → Result (Operator × Nat)}
    (h : (c.check least most expected known).bind k = .ok (op, count)) (hleast : 1 ≤ least)
    (hk : ∀ u, k u = .ok (op, count) → count = 1 ∧ op.maxInputs = some 1 ∧ op.numOutputs = 1) :
    op.numOutputs = 1 ∧ op.Requires (min count c.args.length) := by
  obtain ⟨u, hcheck, hu⟩ := bind_eq_ok.1 h
  obtain ⟨rfl, hmost, hone⟩ := hk u hu
  exact ⟨hone, requires_first (Nat.le_trans hleast (check_eq_ok hcheck).1) hmost⟩

/-- The operator of a call has one output, and takes as many inputs as there are arguments for it. -/
theorem operator_spec {c : CallArguments} {op : Operator} {count : Nat} (h : c.operator = .ok (op, count)) :
    op.numOutputs = 1 ∧ op.Requires (min count c.args.length) := by
  unfold operator at h
  cases hfn : ScalarFn.ofName? c.function with
  | some fn =>
    rw [hfn] at h
    obtain ⟨_, hcheck, h⟩ := bind_eq_ok.1 h
    cases h
    exact ⟨rfl, requires_all (by cases fn <;> decide) (check_eq_ok hcheck) rfl⟩
  | none =>
    cases hreduce : reduceFn? c.function with
    | some fn =>
      rw [hfn, hreduce] at h
      refine first_spec h (Nat.le_refl 1) fun _ h => ?_
      obtain ⟨axes, -, h⟩ := bind_eq_ok.1 h
      obtain ⟨keepDims, -, h⟩ := bind_eq_ok.1 h
      cases h
      exact ⟨rfl, rfl, rfl⟩
    | none =>
      rw [hfn, hreduce] at h
      dsimp only at h
      split at h
      case h_1 => -- softmax
        refine first_spec h (Nat.le_refl 1) fun _ h => ?_
        obtain ⟨axis, -, h⟩ := bind_eq_ok.1 h
        cases h
        exact ⟨rfl, rfl, rfl⟩
      case h_2 => -- transpose
        refine first_spec h (Nat.le_refl 1) fun _ h => ?_
        obtain ⟨items, -, h⟩ := bind_eq_ok.1 h
        split at h
        · cases h
          exact ⟨rfl, rfl, rfl⟩
        · split at h <;> cases h
          exact ⟨rfl, rfl, rfl⟩
      case h_3 => -- reshape
        obtain ⟨_, hcheck, h⟩ := bind_eq_ok.1 h
        cases h
        exact ⟨rfl, requires_all (by decide) (check_eq_ok hcheck) rfl⟩
      case h_4 => -- specify_shape
        refine first_spec h (by decide) fun _ h => ?_
        split at h <;> cases h
        exact ⟨rfl, rfl, rfl⟩
      case h_5 => -- concat
        split at h
        · cases h
        · next hne =>
          obtain ⟨_, -, h⟩ := bind_eq_ok.1 h
          obtain ⟨axis, -, h⟩ := bind_eq_ok.1 h
          cases h
          refine ⟨rfl, ?_⟩
          rw [Nat.min_self]
          exact ⟨List.length_pos_iff.2 (by simpa using hne), nofun⟩
      case h_6 => -- matmul
        obtain ⟨_, hcheck, h⟩ := bind_eq_ok.1 h
        cases h
        exact ⟨rfl, requires_all (by decide) (check_eq_ok hcheck) rfl⟩
      case h_8 => -- shape_i
        refine first_spec h (Nat.le_refl 1) fun _ h => ?_
        obtain ⟨index, -, h⟩ := bind_eq_ok.1 h
        split at h <;> cases h
        exact ⟨rfl, rfl, rfl⟩
      case h_9 => -- fill
        refine first_spec h (Nat.le_refl 1) fun _ h => ?_
        split at h <;> cases h <;> exact ⟨rfl, rfl, rfl⟩
      case h_13 => cases h
      all_goals
        refine first_spec h (Nat.le_refl 1) fun _ h => ?_
        cases h
        exact ⟨rfl, rfl, rfl⟩

end CallArguments

/-! ## Sketches of formulas -/

namespace Sketch

variable {s s' s'' : Sketch} {os os' : List ExprId}

/-- Whether one sketch begins with the expressions of another one. -/
structure Extends (s' s : Sketch) : Prop where
  size : s.exprs.size ≤ s'.exprs.size
  expr : ∀ id e, s.expr? id = some e → s'.expr? id = some e

theorem Extends.refl (s : Sketch) : s.Extends s := ⟨Nat.le_refl _, fun _ _ he => he⟩

theorem Extends.trans (h' : s''.Extends s') (h : s'.Extends s) : s''.Extends s :=
  ⟨Nat.le_trans h.size h'.size, fun id e he => h'.expr id e (h.expr id e he)⟩

theorem expr?_push (s : Sketch) (e : SketchExpr) (id : ExprId) :
    (s.push e).2.expr? id = if id = s.exprs.size then some e else s.expr? id := by
  simp only [push, expr?, Array.getElem?_push]

theorem size_push (s : Sketch) (e : SketchExpr) : (s.push e).2.exprs.size = s.exprs.size + 1 := by
  simp [push]

theorem lt_size_of_expr? {id : ExprId} {e : SketchExpr} (h : s.expr? id = some e) : id < s.exprs.size :=
  (Array.getElem?_eq_some_iff.1 h).1

theorem extends_push (s : Sketch) (e : SketchExpr) : (s.push e).2.Extends s := by
  refine ⟨by rw [size_push]; exact Nat.le_succ _, fun id e' he => ?_⟩
  rw [expr?_push, if_neg (Nat.ne_of_lt (lt_size_of_expr? he)), he]

/-- Whether a formula can have an expression: a constant, or an operator with one output and the right number of
inputs, which are earlier expressions. -/
def Built (id : ExprId) : SketchExpr → Prop
  | .constant _ => True
  | .operator op inputs => op.numOutputs = 1 ∧ op.Requires inputs.length ∧ ∀ i ∈ inputs, i < id
  | .value .. | .output .. => False

/-- Whether the second sketch has, beside the expressions of the first one, those that some expressions need. -/
structure Builds (s : Sketch) (os : List ExprId) (s' : Sketch) : Prop where
  keeps : s'.Extends s
  lt : ∀ o ∈ os, o < s'.exprs.size
  built : ∀ id e, s.exprs.size ≤ id → s'.expr? id = some e → Built id e
  reached : ∀ id, s.exprs.size ≤ id → id < s'.exprs.size → ∃ o ∈ os, Relation.ReflTransGen s'.Applies o id

theorem Extends.applies (h : s'.Extends s) {i j : ExprId} (hij : s.Applies i j) : s'.Applies i j := by
  obtain ⟨op, inputs, he, hj⟩ := hij
  exact ⟨op, inputs, h.expr i _ he, hj⟩

theorem Builds.refl (hos : ∀ o ∈ os, o < s.exprs.size) : s.Builds os s :=
  ⟨.refl s, hos, fun _ _ hle he => absurd (lt_size_of_expr? he) (Nat.not_lt.2 hle),
    fun _ hle hlt => absurd hlt (Nat.not_lt.2 hle)⟩

theorem Builds.append (h : s.Builds os s') (h' : s'.Builds os' s'') : s.Builds (os ++ os') s'' := by
  refine ⟨h'.keeps.trans h.keeps, fun o ho => ?_, fun id e hle he => ?_, fun id hle hlt => ?_⟩
  · rcases List.mem_append.1 ho with ho | ho
    · exact Nat.lt_of_lt_of_le (h.lt o ho) h'.keeps.size
    · exact h'.lt o ho
  · by_cases hid : id < s'.exprs.size
    · have he' : s'.expr? id = some s'.exprs[id] := Array.getElem?_eq_getElem hid
      obtain rfl := Option.some.inj (he.symm.trans (h'.keeps.expr id _ he'))
      exact h.built id _ hle he'
    · exact h'.built id e (Nat.not_lt.1 hid) he
  · by_cases hid : id < s'.exprs.size
    · obtain ⟨o, ho, hpath⟩ := h.reached id hle hid
      exact ⟨o, List.mem_append_left _ ho, Relation.ReflTransGen.mono (fun _ _ => h'.keeps.applies) _ _ hpath⟩
    · obtain ⟨o, ho, hpath⟩ := h'.reached id (Nat.not_lt.1 hid) hlt
      exact ⟨o, List.mem_append_right _ ho, hpath⟩

/-- An expression is added that needs some others. -/
theorem Builds.push (h : s.Builds os s') {e : SketchExpr} (he : Built s'.exprs.size e)
    (hneeds : ∀ o ∈ os, (s'.push e).2.Applies s'.exprs.size o) : s.Builds [s'.exprs.size] (s'.push e).2 := by
  refine ⟨(extends_push s' e).trans h.keeps, fun o ho => ?_, fun id e' hle he' => ?_, fun id hle hlt => ?_⟩
  · rw [List.mem_singleton.1 ho, size_push]
    exact Nat.lt_succ_self _
  · rw [expr?_push] at he'
    split at he'
    · next hid =>
      cases he'
      exact hid ▸ he
    · exact h.built id e' hle he'
  · refine ⟨_, List.mem_singleton_self _, ?_⟩
    rw [size_push] at hlt
    rcases Nat.lt_succ_iff_lt_or_eq.1 hlt with hid | rfl
    · obtain ⟨o, ho, hpath⟩ := h.reached id hle hid
      exact .head (hneeds o ho) (Relation.ReflTransGen.mono (fun _ _ => (extends_push s' e).applies) _ _ hpath)
    · exact .refl

end Sketch

namespace Formula

variable {inputs : List (String × ExprId)} {s s' : Sketch} {o : ExprId} {os : List ExprId}

/-! ## Steps that add expressions -/

theorem run_bind {α β : Type} {x : BuildM α} {k : α → BuildM β} {b : β} :
    (x >>= k) s = .ok (b, s') ↔ ∃ a t, x s = .ok (a, t) ∧ k a t = .ok (b, s') := by
  change (x s).bind (fun p => k p.1 p.2) = _ ↔ _
  rw [bind_eq_ok]
  simp

theorem run_push {e : SketchExpr} : push e s = .ok (o, s') ↔ s.exprs.size = o ∧ (s.push e).2 = s' := by
  change Except.ok (s.push e) = _ ↔ _
  simp [Sketch.push]

theorem run_pure {α : Type} {a b : α} : (pure a : BuildM α) s = .ok (b, s') ↔ a = b ∧ s = s' := by
  change Except.ok (a, s) = _ ↔ _
  simp

theorem run_lift {α : Type} {x : Except FormulaMeaningError α} {a : α} :
    (liftM x : BuildM α) s = .ok (a, s') ↔ x = .ok a ∧ s = s' := by
  cases x with
  | error e => simp [liftM, monadLift, MonadLift.monadLift, StateT.lift, bind, Except.bind]
  | ok b => simp [liftM, monadLift, MonadLift.monadLift, StateT.lift, bind, Except.bind, pure, Except.pure]

/-! ## What is built -/

theorem outputCount_eq_one {op : Operator} (h : op.numOutputs = 1) : Sketch.outputCount op = 1 := by
  rw [Sketch.outputCount, h, Nat.max_self]

/-- An operator is applied to expressions that were built. -/
theorem builds_operator (h : s.Builds os s') {op : Operator} (hone : op.numOutputs = 1) (hrequires : op.Requires os.length) :
    s.Builds [s'.exprs.size] (s'.push (.operator op os)).2 :=
  h.push ⟨hone, hrequires, h.lt⟩ fun o ho => ⟨op, os, by rw [Sketch.expr?_push, if_pos rfl], ho⟩

theorem builds_constant (v : Value) : s.Builds [s.exprs.size] (s.push (.constant v)).2 :=
  have hnone : s.Builds [] s := .refl nofun
  hnone.push trivial nofun

theorem build_name {ident : String} :
    (Formula.name ident).build inputs s = .ok (o, s') ↔ inputs.lookup ident = some o ∧ s = s' := by
  rw [build]
  cases inputs.lookup ident with
  | none => exact ⟨nofun, nofun⟩
  | some id => simpa using run_pure

theorem build_neg {x : Formula} : (neg x).build inputs s = .ok (o, s') ↔ ∃ a t, x.build inputs s = .ok (a, t) ∧
    t.exprs.size = o ∧ (t.push (.operator (.elementwise { fn := .neg }) [a])).2 = s' := by
  simp only [build, run_bind, run_push]

theorem build_binary {op : FormulaOp} {lhs rhs : Formula} : (binary op lhs rhs).build inputs s = .ok (o, s') ↔
    ∃ a t, lhs.build inputs s = .ok (a, t) ∧ ∃ b t', rhs.build inputs t = .ok (b, t') ∧
      t'.exprs.size = o ∧ (t'.push (.operator (.elementwise { fn := op.fn }) [a, b])).2 = s' := by
  simp only [build, run_bind, run_push]

theorem build_call {function : String} {args : List Formula} {keywords : List (String × Formula)} :
    (call function args keywords).build inputs s = .ok (o, s') ↔
      ∃ op count, CallArguments.operator { function, args, keywords } = .ok (op, count) ∧
        ∃ os t, buildFirst inputs count args s = .ok (os, t) ∧
          t.exprs.size = o ∧ (t.push (.operator op os)).2 = s' := by
  simp only [build, run_bind, run_push, run_lift, Prod.exists]
  grind

theorem buildFirst_zero (args : List Formula) : buildFirst inputs 0 args s = .ok (os, s') ↔ [] = os ∧ s = s' := by
  rw [buildFirst, run_pure]
  simp

theorem buildFirst_nil (count : Nat) : buildFirst inputs count [] s = .ok (os, s') ↔ [] = os ∧ s = s' := by
  rw [buildFirst, run_pure]
  simp

theorem buildFirst_cons {count : Nat} {x : Formula} {xs : List Formula} :
    buildFirst inputs (count + 1) (x :: xs) s = .ok (os, s') ↔ ∃ a t, x.build inputs s = .ok (a, t) ∧
      ∃ more, buildFirst inputs count xs t = .ok (more, s') ∧ a :: more = os := by
  simp only [buildFirst, run_bind, run_pure]
  grind

/-- Whether names stand for expressions of a sketch. -/
def Within (inputs : List (String × ExprId)) (s : Sketch) : Prop :=
  ∀ ident id, inputs.lookup ident = some id → id < s.exprs.size

theorem Within.mono (h : Within inputs s) (hextends : s'.Extends s) : Within inputs s' :=
  fun ident id hid => Nat.lt_of_lt_of_le (h ident id hid) hextends.size

mutual

theorem builds_build {s s' : Sketch} {o : ExprId} (hinputs : Within inputs s) :
    {f : Formula} → f.build inputs s = .ok (o, s') → s.Builds [o] s'
  | .number x, h => by
    rw [build] at h
    obtain ⟨rfl, rfl⟩ := run_push.1 h
    exact builds_constant _
  | .name ident, h => by
    obtain ⟨hlookup, rfl⟩ := build_name.1 h
    exact .refl fun o ho => List.mem_singleton.1 ho ▸ hinputs ident _ hlookup
  | .list items, h => by
    rw [build] at h
    obtain ⟨rfl, rfl⟩ := run_push.1 h
    exact builds_constant _
  | .neg x, h => by
    obtain ⟨a, t, hx, rfl, rfl⟩ := build_neg.1 h
    exact builds_operator (builds_build hinputs hx) rfl (Operator.requires_maxInputs (Nat.le_refl 1) rfl)
  | .binary op lhs rhs, h => by
    obtain ⟨a, t, hl, b, t', hr, rfl, rfl⟩ := build_binary.1 h
    have hleft := builds_build hinputs hl
    have hright := builds_build (hinputs.mono hleft.keeps) hr
    exact builds_operator (hleft.append hright) rfl (Operator.requires_maxInputs (by simp) (by cases op <;> rfl))
  | .call function args keywords, h => by
    obtain ⟨op, count, hop, os, t, hos, rfl, rfl⟩ := build_call.1 h
    obtain ⟨hone, hrequires⟩ := CallArguments.operator_spec hop
    obtain ⟨hbuilds, hlength⟩ := builds_buildFirst hinputs hos
    exact builds_operator hbuilds hone (hlength ▸ hrequires)

theorem builds_buildFirst {s s' : Sketch} {os : List ExprId} (hinputs : Within inputs s) :
    {count : Nat} → {args : List Formula} → buildFirst inputs count args s = .ok (os, s') →
      s.Builds os s' ∧ os.length = min count args.length
  | 0, args, h => by
    obtain ⟨rfl, rfl⟩ := (buildFirst_zero args).1 h
    exact ⟨.refl nofun, by simp⟩
  | count + 1, [], h => by
    obtain ⟨rfl, rfl⟩ := (buildFirst_nil (count + 1)).1 h
    exact ⟨.refl nofun, by simp⟩
  | count + 1, x :: xs, h => by
    obtain ⟨a, t, hx, more, hmore, rfl⟩ := buildFirst_cons.1 h
    have hfirst := builds_build hinputs hx
    obtain ⟨hrest, hlength⟩ := builds_buildFirst (hinputs.mono hfirst.keeps) hmore
    exact ⟨hfirst.append hrest, by simp [hlength]⟩

end

/-! ## Graphs of formulas -/

variable {f : Formula} {specs : List InputSpec} {g : Graph} {out : ExprId}

/-- The sketch of the declared inputs. -/
def inputSketch (specs : List InputSpec) : Sketch := { exprs := (specs.map inputExpr).toArray }

/-- The expressions of the declared inputs, by their names. -/
def inputNames (specs : List InputSpec) : List (String × ExprId) :=
  ((specs.map (·.name)).zip (List.range specs.length)).reverse

theorem graph_eq_ok : f.graph specs = .ok g ↔ ∃ out s, f.build (inputNames specs) (inputSketch specs) = .ok (out, s) ∧
    s.graph (List.range specs.length) [out] = g := by
  unfold Formula.graph
  constructor
  · intro h
    obtain ⟨⟨out, s⟩, hbuild, h⟩ := bind_eq_ok.1 h
    cases h
    exact ⟨out, s, hbuild, rfl⟩
  · rintro ⟨out, s, hbuild, rfl⟩
    exact bind_eq_ok.2 ⟨(out, s), hbuild, rfl⟩

theorem expr?_inputSketch {i : ExprId} {e : SketchExpr} : (inputSketch specs).expr? i = some e ↔
    ∃ spec, specs[i]? = some spec ∧ inputExpr spec = e := by
  simp [inputSketch, Sketch.expr?]

theorem size_inputSketch : (inputSketch specs).exprs.size = specs.length := by
  simp [inputSketch]

/-- The expression of an input has the place of its declaration. -/
theorem of_lookup_inputNames {ident : String} {id : ExprId} (h : (inputNames specs).lookup ident = some id) :
    (specs.map (·.name))[id]? = some ident := by
  obtain ⟨i, hi⟩ := List.mem_iff_getElem?.1 (List.mem_reverse.1 (mem_of_lookup h))
  obtain ⟨hname, hid⟩ := List.getElem?_zip_eq_some.1 hi
  obtain ⟨hlt, rfl⟩ := List.getElem?_eq_some_iff.1 hid
  rwa [List.getElem_range]

theorem within_inputNames (specs : List InputSpec) : Within (inputNames specs) (inputSketch specs) := by
  intro ident id hid
  have hlt := (List.getElem?_eq_some_iff.1 (of_lookup_inputNames hid)).1
  rwa [size_inputSketch, ← List.length_map (·.name)]

theorem builds_formula (h : f.build (inputNames specs) (inputSketch specs) = .ok (out, s)) :
    (inputSketch specs).Builds [out] s :=
  builds_build (within_inputNames specs) h

theorem inputExpr_eq (spec : InputSpec) : ∃ shape type, inputExpr spec = .value spec.name shape type := by
  unfold inputExpr
  split <;> exact ⟨_, _, rfl⟩

/-- The expression of an input in the sketch of a formula. -/
theorem expr?_input (h : (inputSketch specs).Builds [out] s) {i : Nat} (hi : i < specs.length) :
    s.expr? i = some (inputExpr specs[i]) :=
  h.keeps.expr i _ (expr?_inputSketch.2 ⟨specs[i], List.getElem?_eq_getElem hi, rfl⟩)

/-- The sketch of a formula has the inputs, and what the formula needs. -/
theorem complete_build (hnames : (specs.map (·.name)).Nodup)
    (h : f.build (inputNames specs) (inputSketch specs) = .ok (out, s)) :
    s.Complete (List.range specs.length) (specs.map (·.name)) out := by
  have hbuilds := builds_formula h
  have hbuilt := hbuilds.built
  have hreached := hbuilds.reached
  rw [size_inputSketch] at hbuilt hreached
  refine ⟨fun id e he => ?_, ?_, List.nodup_range, hnames, fun id name shape type he => ?_,
    hbuilds.lt out (List.mem_singleton_self _), fun id hid => ?_⟩
  · by_cases hid : id < specs.length
    · obtain ⟨shape, type, heq⟩ := inputExpr_eq specs[id]
      obtain rfl := Option.some.inj (he.symm.trans (heq ▸ expr?_input hbuilds hid))
      trivial
    · have hfits := hbuilt id e (Nat.not_lt.1 hid) he
      cases e with
      | operator op args => exact ⟨outputCount_eq_one hfits.1, hfits.2.2⟩
      | output op index => exact hfits
      | _ => trivial
  · refine List.forall₂_iff_get.2 ⟨by simp, fun i hi hi' => ?_⟩
    have hlt : i < specs.length := by simpa using hi
    obtain ⟨shape, type, heq⟩ := inputExpr_eq specs[i]
    exact ⟨shape, type, by simpa [heq] using expr?_input hbuilds hlt⟩
  · rw [List.mem_range]
    exact Decidable.byContradiction fun hid => hbuilt id _ (Nat.not_lt.1 hid) he
  · rw [List.mem_range]
    by_cases hlt : id < specs.length
    · exact .inl hlt
    · obtain ⟨o, ho, hpath⟩ := hreached id (Nat.not_lt.1 hlt) hid
      exact .inr (List.mem_singleton.1 ho ▸ hpath)

end Formula

end TensorGraph
