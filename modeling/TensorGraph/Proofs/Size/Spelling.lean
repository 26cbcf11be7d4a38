import TensorGraph.Proofs.Facts.Description
import TensorGraph.Proofs.Size.Phrases
import TensorGraph.Size.Text

/-!
# The text of a size expression

An expression's text is that of a syntax tree (`SizeExpr.phrase`), so that the text says how it is read. Main
statement: `valueUnder?_eq_of_text_eq`, expressions that are written in the same way have the same value, if no product
that stands to the right of a multiplication sign begins with a quotient. Such a product is written without
parentheses, and is not read as the product that it is.
-/

namespace TensorGraph

namespace SizeExpr

/-- The value in exact arithmetic under values of some symbols, if it can be computed. -/
def valueUnder? (ρ : Valuation) : SizeExpr → Option Int
  | .value v => some v.toInt
  | .sym s => ρ s.name
  | .neg x => (x.valueUnder? ρ).map (-·)
  | .add a b => do Level.sum.operate false (← a.valueUnder? ρ) (← b.valueUnder? ρ)
  | .sub a b => do Level.sum.operate true (← a.valueUnder? ρ) (← b.valueUnder? ρ)
  | .mul a b => do Level.product.operate false (← a.valueUnder? ρ) (← b.valueUnder? ρ)
  | .div a b => do Level.product.operate true (← a.valueUnder? ρ) (← b.valueUnder? ρ)
  | .max a b => do SizeFunction.max.value? (← a.valueUnder? ρ) (← b.valueUnder? ρ)
  | .min a b => do SizeFunction.min.value? (← a.valueUnder? ρ) (← b.valueUnder? ρ)
  | .broadcast a b => do SizeFunction.broadcast.value? (← a.valueUnder? ρ) (← b.valueUnder? ρ)

/-- Where all symbols have sizes, this is the value that is known from there. -/
theorem valueUnder?_valuation (σ : Assignment) (e : SizeExpr) : e.valueUnder? σ.valuation = e.exactValue? σ := by
  induction e with
  | value v => rfl
  | sym s => rfl
  | neg x ih => rw [valueUnder?, exactValue?, ih]; cases x.exactValue? σ <;> rfl
  | _ a b iha ihb =>
    rw [valueUnder?, exactValue?, iha, ihb]; cases a.exactValue? σ <;> cases b.exactValue? σ <;> rfl

/-- Whether the names of all symbols are identifiers. -/
def WellNamed : SizeExpr → Prop
  | .value _ => True
  | .sym s => isIdentifier s.name.toList = true
  | .neg x => x.WellNamed
  | .add a b | .sub a b | .mul a b | .div a b | .max a b | .min a b | .broadcast a b => a.WellNamed ∧ b.WellNamed

/-- Whether the first operand of a chain of products and quotients is divided. -/
def beginsWithQuotient : SizeExpr → Bool
  | .div .. => true
  | .mul a _ => a.beginsWithQuotient
  | _ => false

/-- Whether no product that is itself the right operand of a product begins with a quotient. -/
def Grouped : SizeExpr → Prop
  | .value _ | .sym _ => True
  | .neg x => x.Grouped
  | .mul a b => (a.Grouped ∧ b.Grouped) ∧ (b.isMul = true → b.beginsWithQuotient = false)
  | .add a b | .sub a b | .div a b | .max a b | .min a b | .broadcast a b => a.Grouped ∧ b.Grouped

end SizeExpr

/-! ## Building syntax trees -/

namespace Phrase

/-- A tree as the operand of a product, in parentheses if it is none. -/
def toWord : {p : Part} → Phrase p → Phrase .word
  | .word, x => x
  | .chain .product, x => group (last x)
  | .chain .sum, x => group x

/-- A tree as the operand of a sum, in parentheses if it is none. -/
def toProduct : {p : Part} → Phrase p → Phrase (.chain .product)
  | .word, x => last x
  | .chain .product, x => x
  | .chain .sum, x => last (l := .product) (group x)

/-- A tree as a whole text. -/
def toSum : {p : Part} → Phrase p → Phrase (.chain .sum)
  | .word, x => last (l := .sum) (last (l := .product) x)
  | .chain .product, x => last (l := .sum) x
  | .chain .sum, x => x

/-- A chain that goes on with an operator and another chain. -/
def append {l : Level} : Phrase (.chain l) → (inverse : Bool) → Phrase (.chain l) → Phrase (.chain l)
  | last x, inverse, y => more x inverse y
  | more x i rest, inverse, y => more x i (rest.append inverse y)

variable {l : Level} {p : Part} {ρ : Valuation} {use : Int → Option Int}

theorem chars_toSum (x : Phrase p) : x.toSum.chars = x.chars := by
  cases p with
  | word => rfl
  | chain l => cases l <;> rfl

theorem chars_append (x : Phrase (.chain l)) (inverse : Bool) (y : Phrase (.chain l)) :
    (x.append inverse y).chars = x.chars ++ ' ' :: l.sign inverse :: ' ' :: y.chars := by
  cases x with
  | last x => simp only [append, chars]
  | more x i rest => simp [append, chars, chars_append rest]

/-! ### Values of built trees -/

theorem value_word : (x : Phrase .word) → (use : Int → Option Int) → x.value ρ use = (x.value ρ some).bind use
  | number _, _ => rfl
  | name _ _, _ => by simp [value]
  | minus x, use => by simp [value, value_word x fun v => use (-v), value_word x fun v => some (-v), Option.bind_assoc]
  | group _, _ => by simp [value]
  | call _ _ _, _ => by simp [value, Option.bind_assoc]

theorem value_toWord (x : Phrase p) (use : Int → Option Int) : x.toWord.value ρ use = (x.value ρ some).bind use := by
  cases p with
  | word => exact x.value_word use
  | chain l =>
    cases l with
    | product => exact congrArg (Option.bind · use) (Option.bind_fun_some _)
    | sum => rfl

theorem value_toProduct (x : Phrase p) : x.toProduct.value ρ some = x.value ρ some := by
  cases p with
  | word => exact Option.bind_fun_some _
  | chain l =>
    cases l with
    | product => rfl
    | sum => exact (Option.bind_fun_some _).trans (Option.bind_fun_some _)

theorem value_toSum (x : Phrase p) : x.toSum.value ρ some = x.value ρ some := by
  cases p with
  | word => exact (Option.bind_fun_some _).trans (Option.bind_fun_some _)
  | chain l =>
    cases l with
    | product => exact Option.bind_fun_some _
    | sum => rfl

theorem value_append (x : Phrase (.chain l)) (inverse : Bool) (y : Phrase (.chain l)) (use : Int → Option Int) :
    (x.append inverse y).value ρ use = (x.value ρ use).bind fun v => y.value ρ (l.operate inverse v) := by
  cases x with
  | last x => simp only [append, value]
  | more x i rest => simp [append, value, value_append rest, Option.bind_assoc]

/-- The operators of a chain: whether each is the inverse one. -/
def operators : Phrase (.chain l) → List Bool
  | last _ => []
  | more _ inverse rest => inverse :: rest.operators

theorem operators_append (x : Phrase (.chain l)) (inverse : Bool) (y : Phrase (.chain l)) :
    (x.append inverse y).operators = x.operators ++ inverse :: y.operators := by
  cases x with
  | last x => simp only [append, operators, List.nil_append]
  | more x i rest => simp [append, operators, operators_append rest]

/-- What can be done to the first operand of each operator of a chain can as well be done to the value. -/
theorem value_map {g : Int → Int} (x : Phrase (.chain l))
    (h : ∀ i ∈ x.operators, ∀ v w, l.operate i (g v) w = (l.operate i v w).map g) (use : Int → Option Int) :
    x.value ρ (fun v => (use v).map g) = (x.value ρ use).map g := by
  cases x with
  | last x => simp [value, Option.map_bind, Function.comp_def]
  | more x i rest =>
    rw [operators] at h
    obtain ⟨hi, hrest⟩ := List.forall_mem_cons.1 h
    have hnext (v : Int) : rest.value ρ (l.operate i (g v)) = (rest.value ρ (l.operate i v)).map g := by
      rw [← value_map rest hrest]
      exact congrArg (rest.value ρ) (funext fun w => hi v w)
    simp [value, Option.map_bind, Option.bind_assoc, Option.bind_map, Function.comp_def, hnext]

theorem value_operate {g : Int → Int} (x : Phrase (.chain l))
    (h : ∀ i ∈ x.operators, ∀ v w, l.operate i (g v) w = (l.operate i v w).map g) :
    x.value ρ (fun v => some (g v)) = (x.value ρ some).bind fun v => some (g v) := by
  have hmap := x.value_map (ρ := ρ) h some
  rwa [Option.map_eq_bind] at hmap

end Phrase

namespace SizeExpr

/-! ## The syntax tree of an expression -/

/-- What the text of an expression is without parentheses. -/
abbrev part : SizeExpr → Part
  | .value _ | .sym _ | .neg _ | .max .. | .min .. | .broadcast .. => .word
  | .mul .. | .div .. => .chain .product
  | .add .. | .sub .. => .chain .sum

/-- The syntax tree of the text of an expression. -/
def phrase : (e : SizeExpr) → e.WellNamed → Phrase e.part
  | .value v, _ => if v < 0 then .minus (.number v.toInt.natAbs) else .number v.toInt.natAbs
  | .sym s, h => .name s.name h
  | .neg x, h => .minus (x.phrase h).toWord
  | .add a b, h => (a.phrase h.1).toSum.append false
    (if (SizeExpr.add a b).continues b then (b.phrase h.2).toSum else .last (l := .sum) (b.phrase h.2).toProduct)
  | .sub a b, h => (a.phrase h.1).toSum.append true (.last (l := .sum) (b.phrase h.2).toProduct)
  | .mul a b, h => (a.phrase h.1).toProduct.append false
    (if (SizeExpr.mul a b).continues b then (b.phrase h.2).toProduct else .last (l := .product) (b.phrase h.2).toWord)
  | .div a b, h => (a.phrase h.1).toProduct.append true (.last (l := .product) (b.phrase h.2).toWord)
  | .max a b, h => .call .max (a.phrase h.1).toSum (b.phrase h.2).toSum
  | .min a b, h => .call .min (a.phrase h.1).toSum (b.phrase h.2).toSum
  | .broadcast a b, h => .call .broadcast (a.phrase h.1).toSum (b.phrase h.2).toSum

variable {a b e : SizeExpr} {ρ : Valuation}

theorem toList_bracketIf (p : Bool) (s : String) :
    (bracketIf p s).toList = if p then '(' :: (s.toList ++ [')']) else s.toList := by
  cases p <;> simp [bracketIf]

theorem chars_toWord (x : Phrase e.part) :
    x.toWord.chars = if e.precedence < 4 then '(' :: (x.chars ++ [')']) else x.chars := by
  cases e <;> rfl

theorem chars_toProduct (x : Phrase e.part) :
    x.toProduct.chars = if e.precedence < 3 then '(' :: (x.chars ++ [')']) else x.chars := by
  cases e <;> rfl

theorem precedence_ge (e : SizeExpr) : 2 ≤ e.precedence := by
  cases e <;> simp [precedence]

theorem precedence_of_continues (h : e.continues b = true) : b.precedence = e.precedence := by
  cases e <;> cases b <;> simp_all [continues, precedence]

/-- The text of two operands with an operator between them, if the right one does not go on with a chain. -/
theorem toList_infixText (k : Nat) (hk : e.precedence = k) (h : e.continues b = false) (op s t : String) :
    (text.infixText op e a s b t).toList = (if a.precedence < k then '(' :: (s.toList ++ [')']) else s.toList) ++
      ' ' :: (op.toList ++ ' ' :: if b.precedence < k + 1 then '(' :: (t.toList ++ [')']) else t.toList) := by
  have hright : (decide (b.precedence < k) || b.precedence == k) = decide (b.precedence < k + 1) := by
    rw [Bool.eq_iff_iff]
    simp
    omega
  simp [text.infixText, toList_bracketIf, h, hk, hright]

theorem toList_infixText_of_continues (k : Nat) (hk : e.precedence = k) (h : e.continues b = true) (op s t : String) :
    (text.infixText op e a s b t).toList = (if a.precedence < k then '(' :: (s.toList ++ [')']) else s.toList) ++
      ' ' :: (op.toList ++ ' ' :: t.toList) := by
  simp [text.infixText, toList_bracketIf, h, hk, precedence_of_continues h]

theorem toList_value (v : Int32) : (toString v).toList =
    (if v < 0 then Phrase.minus (.number v.toInt.natAbs) else .number v.toInt.natAbs).chars := by
  have hsign : v < 0 ↔ v.toInt < 0 := Int32.lt_iff_toInt_lt
  have htext : toString v = v.toInt.repr := rfl
  rw [htext]
  simp only [hsign]
  cases v.toInt with
  | ofNat n =>
    have hnat : ¬ Int.ofNat n < 0 := by simp
    rw [if_neg hnat]
    simp [Int.repr, Phrase.chars, Nat.toList_repr]
  | negSucc n => simp [Int.repr, Phrase.chars, Nat.toList_repr]

/-- The text of an expression is that of its syntax tree. -/
theorem toList_text (h : e.WellNamed) : (e.text false).toList = (e.phrase h).chars := by
  induction e with
  | value v => exact toList_value v
  | sym s => rfl
  | neg x ih => simp [text, phrase, Phrase.chars, toList_bracketIf, chars_toWord, ih h]
  | add a b iha ihb =>
    have hleft : ¬ a.precedence < 2 := Nat.not_lt.2 a.precedence_ge
    rw [text, phrase, Phrase.chars_append]
    split
    · next hcont =>
      rw [toList_infixText_of_continues 2 rfl hcont]
      simp [Phrase.chars_toSum, iha h.1, ihb h.2, hleft, Level.sign]
    · next hcont =>
      rw [toList_infixText 2 rfl (Bool.not_eq_true _ ▸ hcont)]
      simp [Phrase.chars, Phrase.chars_toSum, chars_toProduct, iha h.1, ihb h.2, hleft, Level.sign]
  | sub a b iha ihb =>
    have hleft : ¬ a.precedence < 2 := Nat.not_lt.2 a.precedence_ge
    rw [text, phrase, Phrase.chars_append, toList_infixText 2 rfl rfl]
    simp [Phrase.chars, Phrase.chars_toSum, chars_toProduct, iha h.1, ihb h.2, hleft, Level.sign]
  | mul a b iha ihb =>
    rw [text, phrase, Phrase.chars_append]
    split
    · next hcont =>
      have hright : b.precedence = 3 := precedence_of_continues hcont
      rw [toList_infixText_of_continues 3 rfl hcont]
      simp [chars_toProduct, iha h.1, ihb h.2, hright, Level.sign]
    · next hcont =>
      rw [toList_infixText 3 rfl (Bool.not_eq_true _ ▸ hcont)]
      simp [Phrase.chars, chars_toWord, chars_toProduct, iha h.1, ihb h.2, Level.sign]
  | div a b iha ihb =>
    rw [text, phrase, Phrase.chars_append, toList_infixText 3 rfl rfl]
    simp [Phrase.chars, chars_toWord, chars_toProduct, iha h.1, ihb h.2, Level.sign]
  | max a b iha ihb => simp [text, phrase, Phrase.chars, SizeFunction.chars, Phrase.chars_toSum, iha h.1, ihb h.2]
  | min a b iha ihb => simp [text, phrase, Phrase.chars, SizeFunction.chars, Phrase.chars_toSum, iha h.1, ihb h.2]
  | broadcast a b iha ihb =>
    simp [text, phrase, Phrase.chars, SizeFunction.chars, Phrase.chars_toSum, iha h.1, ihb h.2]

/-! ## The value that is read -/

theorem continues_mul : (SizeExpr.mul a b).continues b = b.isMul := by
  cases b <;> rfl

/-- A product that does not begin with a quotient is written with multiplication signs only. -/
theorem operators_phrase (hgrouped : e.Grouped) (hbegin : e.beginsWithQuotient = false) (h : e.WellNamed) :
    ∀ i ∈ (e.phrase h).toProduct.operators, i = false := by
  induction e with
  | mul a b iha ihb =>
    have hleft := iha hgrouped.1.1 hbegin h.1
    rw [phrase, Phrase.toProduct, Phrase.operators_append]
    simp only [List.forall_mem_append, List.forall_mem_cons, true_and]
    refine ⟨hleft, ?_⟩
    split
    · next hcont =>
      have hright : b.isMul = true := continues_mul ▸ hcont
      exact ihb hgrouped.1.2 (hgrouped.2 hright) h.2
    · simp [Phrase.operators]
  | div a b => simp [beginsWithQuotient] at hbegin
  | _ => simp [Phrase.toProduct, Phrase.operators]

/-- Read back, the text of an expression has the expression's value. -/
theorem value_phrase (hgrouped : e.Grouped) (h : e.WellNamed) : (e.phrase h).value ρ some = e.valueUnder? ρ := by
  induction e with
  | value v =>
    rw [phrase]
    split
    · next hneg =>
      have hneg : v.toInt < 0 := Int32.lt_iff_toInt_lt.1 hneg
      simp only [Phrase.value, valueUnder?, Option.some.injEq]
      omega
    · next hnonneg =>
      have hnonneg : ¬ v.toInt < 0 := fun hlt => hnonneg (Int32.lt_iff_toInt_lt.2 hlt)
      simp only [Phrase.value, valueUnder?, Option.some.injEq]
      omega
  | sym s => exact Option.bind_fun_some _
  | neg x ih =>
    rw [phrase, Phrase.value, Phrase.value_toWord, ih hgrouped h, valueUnder?, Option.map_eq_bind]
    rfl
  | add a b iha ihb =>
    obtain ⟨hgroupeda, hgroupedb⟩ := hgrouped
    rw [phrase, Phrase.value_append, Phrase.value_toSum, iha hgroupeda h.1, valueUnder?]
    refine Option.bind_congr fun v _ => ?_
    split
    · -- The terms of `b` are added one by one to `v`, which adds their sum.
      have hshift := (b.phrase h.2).toSum.value_operate (ρ := ρ) (g := (v + ·)) fun i _ u w => by
        cases i <;> simp [Level.operate] <;> omega
      rwa [Phrase.value_toSum, ihb hgroupedb h.2] at hshift
    · rw [Phrase.value, Phrase.value_toProduct, ihb hgroupedb h.2]
      rfl
  | sub a b iha ihb =>
    obtain ⟨hgroupeda, hgroupedb⟩ := hgrouped
    rw [phrase, Phrase.value_append, Phrase.value_toSum, iha hgroupeda h.1, valueUnder?]
    refine Option.bind_congr fun v _ => ?_
    rw [Phrase.value, Phrase.value_toProduct, ihb hgroupedb h.2]
    rfl
  | mul a b iha ihb =>
    obtain ⟨⟨hgroupeda, hgroupedb⟩, hbegin⟩ := hgrouped
    rw [phrase, Phrase.value_append, Phrase.value_toProduct, iha hgroupeda h.1, valueUnder?]
    refine Option.bind_congr fun v _ => ?_
    split
    · next hcont =>
      have hmul : b.isMul = true := continues_mul ▸ hcont
      -- Multiplied one by one, the factors of `b` give the product; a flooring division among them would not.
      have htimes := operators_phrase hgroupedb (hbegin hmul) h.2
      have hscale := (b.phrase h.2).toProduct.value_operate (ρ := ρ) (g := (v * ·)) fun i hi u w => by
        rw [htimes i hi]
        simp [Level.operate, Int.mul_assoc]
      rwa [Phrase.value_toProduct, ihb hgroupedb h.2] at hscale
    · rw [Phrase.value, Phrase.value_toWord, ihb hgroupedb h.2, Option.bind_fun_some]
      rfl
  | div a b iha ihb =>
    obtain ⟨hgroupeda, hgroupedb⟩ := hgrouped
    rw [phrase, Phrase.value_append, Phrase.value_toProduct, iha hgroupeda h.1, valueUnder?]
    refine Option.bind_congr fun v _ => ?_
    rw [Phrase.value, Phrase.value_toWord, ihb hgroupedb h.2, Option.bind_fun_some]
    rfl
  | max a b iha ihb | min a b iha ihb | broadcast a b iha ihb =>
    obtain ⟨hgroupeda, hgroupedb⟩ := hgrouped
    simp only [phrase, Phrase.value, Phrase.value_toSum, iha hgroupeda h.1, ihb hgroupedb h.2, Option.bind_fun_some]
    rfl

/-- Expressions that are written in the same way have the same value, or none, under every assignment of values to
symbols. -/
theorem valueUnder?_eq_of_text_eq (hnamesa : a.WellNamed) (hnamesb : b.WellNamed) (ha : a.Grouped) (hb : b.Grouped)
    (h : a.text false = b.text false) (ρ : Valuation) : a.valueUnder? ρ = b.valueUnder? ρ := by
  have hchars : (a.phrase hnamesa).toSum.chars ++ [] = (b.phrase hnamesb).toSum.chars ++ [] := by
    rw [Phrase.chars_toSum, Phrase.chars_toSum, ← toList_text, ← toList_text, h]
  obtain ⟨htree, -⟩ := Phrase.unique _ _ hchars .nothing .nothing
  rw [← value_phrase ha hnamesa, ← value_phrase hb hnamesb, ← Phrase.value_toSum, htree, Phrase.value_toSum]

/-- The volume `a * (b * (-c))`, and the same volume grouped in another way. -/
def volume : SizeExpr := .mul (posVar "a") (.mul (posVar "b") (.neg (posVar "c")))

def regroupedVolume : SizeExpr := .mul (.mul (posVar "a") (posVar "b")) (.neg (posVar "c"))

theorem valueUnder?_volume :
    volume.valueUnder? (fun _ => some 3) = regroupedVolume.valueUnder? (fun _ => some 3) :=
  valueUnder?_eq_of_text_eq (a := volume) (b := regroupedVolume) ⟨rfl, rfl, rfl⟩ ⟨⟨rfl, rfl⟩, rfl⟩
    ⟨⟨trivial, ⟨trivial, trivial⟩, by decide⟩, by decide⟩ ⟨⟨⟨⟨trivial, trivial⟩, by decide⟩, trivial⟩, by decide⟩
    (by decide) _

/-- The product `a * ((b / c) * d)` is read as `((a * b) / c) * d`. -/
example :
    let unreadable := SizeExpr.mul (posVar "a") (.mul (.div (posVar "b") (posVar "c")) (posVar "d"))
    let asRead := SizeExpr.mul (.div (.mul (posVar "a") (posVar "b")) (posVar "c")) (posVar "d")
    let ρ : Valuation := fun name => if name = "b" ∨ name = "d" then some 1 else some 2
    unreadable.text false = asRead.text false ∧ unreadable.valueUnder? ρ = some 0 ∧ asRead.valueUnder? ρ = some 1 := by
  decide

end SizeExpr

end TensorGraph
