import TensorGraph.Size.Range

/-!
# Simplification of size expressions

`SizeExpr.simplify` folds constants, removes identities, cancels opposite terms and common factors
and puts the operands of commutative operators in a canonical order, so that equal sizes that were
built in different ways often simplify to the same expression.

A sum is read as a list of signed terms, a product, maximum, minimum or broadcast as the list of
the operands of its chain. Terms that simplify to sums are taken apart again, which is why the
recursion does not follow the tree; `simplifyN` bounds its depth instead.
-/

namespace TensorGraph

/-- The operators whose operands can be freely reordered and regrouped. -/
inductive Chain where
  | mul | max | min | broadcast
deriving DecidableEq, Repr

namespace Chain

/-- The operands of `e`, if its outermost operator is the chain's. -/
def operands? : Chain → SizeExpr → Option (SizeExpr × SizeExpr)
  | .mul, .mul a b | .max, .max a b | .min, .min a b | .broadcast, .broadcast a b => some (a, b)
  | _, _ => none

def apply : Chain → SizeExpr → SizeExpr → SizeExpr
  | .mul => .mul
  | .max => .max
  | .min => .min
  | .broadcast => .broadcast

/-- The operands of a nested chain, from left to right. -/
def leaves (c : Chain) : SizeExpr → List SizeExpr
  | .mul a b => if c = .mul then c.leaves a ++ c.leaves b else [.mul a b]
  | .max a b => if c = .max then c.leaves a ++ c.leaves b else [.max a b]
  | .min a b => if c = .min then c.leaves a ++ c.leaves b else [.min a b]
  | .broadcast a b => if c = .broadcast then c.leaves a ++ c.leaves b else [.broadcast a b]
  | e => [e]

end Chain

/-- Says whether a constant can be left out of the maximum (minimum) of it and other operands. -/
abbrev DropTest := (largest : Bool) → (rest : List SizeExpr) → (constant : Int32) → Bool

/-- Whether the bounds of another operand show that it dominates the constant. -/
def boundsDominate : DropTest := fun largest rest c =>
  rest.any fun e => if largest then c ≤ e.range.lo else e.range.hi ≤ c

namespace SizeExpr

/-! ## Terms in order -/

/-- Whether `a` may stand before `b`: symbols come first, in the order of their names, and other
terms keep their order. -/
def termLe : SizeExpr → SizeExpr → Bool
  | .sym s, .sym t => s.name ≤ t.name
  | .sym _, _ => true
  | _, .sym _ => false
  | _, _ => true

/-- The terms in canonical order. -/
def sortTerms (es : List SizeExpr) : List SizeExpr := es.mergeSort termLe

/-- Adds a term unless it is alike to one that is there. -/
def keepTerm (kept : List SizeExpr) (e : SizeExpr) : List SizeExpr :=
  if e.memAlike kept then kept else kept ++ [e]

/-- Drops each term that is alike to an earlier one. -/
def dedupTerms (es : List SizeExpr) : List SizeExpr := es.foldl keepTerm []

/-- The product of the factors, grouped to the left. -/
def product : List SizeExpr → SizeExpr
  | [] => .value 1
  | e :: es => es.foldl .mul e

/-! ## Sums -/

/-- A term of a sum, with whether it is subtracted. -/
structure Signed where
  negated : Bool
  term : SizeExpr
deriving DecidableEq, Repr

/-- The terms of nested sums, differences and negations, from left to right. -/
def sumLeaves (negated : Bool) : SizeExpr → List Signed
  | .add a b => sumLeaves negated a ++ sumLeaves negated b
  | .sub a b => sumLeaves negated a ++ sumLeaves (!negated) b
  | .neg x => sumLeaves (!negated) x
  | e => [⟨negated, e⟩]

/-- Whether the expression is a constant or can be taken apart as a sum. -/
def isSum : SizeExpr → Bool
  | .add .. | .sub .. | .neg _ | .value _ => true
  | _ => false

/-- The sum of the constant terms, from left to right, or `none` if a step overflows. -/
def constantSum (terms : List Signed) : Option Int32 :=
  terms.foldl step (some 0)
where
  step (acc : Option Int32) (t : Signed) : Option Int32 :=
    match t.term with
    | .value v => do Word.add? (← acc) (← if t.negated then Word.neg? v else some v)
    | _ => acc

/-- Removes pairs of opposite terms, each term with the first later one that cancels it. -/
def cancelOpposites : List Signed → List Signed
  | [] => []
  | t :: ts =>
    match ts.findIdx? fun u => u.negated != t.negated && u.term.alike t.term with
    | some j => cancelOpposites (ts.eraseIdx j)
    | none => t :: cancelOpposites ts
termination_by ts => ts.length
decreasing_by
  · have := List.length_eraseIdx_le ts j
    simp only [List.length_cons]; omega
  · simp

/-- Adds a term to a sum that may still be empty. -/
def plus (acc : Option SizeExpr) (t : SizeExpr) : Option SizeExpr :=
  some (match acc with | some a => .add a t | none => t)

/-- Subtracts a term from a sum that may still be empty. -/
def minus (acc : Option SizeExpr) (t : SizeExpr) : Option SizeExpr :=
  some (match acc with | some a => .sub a t | none => .neg t)

/-- Adds a negative constant to a sum by subtracting its opposite, if that exists. -/
def addNegative (constant : Int32) (a : SizeExpr) : SizeExpr :=
  match Word.neg? constant with
  | some c => .sub a (.value c)
  | none => .add a (.value constant)

/-- The sum of a constant, added terms and subtracted terms. A negative constant is subtracted at
the end if any term is added. -/
def buildSum (constant : Int32) (added subtracted : List SizeExpr) : SizeExpr :=
  let start := if 0 < constant || (constant < 0 && added.isEmpty) then some (.value constant) else none
  let acc := subtracted.foldl minus (added.foldl plus start)
  let acc := if constant < 0 && !added.isEmpty then acc.map (addNegative constant) else acc
  acc.getD (.value 0)

/-- The sum with the given terms, or `whole` if its constants overflow. -/
def simplifySum (whole : SizeExpr) (terms : List Signed) : SizeExpr :=
  match constantSum terms with
  | none => whole
  | some constant =>
    let rest := cancelOpposites (terms.filter fun t => t.term.asValue?.isNone)
    buildSum constant
      (sortTerms ((rest.filter (!·.negated)).map (·.term)))
      (sortTerms ((rest.filter (·.negated)).map (·.term)))

/-! ## Products, extrema and broadcasts -/

/-- The constant factor of a product and its other factors, or `none` if the constant overflows.
Negated factors put their sign into the constant. -/
def splitFactors (factors : List SizeExpr) : Option (Int32 × List SizeExpr) :=
  factors.foldlM step (1, [])
where
  step (acc : Int32 × List SizeExpr) : SizeExpr → Option (Int32 × List SizeExpr)
    | .value v => (Word.mul? acc.1 v).map fun c => (c, acc.2)
    | .neg x => (Word.neg? acc.1).map fun c => (c, acc.2 ++ [x])
    | e => some (acc.1, acc.2 ++ [e])

/-- The product of the given factors, or `whole` if its constants overflow. -/
def simplifyProduct (whole : SizeExpr) (factors : List SizeExpr) : SizeExpr :=
  match splitFactors factors with
  | none => whole
  | some (constant, rest) =>
    let rest := sortTerms rest
    if constant = 0 then .value 0
    else if constant = 1 then product rest
    else if constant = -1 then
      match product rest with
      | .value v => .value (-v)
      | e => .neg e
    else rest.foldl .mul (.value constant)

/-- Whether the larger (smaller) of two words is meant. -/
def pickWord (largest : Bool) (a b : Int32) : Int32 :=
  if largest then (if a < b then b else a) else (if b < a then b else a)

/-- The larger (smaller) of the constants so far and of an operand, if that is constant. -/
def pickConstant (largest : Bool) (acc : Option Int32) (e : SizeExpr) : Option Int32 :=
  match e.asValue?, acc with
  | some v, some c => some (pickWord largest c v)
  | some v, none => some v
  | none, acc => acc

/-- The constant of a maximum or minimum: the largest or smallest of its constant operands. -/
def extremumConstant (largest : Bool) (operands : List SizeExpr) : Option Int32 :=
  operands.foldl (pickConstant largest) none

/-- The operands of a maximum or minimum that are not constant, each once. -/
def extremumRest (operands : List SizeExpr) : List SizeExpr :=
  sortTerms (dedupTerms (operands.filter (·.asValue?.isNone)))

/-- The operands that are left of a maximum or minimum: the constant, unless it is dropped, and the
rest. -/
def extremumOperands (drops : DropTest) (largest : Bool) (operands : List SizeExpr) : List SizeExpr :=
  let rest := extremumRest operands
  let constant := (extremumConstant largest operands).filter fun c => !drops largest rest c
  (constant.map SizeExpr.value).toList ++ rest

/-- The maximum or minimum of two expressions. -/
def extremum (largest : Bool) : SizeExpr → SizeExpr → SizeExpr :=
  if largest then SizeExpr.max else SizeExpr.min

/-- The maximum or minimum of the given operands. -/
def simplifyExtremum (drops : DropTest) (largest : Bool) (operands : List SizeExpr) : SizeExpr :=
  match extremumOperands drops largest operands with
  | e :: es => es.foldl (extremum largest) e
  | [] => .value 0

/-- The broadcast of the given operands. A single fixed size other than 1 is the result. -/
def simplifyBroadcast (operands : List SizeExpr) : SizeExpr :=
  let terms := dedupTerms (operands.filter fun e => !e.alike (.value 1))
  match terms.filter (·.asValue?.isSome) with
  | [fixed] => fixed
  | _ => match sortTerms terms with
    | [] => .value 1
    | e :: es => es.foldl .broadcast e

/-! ## Quotients -/

/-- The quotient of two constants, if they are constants and it exists. -/
def constantQuotient? (a b : SizeExpr) : Option Int32 := do
  Word.floorDiv? (← a.asValue?) (← b.asValue?)

/-- Removes from both lists each factor of the first that occurs in the second. -/
def cancelFactors : List SizeExpr → List SizeExpr → List SizeExpr × List SizeExpr
  | [], ds => ([], ds)
  | e :: es, ds =>
    match ds.findIdx? (·.alike e) with
    | some j => cancelFactors es (ds.eraseIdx j)
    | none => let (es, ds) := cancelFactors es ds; (e :: es, ds)

/-- The quotient of simplified operands between which no factor is left to cancel. Dividing twice
by positive constants divides once by their product. -/
def reducedQuotient (a b : SizeExpr) : SizeExpr :=
  if b.alike (.value 1) then a
  else match constantQuotient? a b with
    | some q => .value q
    | none => match a, b with
      | .div x (.value c), .value d =>
        match if 0 < c && 0 < d then Word.mul? c d else none with
        | some m => .div x (.value m)
        | none => .div a b
      | a, b => .div a b

/-- The quotient of simplified operands; `simp` simplifies the products that are left when common
factors are cancelled. -/
def simplifyQuotient (simp : SizeExpr → SizeExpr) (a b : SizeExpr) : SizeExpr :=
  if b.alike (.value 1) then a
  else match constantQuotient? a b with
    | some q => .value q
    | none =>
      if a.asValue?.isNone && a.alike b then .value 1
      else
        let factors := Chain.mul.leaves a
        let (num, den) := cancelFactors factors (Chain.mul.leaves b)
        if num.length < factors.length then
          reducedQuotient (simp (product num)) (simp (product den))
        else reducedQuotient a b

/-! ## The whole -/

mutual

/-- Simplifies with recursion of depth at most `n`; what lies deeper is left as it is. -/
def simplifyN (drops : DropTest) : Nat → SizeExpr → SizeExpr
  | 0, e => e
  | n + 1, e => match e with
    | .value _ | .sym _ => e
    | .neg x => match simplifyN drops n x with
      | .value v => match Word.neg? v with
        | some v => .value v
        | none => .neg (.value v)
      | .neg y => y
      | y => .neg y
    | .add .. | .sub .. => simplifySum e (sumTermsN drops n false e)
    | .mul .. => simplifyProduct e (chainTermsN drops n .mul e)
    | .div a b => simplifyQuotient (simplifyN drops n) (simplifyN drops n a) (simplifyN drops n b)
    | .max .. => simplifyExtremum drops true (chainTermsN drops n .max e)
    | .min .. => simplifyExtremum drops false (chainTermsN drops n .min e)
    | .broadcast .. => simplifyBroadcast (chainTermsN drops n .broadcast e)

/-- The simplified terms of a sum. A term that simplifies to a sum is taken apart in turn. -/
def sumTermsN (drops : DropTest) : Nat → Bool → SizeExpr → List Signed
  | 0, negated, e => sumLeaves negated e
  | n + 1, negated, e => (sumLeaves negated e).flatMap fun leaf =>
    if leaf.term.asValue?.isSome then [leaf]
    else
      let s := simplifyN drops n leaf.term
      if s.isSum then sumTermsN drops n leaf.negated s else [⟨leaf.negated, s⟩]

/-- The simplified operands of a chain. -/
def chainTermsN (drops : DropTest) : Nat → Chain → SizeExpr → List SizeExpr
  | 0, c, e => c.leaves e
  | n + 1, c, e => (c.leaves e).flatMap fun leaf => c.leaves (simplifyN drops n leaf)

end

/-- An equivalent expression in canonical form, in which constants are dropped from maxima and minima
where the test says so. Each level of the tree takes at most four levels of recursion. -/
def simplifyBy (drops : DropTest) (e : SizeExpr) : SizeExpr := simplifyN drops (4 * e.nodes) e

/-- An equivalent expression in canonical form. -/
def simplify (e : SizeExpr) : SizeExpr := e.simplifyBy boundsDominate

end SizeExpr

end TensorGraph
