import TensorGraph.Proofs.Size.Equations

/-!
# Simplification ends

Simplification is a recursion of four functions: one simplifies an expression, one collects the terms of a sum, one the
operands of a chain, and one divides simplified expressions. Terms that simplify to sums are taken apart again and
products that are left in a quotient are simplified again, so that it does not follow the tree. It ends because no
result has more nodes than what it was computed from: the relation between calls is well founded, each expression
has a finite derivation of its simplified form, and that form has no more nodes. Main statement: `simplify_terminates`.
-/

namespace TensorGraph.SizeExpr

/-! ## Calls -/

/-- A call of one of the functions of the recursion. -/
inductive Call where
  /-- Simplifies an expression. -/
  | simplify (e : SizeExpr)
  /-- Collects the simplified terms of a sum. -/
  | terms (negated : Bool) (e : SizeExpr)
  /-- Collects the simplified operands of a chain. -/
  | operands (c : Chain) (e : SizeExpr)
  /-- Divides simplified expressions. -/
  | divide (a b : SizeExpr)

/-- The products that are left of a dividend and a divisor when common factors are cancelled, if there are any and the
quotient is not decided before. -/
def cancelled? (a b : SizeExpr) : Option (SizeExpr × SizeExpr) :=
  if b.alike (.value 1) || (constantQuotient? a b).isSome || a.asValue?.isNone && a.alike b then none
  else
    let (num, den) := cancelFactors (Chain.mul.leaves a) (Chain.mul.leaves b)
    if num.length < (Chain.mul.leaves a).length then some (product num, product den) else none

/-- Whether a call makes another. -/
inductive Call.Makes : Call → Call → Prop
  | negated (x : SizeExpr) : Makes (.simplify (.neg x)) (.simplify x)
  | sum (a b : SizeExpr) : Makes (.simplify (.add a b)) (.terms false (.add a b))
  | difference (a b : SizeExpr) : Makes (.simplify (.sub a b)) (.terms false (.sub a b))
  | chain (c : Chain) (a b : SizeExpr) : Makes (.simplify (c.apply a b)) (.operands c (c.apply a b))
  | dividend (a b : SizeExpr) : Makes (.simplify (.div a b)) (.simplify a)
  | divisor (a b : SizeExpr) : Makes (.simplify (.div a b)) (.simplify b)
  | quotient (a b : SizeExpr) : Makes (.simplify (.div a b)) (.divide a.simplify b.simplify)
  | addLeft (negated : Bool) (a b : SizeExpr) : Makes (.terms negated (.add a b)) (.terms negated a)
  | addRight (negated : Bool) (a b : SizeExpr) : Makes (.terms negated (.add a b)) (.terms negated b)
  | subLeft (negated : Bool) (a b : SizeExpr) : Makes (.terms negated (.sub a b)) (.terms negated a)
  | subRight (negated : Bool) (a b : SizeExpr) : Makes (.terms negated (.sub a b)) (.terms (!negated) b)
  | negatedTerms (negated : Bool) (x : SizeExpr) : Makes (.terms negated (.neg x)) (.terms (!negated) x)
  | term (negated : Bool) {e : SizeExpr} (he : e.isSum = false) : Makes (.terms negated e) (.simplify e)
  /-- A term that simplifies to a sum is taken apart. -/
  | again (negated : Bool) {e : SizeExpr} (he : e.isSum = false) (hs : e.simplify.isSum = true) :
      Makes (.terms negated e) (.terms negated e.simplify)
  | left (c : Chain) (a b : SizeExpr) : Makes (.operands c (c.apply a b)) (.operands c a)
  | right (c : Chain) (a b : SizeExpr) : Makes (.operands c (c.apply a b)) (.operands c b)
  | operand {c : Chain} {e : SizeExpr} (he : c.operands? e = none) : Makes (.operands c e) (.simplify e)
  | numerator {a b num den : SizeExpr} (h : cancelled? a b = some (num, den)) : Makes (.divide a b) (.simplify num)
  | denominator {a b num den : SizeExpr} (h : cancelled? a b = some (num, den)) : Makes (.divide a b) (.simplify den)

/-! ## Derivations -/

/-- What a call returns: terms, operands, or an expression. -/
abbrev Call.Result : Call → Type
  | .simplify _ | .divide _ _ => SizeExpr
  | .terms _ _ => List Signed
  | .operands _ _ => List SizeExpr

/-- Whether there is a finite derivation of the result of a call, in which each call that it makes is derived first. -/
inductive Call.Yields : (k : Call) → k.Result → Prop
  | value (v : Int32) : Yields (.simplify (.value v)) (.value v)
  | sym (s : Symbol) : Yields (.simplify (.sym s)) (.sym s)
  | neg {x s : SizeExpr} (h : Yields (.simplify x) s) : Yields (.simplify (.neg x)) s.negate
  | add {a b : SizeExpr} {ts : List Signed} (h : Yields (.terms false (.add a b)) ts) :
      Yields (.simplify (.add a b)) (simplifySum (.add a b) ts)
  | sub {a b : SizeExpr} {ts : List Signed} (h : Yields (.terms false (.sub a b)) ts) :
      Yields (.simplify (.sub a b)) (simplifySum (.sub a b) ts)
  | mul {a b : SizeExpr} {es : List SizeExpr} (h : Yields (.operands .mul (.mul a b)) es) :
      Yields (.simplify (.mul a b)) (simplifyProduct (.mul a b) es)
  | max {a b : SizeExpr} {es : List SizeExpr} (h : Yields (.operands .max (.max a b)) es) :
      Yields (.simplify (.max a b)) (simplifyExtremum boundsDominate true es)
  | min {a b : SizeExpr} {es : List SizeExpr} (h : Yields (.operands .min (.min a b)) es) :
      Yields (.simplify (.min a b)) (simplifyExtremum boundsDominate false es)
  | broadcast {a b : SizeExpr} {es : List SizeExpr} (h : Yields (.operands .broadcast (.broadcast a b)) es) :
      Yields (.simplify (.broadcast a b)) (simplifyBroadcast es)
  | div {a b s t q : SizeExpr} (ha : Yields (.simplify a) s) (hb : Yields (.simplify b) t)
      (h : Yields (.divide s t) q) : Yields (.simplify (.div a b)) q
  | constantTerm (negated : Bool) (v : Int32) : Yields (.terms negated (.value v)) [⟨negated, .value v⟩]
  | addTerms {negated : Bool} {a b : SizeExpr} {ts us : List Signed} (ha : Yields (.terms negated a) ts)
      (hb : Yields (.terms negated b) us) : Yields (.terms negated (.add a b)) (ts ++ us)
  | subTerms {negated : Bool} {a b : SizeExpr} {ts us : List Signed} (ha : Yields (.terms negated a) ts)
      (hb : Yields (.terms (!negated) b) us) : Yields (.terms negated (.sub a b)) (ts ++ us)
  | negTerms {negated : Bool} {x : SizeExpr} {ts : List Signed} (h : Yields (.terms (!negated) x) ts) :
      Yields (.terms negated (.neg x)) ts
  | term {negated : Bool} {e s : SizeExpr} (he : e.isSum = false) (h : Yields (.simplify e) s) (hs : s.isSum = false) :
      Yields (.terms negated e) [⟨negated, s⟩]
  | again {negated : Bool} {e s : SizeExpr} {ts : List Signed} (he : e.isSum = false) (h : Yields (.simplify e) s)
      (hs : s.isSum = true) (hts : Yields (.terms negated s) ts) : Yields (.terms negated e) ts
  | node {c : Chain} {a b : SizeExpr} {es fs : List SizeExpr} (ha : Yields (.operands c a) es)
      (hb : Yields (.operands c b) fs) : Yields (.operands c (c.apply a b)) (es ++ fs)
  | operand {c : Chain} {e s : SizeExpr} (he : c.operands? e = none) (h : Yields (.simplify e) s) :
      Yields (.operands c e) (c.leaves s)
  | whole {a b : SizeExpr} (h : cancelled? a b = none) : Yields (.divide a b) (simplifyQuotient id a b)
  | cancelled {a b num den s t : SizeExpr} (h : cancelled? a b = some (num, den)) (hnum : Yields (.simplify num) s)
      (hden : Yields (.simplify den) t) : Yields (.divide a b) (reducedQuotient s t)

variable {a b e s x num den : SizeExpr} {c : Chain} {negated : Bool}

/-! ## Quotients -/

/-- A division goes on with the products that are left when factors are cancelled, if it goes on. -/
theorem simplifyQuotient_eq (f : SizeExpr → SizeExpr) (a b : SizeExpr) : simplifyQuotient f a b =
    match cancelled? a b with
    | some (num, den) => reducedQuotient (f num) (f den)
    | none => simplifyQuotient id a b := by
  unfold simplifyQuotient cancelled?
  cases hone : b.alike (.value 1) with
  | true => rfl
  | false =>
    cases hconstant : constantQuotient? a b with
    | some q => rfl
    | none =>
      cases hsame : a.asValue?.isNone && a.alike b with
      | true => rfl
      | false =>
        simp only [Bool.false_eq_true, if_false, Bool.or_false, Option.isSome_none]
        split <;> rfl

theorem nodes_of_cancelled? (h : cancelled? a b = some (num, den)) : num.nodes ≤ a.nodes ∧ den.nodes ≤ b.nodes := by
  obtain ⟨-, hsuba, hsubb⟩ := cancelFactors_spec (fun _ => none) (Chain.mul.leaves a) (Chain.mul.leaves b)
  unfold cancelled? at h
  split at h
  · cases h
  · dsimp only at h
    split at h
    · cases h
      exact ⟨nodes_product_leaves hsuba, nodes_product_leaves hsubb⟩
    · cases h

/-! ## The recursion is well founded -/

theorem nodes_simplify_le (e : SizeExpr) : e.simplify.nodes ≤ e.nodes := nodes_simplifyBy boundsDominate e

namespace Call

/-- A measure of calls. Of the calls about one expression, collecting at its root comes below simplifying it, and
simplifying it below collecting it as one term or operand of something larger. -/
def rank : Call → Nat
  | .simplify e => 3 * e.nodes + 1
  | .terms _ e => 3 * e.nodes + if e.isSum then 0 else 2
  | .operands c e => 3 * e.nodes + if (c.operands? e).isSome then 0 else 2
  | .divide a b => 3 * (a.nodes + b.nodes + 1)

theorem rank_simplify (e : SizeExpr) : (simplify e).rank = 3 * e.nodes + 1 := rfl

theorem rank_divide (a b : SizeExpr) : (divide a b).rank = 3 * (a.nodes + b.nodes + 1) := rfl

theorem rank_terms_of_isSum (negated : Bool) (he : e.isSum = true) : (terms negated e).rank = 3 * e.nodes := by
  rw [rank, if_pos he, Nat.add_zero]

theorem rank_terms_of_not_isSum (negated : Bool) (he : e.isSum = false) : (terms negated e).rank = 3 * e.nodes + 2 := by
  rw [rank, he]
  rfl

theorem rank_operands_apply (c : Chain) (a b : SizeExpr) :
    (operands c (c.apply a b)).rank = 3 * (a.nodes + b.nodes + 1) := by
  rw [rank, if_pos (by cases c <;> rfl), Nat.add_zero, Chain.nodes_apply]

theorem rank_simplify_lt (h : x.nodes < e.nodes) : (simplify x).rank < (simplify e).rank := by
  rw [rank_simplify, rank_simplify]
  omega

theorem rank_terms_lt {negated' : Bool} (he : e.isSum = true) (h : x.nodes < e.nodes) :
    (terms negated' x).rank < (terms negated e).rank := by
  have hle : (terms negated' x).rank ≤ 3 * x.nodes + 2 := Nat.add_le_add_left (by split <;> omega) _
  rw [rank_terms_of_isSum negated he]
  omega

theorem rank_operands_lt (h : x.nodes < a.nodes + b.nodes + 1) :
    (operands c x).rank < (operands c (c.apply a b)).rank := by
  have hle : (operands c x).rank ≤ 3 * x.nodes + 2 := Nat.add_le_add_left (by split <;> omega) _
  rw [rank_operands_apply]
  omega

theorem Makes.rank_lt {k k' : Call} (h : k.Makes k') : k'.rank < k.rank := by
  cases h with
  | negated x => exact rank_simplify_lt (by simp only [nodes]; omega)
  | sum a b | difference a b =>
    rw [rank_terms_of_isSum false rfl, rank_simplify]
    omega
  | chain c a b =>
    -- A chain is taken apart at its root, so that its rank as operands has no summand for a leaf.
    rw [rank_operands_apply, rank_simplify, Chain.nodes_apply]
    omega
  | dividend a b | divisor a b => exact rank_simplify_lt (by simp only [nodes]; omega)
  | quotient a b =>
    have ha := nodes_simplify_le a
    have hb := nodes_simplify_le b
    simp only [rank_simplify, rank_divide, nodes]
    omega
  | addLeft negated a b | addRight negated a b | subLeft negated a b | subRight negated a b | negatedTerms negated x =>
    exact rank_terms_lt rfl (by simp only [nodes]; omega)
  | term negated he =>
    rw [rank_terms_of_not_isSum negated he, rank_simplify]
    omega
  | @again negated e he hs =>
    -- Here the recursion goes on with a result, which has to have no more nodes.
    have := nodes_simplify_le e
    rw [rank_terms_of_isSum negated hs, rank_terms_of_not_isSum negated he]
    omega
  | left c a b | right c a b => exact rank_operands_lt (by omega)
  | operand he => simp [rank, he]
  | numerator h =>
    have := (nodes_of_cancelled? h).1
    rw [rank_simplify, rank_divide]
    omega
  | denominator h =>
    have := (nodes_of_cancelled? h).2
    rw [rank_simplify, rank_divide]
    omega

/-- No sequence of calls, each made by the one before, goes on forever. -/
theorem wellFounded_makes : WellFounded fun k' k : Call => k.Makes k' :=
  Subrelation.wf (fun h => h.rank_lt) (measure rank).wf

/-! ## Results of calls -/

/-- What the functions of the recursion return. -/
def result : (k : Call) → k.Result
  | .simplify e => e.simplify
  | .terms negated e => (sumLeaves negated e).flatMap (openTerm boundsDominate)
  | .operands c e => chainTerms boundsDominate c e
  | .divide a b => simplifyQuotient SizeExpr.simplify a b

theorem result_terms_of_isSum (negated : Bool) (he : e.isSum = true) :
    (terms negated e).result = sumTerms boundsDominate negated e := (sumTerms_eq negated he).symm

/-- A term that is no sum before it is simplified. -/
theorem result_terms_of_not_isSum (negated : Bool) (he : e.isSum = false) : (terms negated e).result =
    if e.simplify.isSum then (terms negated e.simplify).result else [⟨negated, e.simplify⟩] := by
  have hleaf : sumLeaves negated e = [⟨negated, e⟩] := by cases e <;> first | rfl | cases he
  have hvalue : ¬ e.asValue?.isSome = true := by cases e <;> first | exact Bool.false_ne_true | cases he
  have hopen : openTerm boundsDominate ⟨negated, e⟩ = if e.simplify.isSum then
      sumTerms boundsDominate negated e.simplify else [⟨negated, e.simplify⟩] := if_neg hvalue
  rw [result, hleaf, List.flatMap_singleton, hopen]
  split
  · next hs => rw [result_terms_of_isSum negated hs]
  · rfl

theorem result_operands_apply (c : Chain) (a b : SizeExpr) :
    (operands c (c.apply a b)).result = (operands c a).result ++ (operands c b).result := by
  simp only [result, chainTerms, Chain.leaves_apply, List.flatMap_append]

theorem result_operands_of_none (he : c.operands? e = none) : (operands c e).result = c.leaves e.simplify := by
  have hleaf : c.leaves e = [e] := by
    rcases c.apply_or_leaf e with ⟨a, b, rfl⟩ | hleaf
    · cases c <;> cases he
    · exact hleaf
  rw [result, chainTerms, hleaf, List.flatMap_singleton]
  rfl

theorem eq_apply_of_operands? (h : c.operands? e = some (a, b)) : e = c.apply a b := by
  cases c <;> cases e <;> simp_all [Chain.operands?, Chain.apply]

/-- A derivation gives what the function returns. -/
theorem Yields.eq {k : Call} {r : k.Result} (h : k.Yields r) : r = k.result := by
  -- On the derivation: the calls that were made have returned their results.
  induction h with
  | value v => rfl
  | sym s => rfl
  | neg h ih => exact ih ▸ simplifyBy_neg.symm
  | add h ih =>
    rw [ih, result_terms_of_isSum false rfl]
    exact simplifyBy_add.symm
  | sub h ih =>
    rw [ih, result_terms_of_isSum false rfl]
    exact simplifyBy_sub.symm
  | mul h ih => exact ih ▸ simplifyBy_mul.symm
  | max h ih => exact ih ▸ (simplifyBy_extremum true).symm
  | min h ih => exact ih ▸ (simplifyBy_extremum false).symm
  | broadcast h ih => exact ih ▸ simplifyBy_broadcast.symm
  | div ha hb h iha ihb ih =>
    subst iha ihb
    exact ih.trans simplifyBy_div.symm
  | constantTerm negated v => rfl
  | addTerms ha hb iha ihb => rw [iha, ihb, result, result, result, sumLeaves, List.flatMap_append]
  | subTerms ha hb iha ihb => rw [iha, ihb, result, result, result, sumLeaves, List.flatMap_append]
  | negTerms h ih => rw [ih, result, result, sumLeaves]
  | @term negated e s he h hs ih =>
    subst ih
    have hs : e.simplify.isSum = false := hs
    rw [result_terms_of_not_isSum _ he, if_neg (Bool.eq_false_iff.1 hs)]
    rfl
  | @again negated e s ts he h hs hts ih ihts =>
    subst ih
    have hs : e.simplify.isSum = true := hs
    rw [result_terms_of_not_isSum _ he, if_pos hs]
    exact ihts
  | node ha hb iha ihb => rw [iha, ihb, result_operands_apply]
  | operand he h ih =>
    rw [ih, result_operands_of_none he]
    rfl
  | @whole a b h => rw [result, simplifyQuotient_eq SizeExpr.simplify, h]
  | cancelled h hnum hden ihnum ihden =>
    rw [result, simplifyQuotient_eq, h, ihnum, ihden]
    rfl

/-! ## Derivations of results -/

theorem yields_simplify (h : ∀ k, (simplify e).Makes k → k.Yields k.result) : (simplify e).Yields e.simplify := by
  cases e with
  | value v => exact .value v
  | sym s => exact .sym s
  | neg x => exact Eq.subst simplifyBy_neg.symm (Yields.neg (h _ (.negated x)))
  | add a b =>
    have hterms := h _ (.sum a b)
    rw [result_terms_of_isSum false rfl] at hterms
    exact Eq.subst simplifyBy_add.symm (Yields.add hterms)
  | sub a b =>
    have hterms := h _ (.difference a b)
    rw [result_terms_of_isSum false rfl] at hterms
    exact Eq.subst simplifyBy_sub.symm (Yields.sub hterms)
  | mul a b => exact Eq.subst simplifyBy_mul.symm (Yields.mul (h _ (.chain .mul a b)))
  | max a b => exact Eq.subst (simplifyBy_extremum true).symm (Yields.max (h _ (.chain .max a b)))
  | min a b => exact Eq.subst (simplifyBy_extremum false).symm (Yields.min (h _ (.chain .min a b)))
  | broadcast a b => exact Eq.subst simplifyBy_broadcast.symm (Yields.broadcast (h _ (.chain .broadcast a b)))
  | div a b =>
    exact Eq.subst simplifyBy_div.symm (Yields.div (h _ (.dividend a b)) (h _ (.divisor a b)) (h _ (.quotient a b)))

theorem yields_terms (h : ∀ k, (terms negated e).Makes k → k.Yields k.result) :
    (terms negated e).Yields (terms negated e).result := by
  cases he : e.isSum with
  | false =>
    have hs := h _ (.term negated he)
    rw [result_terms_of_not_isSum negated he]
    split
    · next hagain => exact .again he hs hagain (h _ (.again negated he hagain))
    · next hatom => exact .term he hs (Bool.eq_false_iff.2 hatom)
  | true =>
    cases e with
    | value v => exact .constantTerm negated v
    | add a b =>
      rw [result, sumLeaves, List.flatMap_append]
      exact .addTerms (h _ (.addLeft negated a b)) (h _ (.addRight negated a b))
    | sub a b =>
      rw [result, sumLeaves, List.flatMap_append]
      exact .subTerms (h _ (.subLeft negated a b)) (h _ (.subRight negated a b))
    | neg x => exact .negTerms (h _ (.negatedTerms negated x))
    | _ => cases he

theorem yields_operands (h : ∀ k, (operands c e).Makes k → k.Yields k.result) :
    (operands c e).Yields (operands c e).result := by
  cases he : c.operands? e with
  | some ab =>
    obtain ⟨a, b⟩ := ab
    obtain rfl := eq_apply_of_operands? he
    rw [result_operands_apply]
    exact .node (h _ (.left c a b)) (h _ (.right c a b))
  | none =>
    rw [result_operands_of_none he]
    exact .operand he (h _ (.operand he))

theorem yields_divide (h : ∀ k, (divide a b).Makes k → k.Yields k.result) :
    (divide a b).Yields (divide a b).result := by
  rw [result, simplifyQuotient_eq]
  split
  · next num den hcancelled => exact .cancelled hcancelled (h _ (.numerator hcancelled)) (h _ (.denominator hcancelled))
  · next hwhole => exact .whole hwhole

/-- Every call returns, since there is no infinite sequence of calls. -/
theorem yields_result (k : Call) : k.Yields k.result := by
  induction k using wellFounded_makes.induction with
  | h k ih =>
    cases k with
    | simplify e => exact yields_simplify ih
    | terms negated e => exact yields_terms ih
    | operands c e => exact yields_operands ih
    | divide a b => exact yields_divide ih

theorem yields_iff {k : Call} {r : k.Result} : k.Yields r ↔ r = k.result :=
  ⟨Yields.eq, fun h => h ▸ k.yields_result⟩

end Call

/-- The recursion is well founded, so that each expression has a simplified form that is derived from it in finitely
many steps, which is the one that simplification returns. It has at most as many nodes as the expression. -/
theorem simplify_terminates : WellFounded (fun k' k : Call => k.Makes k') ∧
    (∀ e s : SizeExpr, (Call.simplify e).Yields s ↔ s = e.simplify) ∧
    ∀ e : SizeExpr, e.simplify.nodes ≤ e.nodes :=
  ⟨Call.wellFounded_makes, fun _ _ => Call.yields_iff, nodes_simplify_le⟩

end TensorGraph.SizeExpr
