import TensorGraph.Formula.Reading

/-!
# The grammar of formulas

The syntax trees of the grammar, one constructor for each way to apply a rule, with the tokens that a tree spans and
the formula that it means. Main statement: `Tree.unique`, tokens that end where a rule can go no further are spanned
by one tree.
-/

namespace TensorGraph.Formula

/-! ## Syntax trees -/

/-- The rules of the grammar. Repetitions are rules of their own. -/
inductive Rule where
  | sum | sumTail | product | productTail | unary | power | primary
  /-- The arguments of a call and the parenthesis after them. -/
  | arguments
  /-- What follows an argument, up to the parenthesis. -/
  | more (keywordsOnly : Bool)

/-- The tokens of sums. -/
inductive Additive : Token → FormulaOp → Prop
  | plus : Additive .plus .add
  | minus : Additive .minus .sub

/-- The tokens of products. -/
inductive Multiplicative : Token → FormulaOp → Prop
  | times : Multiplicative .star .mul
  | over : Multiplicative .slash .div

/-- An integer with an optional minus sign. -/
structure Item where
  negative : Bool
  digits : List Char
  value : Int32
  reads : Numeral.word? digits = some value

/-- The syntax trees of a rule. -/
inductive Tree : Rule → Type where
  | sum (first : Tree .product) (tail : Tree .sumTail) : Tree .sum
  | endSum : Tree .sumTail
  | add {t : Token} {op : FormulaOp} (h : Additive t op) (x : Tree .product) (tail : Tree .sumTail) : Tree .sumTail
  | product (first : Tree .unary) (tail : Tree .productTail) : Tree .product
  | endProduct : Tree .productTail
  | multiply {t : Token} {op : FormulaOp} (h : Multiplicative t op) (x : Tree .unary) (tail : Tree .productTail) :
      Tree .productTail
  | neg (x : Tree .unary) : Tree .unary
  | unary (x : Tree .power) : Tree .unary
  | power (x : Tree .primary) : Tree .power
  | raise (base : Tree .primary) (exponent : Tree .unary) : Tree .power
  | number (chars : List Char) (x : Single) (reads : Numeral.single? chars = some x) : Tree .primary
  | name (ident : String) : Tree .primary
  | call (function : String) (arguments : Tree .arguments) : Tree .primary
  | group (x : Tree .sum) : Tree .primary
  | list (items : List Item) : Tree .primary
  | noArguments : Tree .arguments
  | positional (x : Tree .sum) (more : Tree (.more false)) : Tree .arguments
  | keyword (key : String) (x : Tree .sum) (more : Tree (.more true)) : Tree .arguments
  | endArguments {b : Bool} : Tree (.more b)
  | nextPositional (x : Tree .sum) (more : Tree (.more false)) : Tree (.more false)
  | nextKeyword {b : Bool} (key : String) (x : Tree .sum) (more : Tree (.more true)) : Tree (.more b)

/-- The tokens of an integer. -/
def Item.tokens (i : Item) : List Token := if i.negative then [.minus, .number i.digits] else [.number i.digits]

/-- The integer. -/
def Item.meaning (i : Item) : Int32 := if i.negative then -i.value else i.value

/-- The tokens of integers that each follow a comma, and the bracket after them. -/
def moreItemTokens : List Item → List Token
  | [] => [.rightBracket]
  | i :: is => .comma :: (i.tokens ++ moreItemTokens is)

/-- The tokens of integers with commas between them, and the bracket after them. -/
def itemTokens : List Item → List Token
  | [] => [.rightBracket]
  | i :: is => i.tokens ++ moreItemTokens is

/-- The tokens that a tree spans. -/
def Tree.tokens : {r : Rule} → Tree r → List Token
  | _, .sum first tail => first.tokens ++ tail.tokens
  | _, .endSum => []
  | _, @add t _ _ x tail => t :: (x.tokens ++ tail.tokens)
  | _, .product first tail => first.tokens ++ tail.tokens
  | _, .endProduct => []
  | _, @multiply t _ _ x tail => t :: (x.tokens ++ tail.tokens)
  | _, .neg x => .minus :: x.tokens
  | _, .unary x => x.tokens
  | _, .power x => x.tokens
  | _, .raise base exponent => base.tokens ++ .caret :: exponent.tokens
  | _, .number chars _ _ => [.number chars]
  | _, .name ident => [.name ident]
  | _, .call function arguments => .name function :: .leftParen :: arguments.tokens
  | _, .group x => .leftParen :: (x.tokens ++ [.rightParen])
  | _, .list items => .leftBracket :: itemTokens items
  | _, .noArguments => [.rightParen]
  | _, .positional x more => x.tokens ++ more.tokens
  | _, .keyword key x more => .name key :: .equals :: (x.tokens ++ more.tokens)
  | _, .endArguments => [.rightParen]
  | _, .nextPositional x more => .comma :: (x.tokens ++ more.tokens)
  | _, .nextKeyword key x more => .comma :: .name key :: .equals :: (x.tokens ++ more.tokens)

/-- What the trees of a rule mean. What follows the first operand of a sum or product means what it makes of it. -/
abbrev Rule.Meaning : Rule → Type
  | .sumTail | .productTail => Formula → Formula
  | .arguments | .more _ => Arguments
  | .sum | .product | .unary | .power | .primary => Formula

/-- What a tree means. Operands of sums and products are collected from the left. -/
def Tree.meaning : {r : Rule} → Tree r → r.Meaning
  | _, .sum first tail => tail.meaning first.meaning
  | _, .endSum => fun lhs => lhs
  | _, @add _ op _ x tail => fun lhs => tail.meaning (.binary op lhs x.meaning)
  | _, .product first tail => tail.meaning first.meaning
  | _, .endProduct => fun lhs => lhs
  | _, @multiply _ op _ x tail => fun lhs => tail.meaning (.binary op lhs x.meaning)
  | _, .neg x => .neg x.meaning
  | _, .unary x => x.meaning
  | _, .power x => x.meaning
  | _, .raise base exponent => .binary .pow base.meaning exponent.meaning
  | _, .number _ x _ => .number x
  | _, .name ident => .name ident
  | _, .call function arguments => .call function arguments.meaning.1 arguments.meaning.2
  | _, .group x => x.meaning
  | _, .list items => .list (items.map Item.meaning)
  | _, .noArguments => ([], [])
  | _, .positional x more => (x.meaning :: more.meaning.1, more.meaning.2)
  | _, .keyword key x more => (more.meaning.1, (key, x.meaning) :: more.meaning.2)
  | _, .endArguments => ([], [])
  | _, .nextPositional x more => (x.meaning :: more.meaning.1, more.meaning.2)
  | _, .nextKeyword key x more => (more.meaning.1, (key, x.meaning) :: more.meaning.2)

/-! ## First tokens -/

/-- Whether a primary can begin with the token. -/
def startsPrimary : Token → Bool
  | .number _ | .name _ | .leftParen | .leftBracket => true
  | _ => false

theorem Tree.first_primary (d : Tree .primary) : ∃ t ts, d.tokens = t :: ts ∧ startsPrimary t = true := by
  cases d <;> exact ⟨_, _, rfl, rfl⟩

theorem Tree.first_power (d : Tree .power) : ∃ t ts, d.tokens = t :: ts ∧ startsPrimary t = true := by
  cases d with
  | power x => exact x.first_primary
  | raise base exponent =>
    obtain ⟨t, ts, h, ht⟩ := base.first_primary
    exact ⟨t, _, by rw [tokens, h]; rfl, ht⟩

theorem Tree.first_unary (d : Tree .unary) : ∃ t ts, d.tokens = t :: ts ∧ (t = .minus ∨ startsPrimary t = true) := by
  cases d with
  | neg x => exact ⟨_, _, rfl, .inl rfl⟩
  | unary x =>
    obtain ⟨t, ts, h, ht⟩ := x.first_power
    exact ⟨t, ts, h, .inr ht⟩

theorem Tree.first_sum (d : Tree .sum) : ∃ t ts, d.tokens = t :: ts ∧ (t = .minus ∨ startsPrimary t = true) := by
  cases d with
  | sum first tail =>
    cases first with
    | product first tail' =>
      obtain ⟨t, ts, h, ht⟩ := first.first_unary
      exact ⟨t, _, by rw [tokens, tokens, h]; rfl, ht⟩

theorem Tree.ne_rightParen (d : Tree .sum) {ts us : List Token} : d.tokens ++ ts ≠ .rightParen :: us := by
  obtain ⟨t, rest, h, ht⟩ := d.first_sum
  rw [h, List.cons_append]
  intro heq
  obtain rfl := (List.cons.inj heq).1
  simp [startsPrimary] at ht

/-! ## Ends of rules -/

/-- The tokens with which a tree of a rule could go on. -/
def Rule.joins : Rule → List Token
  | .primary => [.leftParen]
  | .power | .unary => [.leftParen, .caret]
  | .product | .productTail => [.leftParen, .caret, .star, .slash]
  | .sum | .sumTail => [.leftParen, .caret, .star, .slash, .plus, .minus]
  | .arguments | .more _ => []

/-- Whether a tree of a rule cannot go on with the tokens. -/
def Rule.Ends (r : Rule) (ts : List Token) : Prop := ∀ t ∈ ts.head?, t ∉ r.joins

theorem Rule.ends_cons {r : Rule} {t : Token} {ts : List Token} : r.Ends (t :: ts) ↔ t ∉ r.joins := by
  simp [Ends]

@[simp] theorem Rule.ends_arguments {ts : List Token} : Rule.arguments.Ends ts := by simp [Ends, joins]

@[simp] theorem Rule.ends_more {b : Bool} {ts : List Token} : (Rule.more b).Ends ts := by simp [Ends, joins]

theorem Rule.Ends.mono {r s : Rule} {ts : List Token} (h : r.Ends ts) (hjoins : s.joins ⊆ r.joins) : s.Ends ts :=
  fun t ht hmem => h t ht (hjoins hmem)

variable {ts : List Token}

/-- A product ends where the rest of a sum begins. -/
theorem Tree.ends_sumTail (d : Tree .sumTail) (h : Rule.sumTail.Ends ts) : Rule.product.Ends (d.tokens ++ ts) := by
  cases d with
  | endSum => exact h.mono (by decide)
  | add h x tail => cases h <;> exact Rule.ends_cons.2 (by decide)

/-- A factor ends where the rest of a product begins. -/
theorem Tree.ends_productTail (d : Tree .productTail) (h : Rule.productTail.Ends ts) :
    Rule.unary.Ends (d.tokens ++ ts) := by
  cases d with
  | endProduct => exact h.mono (by decide)
  | multiply h x tail => cases h <;> exact Rule.ends_cons.2 (by decide)

/-- An argument ends where the other arguments begin. -/
theorem Tree.ends_more {b : Bool} (d : Tree (.more b)) : Rule.sum.Ends (d.tokens ++ ts) := by
  cases d <;> exact Rule.ends_cons.2 (by decide)

/-! ## Keywords -/

/-- Whether the tokens begin like a keyword argument. -/
def BeginsKeyword (ts : List Token) : Prop := ∃ key rest, ts = .name key :: .equals :: rest

theorem Tree.not_beginsKeyword_primary (d : Tree .primary) (h : ts.head? ≠ some .equals) :
    ¬ BeginsKeyword (d.tokens ++ ts) := by
  rintro ⟨key, rest, heq⟩
  cases d <;> simp_all [tokens]

theorem Tree.not_beginsKeyword_unary (d : Tree .unary) (h : ts.head? ≠ some .equals) :
    ¬ BeginsKeyword (d.tokens ++ ts) := by
  cases d with
  | neg x => simp [BeginsKeyword, tokens]
  | unary x =>
    cases x with
    | power x => exact x.not_beginsKeyword_primary h
    | raise base exponent =>
      rw [tokens, tokens, List.append_assoc]
      exact base.not_beginsKeyword_primary (by simp)

/-- No sum begins like a keyword argument. -/
theorem Tree.not_beginsKeyword (d : Tree .sum) (h : ts.head? ≠ some .equals) : ¬ BeginsKeyword (d.tokens ++ ts) := by
  cases d with
  | sum first tail =>
    cases first with
    | product first tail' =>
      rw [tokens, tokens, List.append_assoc, List.append_assoc]
      refine first.not_beginsKeyword_unary ?_
      have htail : (tail.tokens ++ ts).head? ≠ some .equals := by
        cases tail with
        | endSum => exact h
        | add h' x tail => cases h' <;> simp [tokens]
      cases tail' with
      | endProduct => exact htail
      | multiply h' x tail => cases h' <;> simp [tokens]

theorem Tree.not_beginsKeyword_more {b : Bool} (d : Tree .sum) (more : Tree (.more b)) :
    ¬ BeginsKeyword (d.tokens ++ (more.tokens ++ ts)) :=
  d.not_beginsKeyword (by cases more <;> simp [tokens])

/-! ## Uniqueness -/

theorem Item.tokens_inj {i j : Item} {us : List Token} (h : i.tokens ++ ts = j.tokens ++ us) : i = j ∧ ts = us := by
  obtain ⟨negative, digits, value, reads⟩ := i
  obtain ⟨negative', digits', value', reads'⟩ := j
  cases negative <;> cases negative' <;> simp [tokens] at h
  all_goals
    obtain ⟨rfl, rfl⟩ := h
    obtain rfl : value = value' := Option.some.inj (reads.symm.trans reads')
    exact ⟨rfl, rfl⟩

theorem moreItemTokens_inj {is js : List Item} {us : List Token}
    (h : moreItemTokens is ++ ts = moreItemTokens js ++ us) : is = js ∧ ts = us := by
  induction is generalizing js with
  | nil => cases js <;> simp_all [moreItemTokens]
  | cons i is ih =>
    cases js with
    | nil => simp [moreItemTokens] at h
    | cons j js =>
      simp only [moreItemTokens, List.cons_append, List.append_assoc, List.cons.injEq, true_and] at h
      obtain ⟨rfl, hrest⟩ := Item.tokens_inj h
      obtain ⟨rfl, rfl⟩ := ih hrest
      exact ⟨rfl, rfl⟩

theorem Item.first (i : Item) : ∃ t ts, i.tokens = t :: ts ∧ t ≠ .rightBracket := by
  unfold tokens
  split <;> exact ⟨_, _, rfl, by simp⟩

theorem itemTokens_inj {is js : List Item} {us : List Token} (h : itemTokens is ++ ts = itemTokens js ++ us) :
    is = js ∧ ts = us := by
  cases is with
  | nil =>
    cases js with
    | nil => simpa [itemTokens] using h
    | cons j js =>
      obtain ⟨t, rest, hj, ht⟩ := j.first
      simp [itemTokens, hj, Ne.symm ht] at h
  | cons i is =>
    cases js with
    | nil =>
      obtain ⟨t, rest, hi, ht⟩ := i.first
      simp [itemTokens, hi, ht] at h
    | cons j js =>
      simp only [itemTokens, List.append_assoc] at h
      obtain ⟨rfl, hrest⟩ := Item.tokens_inj h
      obtain ⟨rfl, rfl⟩ := moreItemTokens_inj hrest
      exact ⟨rfl, rfl⟩

theorem Additive.mem_joins {t : Token} {op : FormulaOp} (h : Additive t op) : t ∈ Rule.sumTail.joins := by
  cases h <;> simp [Rule.joins]

theorem Multiplicative.mem_joins {t : Token} {op : FormulaOp} (h : Multiplicative t op) :
    t ∈ Rule.productTail.joins := by
  cases h <;> simp [Rule.joins]

/-- Whether a tree is the only one of its rule that spans the beginning of the same tokens and ends where the rule can go
no further. -/
def Tree.Unique {r : Rule} (d : Tree r) : Prop :=
  ∀ (e : Tree r) {ts us : List Token}, d.tokens ++ ts = e.tokens ++ us → r.Ends ts → r.Ends us → d = e ∧ ts = us

/-- Two trees one after the other, if the first one ends where the second one begins. -/
theorem Tree.Unique.append {r s : Rule} {x x' : Tree r} {y y' : Tree s} (hx : x.Unique) (hy : y.Unique)
    {ts us : List Token} (h : x.tokens ++ (y.tokens ++ ts) = x'.tokens ++ (y'.tokens ++ us))
    (hends : r.Ends (y.tokens ++ ts)) (hends' : r.Ends (y'.tokens ++ us)) (hts : s.Ends ts) (hus : s.Ends us) :
    x = x' ∧ y = y' ∧ ts = us := by
  obtain ⟨rfl, hrest⟩ := hx x' h hends hends'
  obtain ⟨rfl, rfl⟩ := hy y' hrest hts hus
  exact ⟨rfl, rfl, rfl⟩

/-- An argument and those after it. -/
theorem Tree.Unique.argument {b : Bool} {x x' : Tree .sum} {more more' : Tree (.more b)} (hx : x.Unique)
    (hmore : more.Unique) {ts us : List Token}
    (h : x.tokens ++ (more.tokens ++ ts) = x'.tokens ++ (more'.tokens ++ us)) : x = x' ∧ more = more' ∧ ts = us :=
  hx.append hmore h more.ends_more more'.ends_more Rule.ends_more Rule.ends_more

/-- Two trees of a rule that span the beginning of the same tokens, and end where the rule can go no further, are one. -/
theorem Tree.unique {r : Rule} (d : Tree r) : d.Unique := by
  -- By cases on the other tree: where the constructors differ, so does a token, or one of the trees could go on.
  intro e ts us h hts hus
  induction d generalizing ts us with
  | sum first tail ihfirst ihtail =>
    cases e with
    | sum first' tail' =>
      simp only [tokens, List.append_assoc] at h
      obtain ⟨rfl, rfl, rfl⟩ :=
        Unique.append ihfirst ihtail h (tail.ends_sumTail hts) (tail'.ends_sumTail hus) hts hus
      exact ⟨rfl, rfl⟩
  | endSum =>
    cases e with
    | endSum => exact ⟨rfl, h⟩
    | add hop x tail =>
      rw [tokens, List.nil_append] at h
      exact absurd hop.mem_joins (Rule.ends_cons.1 (h ▸ hts))
  | add hop x tail ihx ihtail =>
    cases e with
    | endSum =>
      rw [tokens, List.nil_append] at h
      exact absurd hop.mem_joins (Rule.ends_cons.1 (h ▸ hus))
    | add hop' x' tail' =>
      simp only [tokens, List.cons_append, List.append_assoc, List.cons.injEq] at h
      obtain ⟨rfl, hrest⟩ := h
      obtain ⟨rfl, rfl, rfl⟩ :=
        Unique.append ihx ihtail hrest (tail.ends_sumTail hts) (tail'.ends_sumTail hus) hts hus
      cases hop <;> cases hop' <;> exact ⟨rfl, rfl⟩
  | product first tail ihfirst ihtail =>
    cases e with
    | product first' tail' =>
      simp only [tokens, List.append_assoc] at h
      obtain ⟨rfl, rfl, rfl⟩ :=
        Unique.append ihfirst ihtail h (tail.ends_productTail hts) (tail'.ends_productTail hus) hts hus
      exact ⟨rfl, rfl⟩
  | endProduct =>
    cases e with
    | endProduct => exact ⟨rfl, h⟩
    | multiply hop x tail =>
      rw [tokens, List.nil_append] at h
      exact absurd hop.mem_joins (Rule.ends_cons.1 (h ▸ hts))
  | multiply hop x tail ihx ihtail =>
    cases e with
    | endProduct =>
      rw [tokens, List.nil_append] at h
      exact absurd hop.mem_joins (Rule.ends_cons.1 (h ▸ hus))
    | multiply hop' x' tail' =>
      simp only [tokens, List.cons_append, List.append_assoc, List.cons.injEq] at h
      obtain ⟨rfl, hrest⟩ := h
      obtain ⟨rfl, rfl, rfl⟩ :=
        Unique.append ihx ihtail hrest (tail.ends_productTail hts) (tail'.ends_productTail hus) hts hus
      cases hop <;> cases hop' <;> exact ⟨rfl, rfl⟩
  | neg x ih =>
    cases e with
    | neg x' =>
      obtain ⟨rfl, rfl⟩ := ih x' (List.cons.inj h).2 hts hus
      exact ⟨rfl, rfl⟩
    | unary x' =>
      obtain ⟨t, rest, hfirst, ht⟩ := x'.first_power
      simp only [tokens, hfirst, List.cons_append, List.cons.injEq] at h
      simp [← h.1, startsPrimary] at ht
  | unary x ih =>
    cases e with
    | neg x' =>
      obtain ⟨t, rest, hfirst, ht⟩ := x.first_power
      simp only [tokens, hfirst, List.cons_append, List.cons.injEq] at h
      simp [h.1, startsPrimary] at ht
    | unary x' =>
      obtain ⟨rfl, rfl⟩ := ih x' h hts hus
      exact ⟨rfl, rfl⟩
  | power x ih =>
    cases e with
    | power x' =>
      obtain ⟨rfl, rfl⟩ := ih x' h (hts.mono (by decide)) (hus.mono (by decide))
      exact ⟨rfl, rfl⟩
    | raise base exponent =>
      simp only [tokens, List.append_assoc, List.cons_append] at h
      obtain ⟨-, rfl⟩ := ih base h (hts.mono (by decide)) (Rule.ends_cons.2 (by decide))
      exact absurd hts (by simp [Rule.ends_cons, Rule.joins])
  | raise base exponent ihbase ihexponent =>
    cases e with
    | power x' =>
      simp only [tokens, List.append_assoc, List.cons_append] at h
      obtain ⟨-, rfl⟩ := ihbase x' h (Rule.ends_cons.2 (by decide)) (hus.mono (by decide))
      exact absurd hus (by simp [Rule.ends_cons, Rule.joins])
    | raise base' exponent' =>
      simp only [tokens, List.append_assoc, List.cons_append] at h
      obtain ⟨rfl, hrest⟩ := ihbase base' h (Rule.ends_cons.2 (by decide)) (Rule.ends_cons.2 (by decide))
      obtain ⟨rfl, rfl⟩ := ihexponent exponent' (List.cons.inj hrest).2 hts hus
      exact ⟨rfl, rfl⟩
  | number chars x reads =>
    cases e with
    | number chars' x' reads' =>
      obtain ⟨rfl, rfl⟩ : chars = chars' ∧ ts = us := by simpa [tokens] using h
      obtain rfl : x = x' := Option.some.inj (reads.symm.trans reads')
      exact ⟨rfl, rfl⟩
    | _ => simp [tokens] at h
  | name ident =>
    cases e with
    | name ident' =>
      obtain ⟨rfl, rfl⟩ : ident = ident' ∧ ts = us := by simpa [tokens] using h
      exact ⟨rfl, rfl⟩
    | call function arguments =>
      obtain ⟨-, rfl⟩ : ident = function ∧ ts = _ := by simpa [tokens] using h
      exact absurd hts (by simp [Rule.ends_cons, Rule.joins])
    | _ => simp [tokens] at h
  | call function arguments ih =>
    cases e with
    | name ident =>
      obtain ⟨-, rfl⟩ : function = ident ∧ _ = us := by simpa [tokens] using h
      exact absurd hus (by simp [Rule.ends_cons, Rule.joins])
    | call function' arguments' =>
      obtain ⟨rfl, hrest⟩ : function = function' ∧ arguments.tokens ++ ts = arguments'.tokens ++ us := by
        simpa [tokens] using h
      obtain ⟨rfl, rfl⟩ := ih arguments' hrest Rule.ends_arguments Rule.ends_arguments
      exact ⟨rfl, rfl⟩
    | _ => simp [tokens] at h
  | group x ih =>
    cases e with
    | group x' =>
      simp only [tokens, List.cons_append, List.append_assoc, List.cons.injEq, true_and, List.nil_append] at h
      obtain ⟨rfl, hrest⟩ := ih x' h (Rule.ends_cons.2 (by decide)) (Rule.ends_cons.2 (by decide))
      exact ⟨rfl, (List.cons.inj hrest).2⟩
    | _ => simp [tokens] at h
  | list items =>
    cases e with
    | list items' =>
      obtain ⟨rfl, rfl⟩ := itemTokens_inj (List.cons.inj h).2
      exact ⟨rfl, rfl⟩
    | _ => simp [tokens] at h
  | noArguments =>
    cases e with
    | noArguments => exact ⟨rfl, (List.cons.inj h).2⟩
    | positional x more =>
      rw [tokens, tokens, List.append_assoc] at h
      exact absurd h.symm x.ne_rightParen
    | keyword key x more => simp [tokens] at h
  | positional x more ihx ihmore =>
    cases e with
    | noArguments =>
      rw [tokens, tokens, List.append_assoc] at h
      exact absurd h x.ne_rightParen
    | positional x' more' =>
      simp only [tokens, List.append_assoc] at h
      obtain ⟨rfl, rfl, rfl⟩ := Unique.argument ihx ihmore h
      exact ⟨rfl, rfl⟩
    | keyword key x' more' =>
      simp only [tokens, List.append_assoc] at h
      exact absurd ⟨_, _, h⟩ (x.not_beginsKeyword_more more)
  | keyword key x more ihx ihmore =>
    cases e with
    | noArguments => simp [tokens] at h
    | positional x' more' =>
      simp only [tokens, List.append_assoc] at h
      exact absurd ⟨_, _, h.symm⟩ (x'.not_beginsKeyword_more more')
    | keyword key' x' more' =>
      simp only [tokens, List.cons_append, List.append_assoc, List.cons.injEq, Token.name.injEq, true_and] at h
      obtain ⟨rfl, hrest⟩ := h
      obtain ⟨rfl, rfl, rfl⟩ := Unique.argument ihx ihmore hrest
      exact ⟨rfl, rfl⟩
  | endArguments =>
    cases e with
    | endArguments => exact ⟨rfl, (List.cons.inj h).2⟩
    | _ => simp [tokens] at h
  | nextPositional x more ihx ihmore =>
    cases e with
    | endArguments => simp [tokens] at h
    | nextPositional x' more' =>
      simp only [tokens, List.cons_append, List.append_assoc, List.cons.injEq, true_and] at h
      obtain ⟨rfl, rfl, rfl⟩ := Unique.argument ihx ihmore h
      exact ⟨rfl, rfl⟩
    | nextKeyword key x' more' =>
      simp only [tokens, List.cons_append, List.append_assoc, List.cons.injEq, true_and] at h
      exact absurd ⟨_, _, h⟩ (x.not_beginsKeyword_more more)
  | nextKeyword key x more ihx ihmore =>
    cases e with
    | endArguments => simp [tokens] at h
    | nextPositional x' more' =>
      simp only [tokens, List.cons_append, List.append_assoc, List.cons.injEq, true_and] at h
      exact absurd ⟨_, _, h.symm⟩ (x'.not_beginsKeyword_more more')
    | nextKeyword key' x' more' =>
      simp only [tokens, List.cons_append, List.append_assoc, List.cons.injEq, Token.name.injEq, true_and] at h
      obtain ⟨rfl, hrest⟩ := h
      obtain ⟨rfl, rfl, rfl⟩ := Unique.argument ihx ihmore hrest
      exact ⟨rfl, rfl⟩

end TensorGraph.Formula
