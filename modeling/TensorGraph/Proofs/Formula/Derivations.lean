import TensorGraph.Proofs.Formula.Grammar
import TensorGraph.Proofs.Formula.Lexemes

/-!
# Reading and the grammar

Each function that reads a rule of the grammar is inverted once, in the lemma `gives_…`. From these, what is read has
a syntax tree (`sum_of_gives`), and a syntax tree whose rule can go no further is read (`Tree.reads`). Main statement:
`reads_iff_derivation`, a text has at most one derivation, it is read exactly when it has one and as the formula that
the derivation means, and it is rejected exactly when it has none.
-/

namespace TensorGraph.Formula

/-! ## What is read -/

section Gives

variable {α β : Type} {m n : Nat} {a : α} {b : β} {rest : Rest}

/-- The reading succeeds with the value and the tokens after it. -/
def Gives (x : Reading α n) (a : α) (rest : Rest) : Prop := ∃ h, x = .ok ⟨a, rest, h⟩

theorem Gives.fewer {x : Reading α n} (h : Gives x a rest) : rest.length < n := h.1

theorem gives_ok {r : Read α n} : Gives (.ok r) a rest ↔ r.value = a ∧ r.rest = rest := by
  constructor
  · rintro ⟨h, heq⟩
    cases heq
    exact ⟨rfl, rfl⟩
  · rintro ⟨rfl, rfl⟩
    exact ⟨r.fewer, rfl⟩

theorem gives_pure {r : Read α n} : Gives (pure r) a rest ↔ r.value = a ∧ r.rest = rest := gives_ok

theorem not_gives_error {e : FormulaError} : ¬ Gives (.error e : Reading α n) a rest := nofun

theorem gives_bind {x : Reading α n} {f : Read α n → Reading β m} :
    Gives (x >>= f) b rest ↔ ∃ a mid, ∃ h : Gives x a mid, Gives (f ⟨a, mid, h.fewer⟩) b rest := by
  constructor
  · rintro ⟨h, heq⟩
    obtain ⟨⟨a, mid, hmid⟩, hx, hf⟩ := bind_eq_ok.1 heq
    exact ⟨a, mid, ⟨hmid, hx⟩, h, hf⟩
  · rintro ⟨a, mid, ⟨hmid, hx⟩, h, hf⟩
    exact ⟨h, bind_eq_ok.2 ⟨_, hx, hf⟩⟩

theorem not_gives_unexpected {endOffset : Nat} {expected : String} {ts : Rest} :
    ¬ Gives (unexpected endOffset expected ts : Reading α n) a rest := by
  cases ts <;> exact nofun

end Gives

/-! ## Spanned tokens -/

/-- The tokens in front of `rest` are `us`. -/
def Spans (us : List Token) (ts rest : Rest) : Prop := ∃ front, tokensOf front = us ∧ ts = front ++ rest

theorem spans_nil {ts rest : Rest} : Spans [] ts rest ↔ ts = rest := by
  simp [Spans, tokensOf]

theorem spans_cons {t : Token} {us : List Token} {ts rest : Rest} :
    Spans (t :: us) ts rest ↔ ∃ o ts', ts = ⟨o, t⟩ :: ts' ∧ Spans us ts' rest := by
  constructor
  · rintro ⟨front, hfront, rfl⟩
    obtain ⟨⟨o, t⟩, front, rfl, rfl, rfl⟩ := List.map_eq_cons_iff.1 hfront
    exact ⟨o, _, rfl, front, rfl, rfl⟩
  · rintro ⟨o, _, rfl, front, rfl, rfl⟩
    exact ⟨⟨o, t⟩ :: front, rfl, rfl⟩

theorem spans_cons_cons {o : Nat} {t u : Token} {us : List Token} {ts rest : Rest} :
    Spans (t :: us) (⟨o, u⟩ :: ts) rest ↔ u = t ∧ Spans us ts rest := by
  rw [spans_cons]
  simp

theorem spans_append {us vs : List Token} {ts rest : Rest} :
    Spans (us ++ vs) ts rest ↔ ∃ mid, Spans us ts mid ∧ Spans vs mid rest := by
  constructor
  · rintro ⟨front, hfront, rfl⟩
    obtain ⟨front, front', rfl, rfl, rfl⟩ := List.map_eq_append_iff.1 hfront
    exact ⟨front' ++ rest, ⟨front, rfl, List.append_assoc ..⟩, front', rfl, rfl⟩
  · rintro ⟨mid, ⟨front, rfl, rfl⟩, front', rfl, rfl⟩
    exact ⟨front ++ front', List.map_append, (List.append_assoc ..).symm⟩

/-- Tokens in front of others are spanned. -/
theorem exists_spans {us vs : List Token} {ts : Rest} (h : tokensOf ts = us ++ vs) :
    ∃ rest, Spans us ts rest ∧ tokensOf rest = vs := by
  obtain ⟨front, rest, rfl, rfl, rfl⟩ := List.map_eq_append_iff.1 h
  exact ⟨rest, ⟨front, rfl, rfl⟩, rfl⟩

theorem Spans.tokensOf_eq {us : List Token} {ts rest : Rest} (h : Spans us ts rest) :
    tokensOf ts = us ++ tokensOf rest := by
  obtain ⟨front, rfl, rfl⟩ := h
  exact List.map_append

theorem spans_first {t : Token} {us : List Token} {ts rest : Rest} :
    Spans (t :: us) ts rest ↔ ∃ mid, Spans [t] ts mid ∧ Spans us mid rest :=
  @spans_append [t] us ts rest

theorem spans_singleton {t : Token} {ts rest : Rest} : Spans [t] ts rest ↔ ∃ o, ts = ⟨o, t⟩ :: rest := by
  simp [spans_cons, spans_nil]

theorem Spans.fewer {t : Token} {us : List Token} {ts rest : Rest} (h : Spans (t :: us) ts rest) :
    rest.length < ts.length := by
  obtain ⟨o, _, rfl, front, -, rfl⟩ := spans_cons.1 h
  rw [List.length_cons, List.length_append]
  omega

@[simp] theorem head?_tokensOf_cons {o : Nat} {t : Token} {ts : Rest} : (tokensOf (⟨o, t⟩ :: ts)).head? = some t := rfl

theorem head?_tokensOf_ne {t : Token} {ts : Rest} (h : ∀ o ts', ts = ⟨o, t⟩ :: ts' → False) :
    (tokensOf ts).head? ≠ some t := by
  cases ts with
  | nil => exact nofun
  | cons t' ts =>
    intro heq
    exact h t'.offset ts (by rw [← Option.some.inj heq])

theorem not_spans {t : Token} {us : List Token} {ts rest : Rest} (h : (tokensOf ts).head? ≠ some t) :
    ¬ Spans (t :: us) ts rest := by
  rw [spans_cons]
  rintro ⟨o, ts', rfl, -⟩
  exact h rfl

/-! ## Single tokens and lists -/

variable {endOffset : Nat} {ts rest : Rest}

theorem gives_expect {t : Token} {expected : String} {u : Unit} :
    Gives (expect endOffset t expected ts) u rest ↔ Spans [t] ts rest := by
  cases ts with
  | nil => simp [expect, not_gives_unexpected, spans_singleton]
  | cons t' ts =>
    obtain ⟨o, t'⟩ := t'
    by_cases h : t' = t
    · simp [expect, h, gives_ok, spans_singleton]
    · simp [expect, h, not_gives_unexpected, spans_singleton]

theorem gives_readDigits {start : Nat} {negative : Bool} {n : Int32} :
    Gives (readDigits endOffset start negative ts) n rest ↔
      ∃ digits value, Numeral.word? digits = some value ∧ (if negative then -value else value) = n ∧
        Spans [.number digits] ts rest := by
  simp only [spans_singleton]
  unfold readDigits
  split
  · rename_i o chars ts'
    cases h : Numeral.word? chars with
    | none => simp_all [not_gives_error]
    | some value => simp [gives_ok, h]
  · simp [not_gives_error]
  · rename_i t ts' hnumber
    simp only [not_gives_error, false_iff, not_exists, not_and]
    rintro digits value - - o heq
    cases heq
    exact hnumber _ _ rfl

/-- An integer is read exactly when the tokens begin with one. -/
theorem gives_readInteger {n : Int32} :
    Gives (readInteger endOffset ts) n rest ↔ ∃ i : Item, i.meaning = n ∧ Spans i.tokens ts rest := by
  unfold readInteger
  split
  · rename_i start ts'
    simp only [gives_bind, gives_pure, exists_prop, exists_eq_right_right, exists_eq_right, gives_readDigits]
    constructor
    · rintro ⟨digits, value, hvalue, rfl, hspans⟩
      exact ⟨⟨true, digits, value, hvalue⟩, rfl, spans_cons.2 ⟨_, _, rfl, hspans⟩⟩
    · rintro ⟨⟨negative, digits, value, hvalue⟩, rfl, hspans⟩
      cases negative with
      | false => simp [Item.tokens, spans_singleton] at hspans
      | true =>
        obtain ⟨o, ts, heq, hspans⟩ := spans_cons.1 hspans
        cases heq
        exact ⟨digits, value, hvalue, rfl, hspans⟩
  · rename_i hminus
    rw [gives_readDigits]
    constructor
    · rintro ⟨digits, value, hvalue, rfl, hspans⟩
      exact ⟨⟨false, digits, value, hvalue⟩, rfl, hspans⟩
    · rintro ⟨⟨negative, digits, value, hvalue⟩, rfl, hspans⟩
      cases negative with
      | false => exact ⟨digits, value, hvalue, rfl, hspans⟩
      | true =>
        obtain ⟨o, ts, rfl, -⟩ := spans_cons.1 hspans
        exact absurd rfl (hminus _ _)

theorem gives_readItems {ns : List Int32} :
    Gives (readItems endOffset ts) ns rest ↔ ∃ n mid, Gives (readInteger endOffset ts) n mid ∧
      ((∃ mid' ns', Spans [.comma] mid mid' ∧ Gives (readItems endOffset mid') ns' rest ∧ n :: ns' = ns) ∨
        (Spans [.rightBracket] mid rest ∧ [n] = ns)) := by
  rw [readItems.eq_def, gives_bind]
  refine exists_congr fun n => exists_congr fun mid => ?_
  rw [← exists_prop]
  refine exists_congr fun h => ?_
  dsimp only
  split
  · simp only [gives_bind, gives_pure, exists_prop, exists_eq_right_right, spans_singleton]
    simp
  · rename_i hcomma
    have hhead : (tokensOf mid).head? ≠ some .comma :=
      head?_tokensOf_ne fun o ts' heq => by subst heq; exact hcomma _ _ _ rfl HEq.rfl
    simp only [gives_bind, gives_pure, exists_prop, gives_expect]
    simp [not_spans hhead]

theorem items_of_gives {ns : List Int32} {ts : Rest} (h : Gives (readItems endOffset ts) ns rest) :
    ∃ i items, (i :: items).map Item.meaning = ns ∧ Spans (itemTokens (i :: items)) ts rest := by
  obtain ⟨n, mid, hn, hmore⟩ := gives_readItems.1 h
  obtain ⟨i, rfl, hi⟩ := gives_readInteger.1 hn
  obtain ⟨mid', ns', hcomma, hns, rfl⟩ | ⟨hbracket, rfl⟩ := hmore
  · have := hn.fewer
    have := hcomma.fewer
    obtain ⟨j, items, rfl, hitems⟩ := items_of_gives hns
    exact ⟨i, j :: items, rfl, spans_append.2 ⟨mid, hi, spans_append.2 ⟨mid', hcomma, hitems⟩⟩⟩
  · exact ⟨i, [], rfl, spans_append.2 ⟨mid, hi, hbracket⟩⟩
termination_by ts.length

theorem gives_items {i : Item} {items : List Item} (h : Spans (itemTokens (i :: items)) ts rest) :
    Gives (readItems endOffset ts) ((i :: items).map Item.meaning) rest := by
  induction items generalizing i ts with
  | nil =>
    obtain ⟨mid, hi, hbracket⟩ := spans_append.1 h
    exact gives_readItems.2 ⟨_, mid, gives_readInteger.2 ⟨i, rfl, hi⟩, .inr ⟨hbracket, rfl⟩⟩
  | cons j items ih =>
    obtain ⟨mid, hi, hmore⟩ := spans_append.1 h
    obtain ⟨mid', hcomma, hitems⟩ := spans_first.1 hmore
    exact gives_readItems.2 ⟨_, mid, gives_readInteger.2 ⟨i, rfl, hi⟩, .inl ⟨mid', _, hcomma, ih hitems, rfl⟩⟩

/-! ## Sums and products -/

theorem sumOp?_eq_some {t : Token} {op : FormulaOp} : sumOp? t = some op ↔ Additive t op := by
  constructor
  · intro h
    unfold sumOp? at h
    split at h <;> cases h <;> constructor
  · rintro (_ | _) <;> rfl

theorem productOp?_eq_some {t : Token} {op : FormulaOp} : productOp? t = some op ↔ Multiplicative t op := by
  constructor
  · intro h
    unfold productOp? at h
    split at h <;> cases h <;> constructor
  · rintro (_ | _) <;> rfl

variable {f lhs : Formula} {args : Arguments}

theorem gives_readSum :
    Gives (readSum endOffset ts) f rest ↔
      ∃ lhs mid, Gives (readProduct endOffset ts) lhs mid ∧ Gives (readSumTail endOffset lhs mid) f rest := by
  rw [readSum.eq_def]
  simp only [gives_bind, gives_pure, exists_prop, exists_eq_right_right, exists_eq_right]

theorem gives_readSumTail :
    Gives (readSumTail endOffset lhs ts) f rest ↔
      (∃ t op ts' rhs mid, Additive t op ∧ Spans [t] ts ts' ∧ Gives (readProduct endOffset ts') rhs mid ∧
        Gives (readSumTail endOffset (.binary op lhs rhs) mid) f rest) ∨
      ((∀ t op, (tokensOf ts).head? = some t → ¬ Additive t op) ∧ lhs = f ∧ ts = rest) := by
  rw [readSumTail.eq_def]
  simp only [← sumOp?_eq_some]
  split
  · simp [gives_ok, tokensOf, spans_singleton]
  · rename_i t ts'
    obtain ⟨o, t⟩ := t
    cases h : sumOp? t with
    | some op =>
      simp only [gives_bind, gives_pure, exists_prop, exists_eq_right_right, exists_eq_right, spans_singleton,
        head?_tokensOf_cons]
      simp [h]
    | none =>
      simp only [gives_ok, spans_singleton, head?_tokensOf_cons]
      grind

theorem gives_readProduct :
    Gives (readProduct endOffset ts) f rest ↔
      ∃ lhs mid, Gives (readUnary endOffset ts) lhs mid ∧ Gives (readProductTail endOffset lhs mid) f rest := by
  rw [readProduct.eq_def]
  simp only [gives_bind, gives_pure, exists_prop, exists_eq_right_right, exists_eq_right]

theorem gives_readUnary :
    Gives (readUnary endOffset ts) f rest ↔
      (∃ ts' x, Spans [.minus] ts ts' ∧ Gives (readUnary endOffset ts') x rest ∧ .neg x = f) ∨
      ((tokensOf ts).head? ≠ some .minus ∧ Gives (readPower endOffset ts) f rest) := by
  rw [readUnary.eq_def]
  split
  · simp only [gives_bind, gives_pure, exists_prop, exists_eq_right_right, spans_singleton]
    simp
  · rename_i hminus
    have hhead := head?_tokensOf_ne hminus
    simp [hhead, not_spans hhead]

theorem gives_readProductTail :
    Gives (readProductTail endOffset lhs ts) f rest ↔
      (∃ t op ts' rhs mid, Multiplicative t op ∧ Spans [t] ts ts' ∧ Gives (readUnary endOffset ts') rhs mid ∧
        Gives (readProductTail endOffset (.binary op lhs rhs) mid) f rest) ∨
      ((∀ t op, (tokensOf ts).head? = some t → ¬ Multiplicative t op) ∧ lhs = f ∧ ts = rest) := by
  rw [readProductTail.eq_def]
  simp only [← productOp?_eq_some]
  split
  · simp [gives_ok, tokensOf, spans_singleton]
  · rename_i t ts'
    obtain ⟨o, t⟩ := t
    cases h : productOp? t with
    | some op =>
      simp only [gives_bind, gives_pure, exists_prop, exists_eq_right_right, exists_eq_right, spans_singleton,
        head?_tokensOf_cons]
      simp [h]
    | none =>
      simp only [gives_ok, spans_singleton, head?_tokensOf_cons]
      grind

theorem gives_readPower :
    Gives (readPower endOffset ts) f rest ↔ ∃ base mid, Gives (readPrimary endOffset ts) base mid ∧
      ((∃ mid' x, Spans [.caret] mid mid' ∧ Gives (readUnary endOffset mid') x rest ∧ .binary .pow base x = f) ∨
        ((tokensOf mid).head? ≠ some .caret ∧ base = f ∧ mid = rest)) := by
  rw [readPower.eq_def, gives_bind]
  refine exists_congr fun base => exists_congr fun mid => ?_
  rw [← exists_prop]
  refine exists_congr fun h => ?_
  dsimp only
  split
  · simp only [gives_bind, gives_pure, exists_prop, exists_eq_right_right, spans_singleton]
    simp
  · rename_i hcaret
    have hhead : (tokensOf mid).head? ≠ some .caret :=
      head?_tokensOf_ne fun o ts' heq => by subst heq; exact hcaret _ _ _ rfl HEq.rfl
    simp [hhead, not_spans hhead, gives_pure]

theorem gives_readPrimary :
    Gives (readPrimary endOffset ts) f rest ↔
      (∃ chars x, Numeral.single? chars = some x ∧ .number x = f ∧ Spans [.number chars] ts rest) ∨
      (∃ ident, .name ident = f ∧ Spans [.name ident] ts rest ∧ (tokensOf rest).head? ≠ some .leftParen) ∨
      (∃ function args ts', Spans [.name function, .leftParen] ts ts' ∧ Gives (readArguments endOffset ts') args rest ∧
        .call function args.1 args.2 = f) ∨
      (∃ ts' mid, Spans [.leftParen] ts ts' ∧ Gives (readSum endOffset ts') f mid ∧ Spans [.rightParen] mid rest) ∨
      ∃ items, .list (items.map Item.meaning) = f ∧ Spans (.leftBracket :: itemTokens items) ts rest := by
  rw [readPrimary.eq_def]
  split
  · rename_i offset chars ts'
    cases h : Numeral.single? chars with
    | none => simp [not_gives_error, spans_cons_cons, h]
    | some x => simp [gives_ok, spans_cons_cons, spans_nil, h]
  · rename_i offset function offset' ts'
    simp only [gives_bind, gives_pure, exists_prop, exists_eq_right_right]
    simp only [Prod.exists, spans_cons_cons, reduceCtorEq, spans_nil, false_and, and_false, exists_const,
      Token.name.injEq, ne_eq, ↓existsAndEq, true_and, and_true, exists_and_left, exists_eq_left', or_self, or_false,
      false_or, iff_or_self, and_imp]
    rintro - rfl h
    exact absurd rfl h
  · rename_i offset ident ts' hparen
    have hhead := head?_tokensOf_ne hparen
    simp only [List.length_cons, gives_ok, spans_cons_cons, reduceCtorEq, spans_nil, false_and, and_false,
      exists_const, Token.name.injEq, ne_eq, ↓existsAndEq, true_and, not_spans hhead, or_self, or_false, false_or,
      and_congr_right_iff, iff_self_and]
    rintro - rfl
    exact hhead
  · rename_i offset ts'
    simp only [gives_bind, gives_pure, exists_prop, exists_eq_right_right, gives_expect]
    simp [spans_cons_cons, spans_nil]
  · rename_i offset offset' ts'
    simp only [List.length_cons, gives_ok, spans_cons_cons, reduceCtorEq, false_and, and_false, exists_const, ne_eq,
      and_self, true_and, false_or]
    constructor
    · rintro ⟨rfl, rfl⟩
      exact ⟨[], rfl, spans_singleton.2 ⟨_, rfl⟩⟩
    · rintro ⟨items, rfl, hitems⟩
      cases items with
      | nil =>
        obtain ⟨o, heq⟩ := spans_singleton.1 hitems
        cases heq
        exact ⟨rfl, rfl⟩
      | cons i items =>
        obtain ⟨t, us, hi, ht⟩ := i.first
        rw [itemTokens, hi, List.cons_append, spans_cons_cons] at hitems
        exact absurd hitems.1.symm ht
  · rename_i offset ts' hbracket
    have hhead := head?_tokensOf_ne hbracket
    simp only [gives_bind, gives_pure, exists_prop, exists_eq_right_right]
    simp only [spans_cons_cons, reduceCtorEq, false_and, and_false, exists_const, ne_eq, true_and, false_or]
    constructor
    · rintro ⟨ns, hns, rfl⟩
      obtain ⟨i, items, rfl, hitems⟩ := items_of_gives hns
      exact ⟨i :: items, rfl, hitems⟩
    · rintro ⟨items, rfl, hitems⟩
      cases items with
      | nil => exact absurd hitems (not_spans hhead)
      | cons i items => exact ⟨_, gives_items hitems, rfl⟩
  · rename_i hnumber hcall hname hparen hempty hbracket
    simp [not_gives_unexpected, not_spans (head?_tokensOf_ne fun o => hnumber o _),
      not_spans (head?_tokensOf_ne fun o => hname o _), not_spans (head?_tokensOf_ne hparen),
      not_spans (head?_tokensOf_ne hbracket)]

/-! ## Arguments -/

theorem gives_readArguments :
    Gives (readArguments endOffset ts) args rest ↔
      (Spans [.rightParen] ts rest ∧ ([], []) = args) ∨
      ((tokensOf ts).head? ≠ some .rightParen ∧ Gives (readArgument endOffset false ts) args rest) := by
  rw [readArguments.eq_def]
  split
  · simp [gives_ok, spans_singleton, and_comm]
  · rename_i hparen
    have hhead := head?_tokensOf_ne hparen
    simp [hhead, not_spans hhead]

theorem gives_readArgument {seenKeyword : Bool} :
    Gives (readArgument endOffset seenKeyword ts) args rest ↔
      (∃ key ts' x mid more, Spans [.name key, .equals] ts ts' ∧ Gives (readSum endOffset ts') x mid ∧
        Gives (readMoreArguments endOffset true mid) more rest ∧ (more.1, (key, x) :: more.2) = args) ∨
      (seenKeyword = false ∧ ¬ BeginsKeyword (tokensOf ts) ∧ ∃ x mid more, Gives (readSum endOffset ts) x mid ∧
        Gives (readMoreArguments endOffset false mid) more rest ∧ (x :: more.1, more.2) = args) := by
  rw [readArgument.eq_def]
  split
  · simp only [gives_bind, gives_pure, exists_prop, exists_eq_right_right]
    simp [spans_cons_cons, spans_nil, BeginsKeyword, tokensOf]
  · rename_i hkeyword
    have hspans : ∀ key ts', ¬ Spans [.name key, .equals] ts ts' := by
      simp only [spans_cons]
      rintro key ts' ⟨o, _, rfl, o', _, rfl, -⟩
      exact hkeyword _ _ _ _ rfl
    have hnot : ¬ BeginsKeyword (tokensOf ts) := by
      rintro ⟨key, us, heq⟩
      obtain ⟨ts', h, -⟩ := @exists_spans [.name key, .equals] us ts heq
      exact hspans _ _ h
    cases seenKeyword with
    | true => simp [not_gives_error, hspans]
    | false =>
      rw [if_neg Bool.false_ne_true]
      simp only [gives_bind, gives_pure, exists_prop, exists_eq_right_right]
      simp [hspans, hnot]

theorem gives_readMoreArguments {seenKeyword : Bool} :
    Gives (readMoreArguments endOffset seenKeyword ts) args rest ↔
      (∃ ts', Spans [.comma] ts ts' ∧ Gives (readArgument endOffset seenKeyword ts') args rest) ∨
      (Spans [.rightParen] ts rest ∧ ([], []) = args) := by
  rw [readMoreArguments.eq_def]
  split
  · simp only [gives_bind, gives_pure, exists_prop, exists_eq_right_right, exists_eq_right, spans_singleton]
    simp
  · rename_i hcomma
    have hhead := head?_tokensOf_ne hcomma
    simp only [gives_bind, gives_pure, exists_prop, gives_expect, not_spans hhead]
    simp

/-! ## What is read has a tree -/

mutual

theorem sum_of_gives {ts rest : Rest} {f : Formula} (h : Gives (readSum endOffset ts) f rest) :
    ∃ d : Tree .sum, d.meaning = f ∧ Spans d.tokens ts rest := by
  obtain ⟨lhs, mid, hlhs, hf⟩ := gives_readSum.1 h
  have := hlhs.fewer
  obtain ⟨first, rfl, hfirst⟩ := product_of_gives hlhs
  obtain ⟨tail, rfl, htail⟩ := sumTail_of_gives hf
  exact ⟨.sum first tail, rfl, spans_append.2 ⟨mid, hfirst, htail⟩⟩
termination_by (ts.length, 8)

theorem sumTail_of_gives {ts rest : Rest} {lhs f : Formula} (h : Gives (readSumTail endOffset lhs ts) f rest) :
    ∃ d : Tree .sumTail, d.meaning lhs = f ∧ Spans d.tokens ts rest := by
  obtain ⟨t, op, ts', rhs, mid, hop, hjoin, hrhs, hf⟩ | ⟨-, rfl, rfl⟩ := gives_readSumTail.1 h
  · have := hjoin.fewer
    have := hrhs.fewer
    obtain ⟨x, rfl, hx⟩ := product_of_gives hrhs
    obtain ⟨tail, rfl, htail⟩ := sumTail_of_gives hf
    exact ⟨.add hop x tail, rfl, spans_append.2 ⟨ts', hjoin, spans_append.2 ⟨mid, hx, htail⟩⟩⟩
  · exact ⟨.endSum, rfl, spans_nil.2 rfl⟩
termination_by (ts.length, 9)

theorem product_of_gives {ts rest : Rest} {f : Formula} (h : Gives (readProduct endOffset ts) f rest) :
    ∃ d : Tree .product, d.meaning = f ∧ Spans d.tokens ts rest := by
  obtain ⟨lhs, mid, hlhs, hf⟩ := gives_readProduct.1 h
  have := hlhs.fewer
  obtain ⟨first, rfl, hfirst⟩ := unary_of_gives hlhs
  obtain ⟨tail, rfl, htail⟩ := productTail_of_gives hf
  exact ⟨.product first tail, rfl, spans_append.2 ⟨mid, hfirst, htail⟩⟩
termination_by (ts.length, 6)

theorem productTail_of_gives {ts rest : Rest} {lhs f : Formula}
    (h : Gives (readProductTail endOffset lhs ts) f rest) :
    ∃ d : Tree .productTail, d.meaning lhs = f ∧ Spans d.tokens ts rest := by
  obtain ⟨t, op, ts', rhs, mid, hop, hjoin, hrhs, hf⟩ | ⟨-, rfl, rfl⟩ := gives_readProductTail.1 h
  · have := hjoin.fewer
    have := hrhs.fewer
    obtain ⟨x, rfl, hx⟩ := unary_of_gives hrhs
    obtain ⟨tail, rfl, htail⟩ := productTail_of_gives hf
    exact ⟨.multiply hop x tail, rfl, spans_append.2 ⟨ts', hjoin, spans_append.2 ⟨mid, hx, htail⟩⟩⟩
  · exact ⟨.endProduct, rfl, spans_nil.2 rfl⟩
termination_by (ts.length, 7)

theorem unary_of_gives {ts rest : Rest} {f : Formula} (h : Gives (readUnary endOffset ts) f rest) :
    ∃ d : Tree .unary, d.meaning = f ∧ Spans d.tokens ts rest := by
  obtain ⟨ts', f', hminus, hf', rfl⟩ | ⟨-, hf⟩ := gives_readUnary.1 h
  · have := hminus.fewer
    obtain ⟨x, rfl, hx⟩ := unary_of_gives hf'
    exact ⟨.neg x, rfl, spans_append.2 ⟨ts', hminus, hx⟩⟩
  · obtain ⟨x, rfl, hx⟩ := power_of_gives hf
    exact ⟨.unary x, rfl, hx⟩
termination_by (ts.length, 5)

theorem power_of_gives {ts rest : Rest} {f : Formula} (h : Gives (readPower endOffset ts) f rest) :
    ∃ d : Tree .power, d.meaning = f ∧ Spans d.tokens ts rest := by
  obtain ⟨b, mid, hb, hmore⟩ := gives_readPower.1 h
  have := hb.fewer
  obtain ⟨base, rfl, hbase⟩ := primary_of_gives hb
  obtain ⟨mid', x, hcaret, hx, rfl⟩ | ⟨-, rfl, rfl⟩ := hmore
  · have := hcaret.fewer
    obtain ⟨exponent, rfl, hexponent⟩ := unary_of_gives hx
    exact ⟨.raise base exponent, rfl, spans_append.2 ⟨mid, hbase, spans_append.2 ⟨mid', hcaret, hexponent⟩⟩⟩
  · exact ⟨.power base, rfl, hbase⟩
termination_by (ts.length, 4)

theorem primary_of_gives {ts rest : Rest} {f : Formula} (h : Gives (readPrimary endOffset ts) f rest) :
    ∃ d : Tree .primary, d.meaning = f ∧ Spans d.tokens ts rest := by
  obtain ⟨chars, x, hx, rfl, hspans⟩ | ⟨ident, rfl, hspans, -⟩ | ⟨function, args, ts', hcall, hargs, rfl⟩ |
    ⟨ts', mid, hopen, hf, hclose⟩ | ⟨items, rfl, hspans⟩ := gives_readPrimary.1 h
  · exact ⟨.number chars x hx, rfl, hspans⟩
  · exact ⟨.name ident, rfl, hspans⟩
  · have := hcall.fewer
    obtain ⟨arguments, rfl, harguments⟩ := arguments_of_gives hargs
    exact ⟨.call function arguments, rfl, spans_append.2 ⟨ts', hcall, harguments⟩⟩
  · have := hopen.fewer
    obtain ⟨x, rfl, hx⟩ := sum_of_gives hf
    exact ⟨.group x, rfl, spans_append.2 ⟨ts', hopen, spans_append.2 ⟨mid, hx, hclose⟩⟩⟩
  · exact ⟨.list items, rfl, hspans⟩
termination_by (ts.length, 3)

theorem arguments_of_gives {ts rest : Rest} {args : Arguments} (h : Gives (readArguments endOffset ts) args rest) :
    ∃ d : Tree .arguments, d.meaning = args ∧ Spans d.tokens ts rest := by
  obtain ⟨hparen, rfl⟩ | ⟨-, h⟩ := gives_readArguments.1 h
  · exact ⟨.noArguments, rfl, hparen⟩
  obtain ⟨key, ts', f, mid, args', hkey, hf, hargs', rfl⟩ | ⟨-, -, f, mid, args', hf, hargs', rfl⟩ :=
    gives_readArgument.1 h
  · have := hkey.fewer
    have := hf.fewer
    obtain ⟨x, rfl, hx⟩ := sum_of_gives hf
    obtain ⟨more, rfl, hmore⟩ := more_of_gives hargs'
    exact ⟨.keyword key x more, rfl, spans_append.2 ⟨ts', hkey, spans_append.2 ⟨mid, hx, hmore⟩⟩⟩
  · have := hf.fewer
    obtain ⟨x, rfl, hx⟩ := sum_of_gives hf
    obtain ⟨more, rfl, hmore⟩ := more_of_gives hargs'
    exact ⟨.positional x more, rfl, spans_append.2 ⟨mid, hx, hmore⟩⟩
termination_by (ts.length, 11)

theorem more_of_gives {seenKeyword : Bool} {ts rest : Rest} {args : Arguments}
    (h : Gives (readMoreArguments endOffset seenKeyword ts) args rest) :
    ∃ d : Tree (.more seenKeyword), d.meaning = args ∧ Spans d.tokens ts rest := by
  obtain ⟨ts', hcomma, h⟩ | ⟨hparen, rfl⟩ := gives_readMoreArguments.1 h
  · have := hcomma.fewer
    obtain ⟨key, ts'', f, mid, args', hkey, hf, hargs', rfl⟩ | ⟨rfl, -, f, mid, args', hf, hargs', rfl⟩ :=
      gives_readArgument.1 h
    · have := hkey.fewer
      have := hf.fewer
      obtain ⟨x, rfl, hx⟩ := sum_of_gives hf
      obtain ⟨more, rfl, hmore⟩ := more_of_gives hargs'
      exact ⟨.nextKeyword key x more, rfl,
        spans_append.2 ⟨ts', hcomma, spans_append.2 ⟨ts'', hkey, spans_append.2 ⟨mid, hx, hmore⟩⟩⟩⟩
    · have := hf.fewer
      obtain ⟨x, rfl, hx⟩ := sum_of_gives hf
      obtain ⟨more, rfl, hmore⟩ := more_of_gives hargs'
      exact ⟨.nextPositional x more, rfl, spans_append.2 ⟨ts', hcomma, spans_append.2 ⟨mid, hx, hmore⟩⟩⟩
  · exact ⟨.endArguments, rfl, hparen⟩
termination_by (ts.length, 0)

end

/-! ## Trees are read -/

/-- Whether the function that reads a rule, and is given the first operand where it needs one, reads the meaning. -/
def Rule.Reads (endOffset : Nat) : (r : Rule) → Rest → r.Meaning → Rest → Prop
  | .sum, ts, f, rest => Gives (readSum endOffset ts) f rest
  | .sumTail, ts, f, rest => ∀ lhs, Gives (readSumTail endOffset lhs ts) (f lhs) rest
  | .product, ts, f, rest => Gives (readProduct endOffset ts) f rest
  | .productTail, ts, f, rest => ∀ lhs, Gives (readProductTail endOffset lhs ts) (f lhs) rest
  | .unary, ts, f, rest => Gives (readUnary endOffset ts) f rest
  | .power, ts, f, rest => Gives (readPower endOffset ts) f rest
  | .primary, ts, f, rest => Gives (readPrimary endOffset ts) f rest
  | .arguments, ts, args, rest => Gives (readArguments endOffset ts) args rest
  | .more seenKeyword, ts, args, rest => Gives (readMoreArguments endOffset seenKeyword ts) args rest

theorem Rule.Ends.head?_ne {r : Rule} {us : List Token} {t : Token} (h : r.Ends us) (ht : t ∈ r.joins) :
    us.head? ≠ some t :=
  fun heq => h t heq ht

theorem head?_ne_of_first {us vs : List Token} {t u : Token} {ts rest : Rest} (h : Spans us ts rest)
    (hus : us = u :: vs) (hne : u ≠ t) : (tokensOf ts).head? ≠ some t := by
  rw [h.tokensOf_eq, hus]
  exact fun heq => hne (Option.some.inj heq)

theorem Tree.not_beginsKeyword_of_spans {b : Bool} {d : Tree .sum} {more : Tree (.more b)} {ts mid rest : Rest}
    (hd : Spans d.tokens ts mid) (hmore : Spans more.tokens mid rest) : ¬ BeginsKeyword (tokensOf ts) := by
  rw [hd.tokensOf_eq, hmore.tokensOf_eq]
  exact d.not_beginsKeyword_more more

/-- A tree whose rule can go no further after it is read. -/
theorem Tree.reads {r : Rule} (d : Tree r) {ts rest : Rest} (h : Spans d.tokens ts rest)
    (hrest : r.Ends (tokensOf rest)) : r.Reads endOffset ts d.meaning rest := by
  induction d generalizing ts rest with
  | sum first tail ihfirst ihtail =>
    obtain ⟨mid, hfirst, htail⟩ := spans_append.1 h
    have hmid := htail.tokensOf_eq ▸ tail.ends_sumTail hrest
    exact gives_readSum.2 ⟨_, mid, ihfirst hfirst hmid, ihtail htail hrest _⟩
  | endSum =>
    obtain rfl := spans_nil.1 h
    exact fun lhs => gives_readSumTail.2 (.inr ⟨fun t op ht hop => hrest t ht hop.mem_joins, rfl, rfl⟩)
  | add hop x tail ihx ihtail =>
    obtain ⟨ts', hjoin, hmore⟩ := spans_first.1 h
    obtain ⟨mid, hx, htail⟩ := spans_append.1 hmore
    have hmid := htail.tokensOf_eq ▸ tail.ends_sumTail hrest
    exact fun lhs => gives_readSumTail.2 (.inl ⟨_, _, ts', _, mid, hop, hjoin, ihx hx hmid, ihtail htail hrest _⟩)
  | product first tail ihfirst ihtail =>
    obtain ⟨mid, hfirst, htail⟩ := spans_append.1 h
    have hmid := htail.tokensOf_eq ▸ tail.ends_productTail hrest
    exact gives_readProduct.2 ⟨_, mid, ihfirst hfirst hmid, ihtail htail hrest _⟩
  | endProduct =>
    obtain rfl := spans_nil.1 h
    exact fun lhs => gives_readProductTail.2 (.inr ⟨fun t op ht hop => hrest t ht hop.mem_joins, rfl, rfl⟩)
  | multiply hop x tail ihx ihtail =>
    obtain ⟨ts', hjoin, hmore⟩ := spans_first.1 h
    obtain ⟨mid, hx, htail⟩ := spans_append.1 hmore
    have hmid := htail.tokensOf_eq ▸ tail.ends_productTail hrest
    exact fun lhs =>
      gives_readProductTail.2 (.inl ⟨_, _, ts', _, mid, hop, hjoin, ihx hx hmid, ihtail htail hrest _⟩)
  | neg x ih =>
    obtain ⟨ts', hminus, hx⟩ := spans_first.1 h
    exact gives_readUnary.2 (.inl ⟨ts', _, hminus, ih hx hrest, rfl⟩)
  | unary x ih =>
    obtain ⟨t, us, hfirst, ht⟩ := x.first_power
    exact gives_readUnary.2 (.inr ⟨head?_ne_of_first h hfirst (by rintro rfl; cases ht), ih h hrest⟩)
  | power x ih =>
    exact gives_readPower.2 ⟨_, rest, ih h (hrest.mono (by decide)), .inr ⟨hrest.head?_ne (by decide), rfl, rfl⟩⟩
  | raise base exponent ihbase ihexponent =>
    obtain ⟨mid, hbase, hmore⟩ := spans_append.1 h
    obtain ⟨mid', hcaret, hexponent⟩ := spans_first.1 hmore
    have hmid : Rule.primary.Ends (tokensOf mid) := hcaret.tokensOf_eq ▸ Rule.ends_cons.2 (by decide)
    exact gives_readPower.2 ⟨_, mid, ihbase hbase hmid, .inl ⟨mid', _, hcaret, ihexponent hexponent hrest, rfl⟩⟩
  | number chars x reads => exact gives_readPrimary.2 (.inl ⟨chars, x, reads, rfl, h⟩)
  | name ident => exact gives_readPrimary.2 (.inr (.inl ⟨ident, rfl, h, hrest.head?_ne (by decide)⟩))
  | call function arguments ih =>
    obtain ⟨ts', hcall, harguments⟩ := (@spans_append [.name function, .leftParen] _ _ _).1 h
    exact gives_readPrimary.2 (.inr (.inr (.inl ⟨function, _, ts', hcall, ih harguments Rule.ends_arguments, rfl⟩)))
  | group x ih =>
    obtain ⟨ts', hopen, hmore⟩ := spans_first.1 h
    obtain ⟨mid, hx, hclose⟩ := spans_append.1 hmore
    have hmid : Rule.sum.Ends (tokensOf mid) := hclose.tokensOf_eq ▸ Rule.ends_cons.2 (by decide)
    exact gives_readPrimary.2 (.inr (.inr (.inr (.inl ⟨ts', mid, hopen, ih hx hmid, hclose⟩))))
  | list items => exact gives_readPrimary.2 (.inr (.inr (.inr (.inr ⟨items, rfl, h⟩))))
  | noArguments => exact gives_readArguments.2 (.inl ⟨h, rfl⟩)
  | positional x more ihx ihmore =>
    obtain ⟨mid, hx, hmore⟩ := spans_append.1 h
    obtain ⟨t, us, hfirst, ht⟩ := x.first_sum
    have hmid := hmore.tokensOf_eq ▸ more.ends_more
    exact gives_readArguments.2 (.inr ⟨head?_ne_of_first hx hfirst (by rintro rfl; simp [startsPrimary] at ht),
      gives_readArgument.2 (.inr ⟨rfl, not_beginsKeyword_of_spans hx hmore, _, mid, _, ihx hx hmid,
        ihmore hmore Rule.ends_more, rfl⟩)⟩)
  | keyword key x more ihx ihmore =>
    obtain ⟨ts', hkey, hrest'⟩ := (@spans_append [.name key, .equals] _ _ _).1 h
    obtain ⟨mid, hx, hmore⟩ := spans_append.1 hrest'
    have hmid := hmore.tokensOf_eq ▸ more.ends_more
    exact gives_readArguments.2 (.inr ⟨head?_ne_of_first hkey rfl (by intro heq; cases heq),
      gives_readArgument.2 (.inl ⟨key, ts', _, mid, _, hkey, ihx hx hmid, ihmore hmore Rule.ends_more, rfl⟩)⟩)
  | endArguments => exact gives_readMoreArguments.2 (.inr ⟨h, rfl⟩)
  | nextPositional x more ihx ihmore =>
    obtain ⟨ts', hcomma, hrest'⟩ := spans_first.1 h
    obtain ⟨mid, hx, hmore⟩ := spans_append.1 hrest'
    have hmid := hmore.tokensOf_eq ▸ more.ends_more
    exact gives_readMoreArguments.2 (.inl ⟨ts', hcomma, gives_readArgument.2 (.inr ⟨rfl,
      not_beginsKeyword_of_spans hx hmore, _, mid, _, ihx hx hmid, ihmore hmore Rule.ends_more, rfl⟩)⟩)
  | nextKeyword key x more ihx ihmore =>
    obtain ⟨ts', hcomma, hrest'⟩ := spans_first.1 h
    obtain ⟨ts'', hkey, hrest''⟩ := (@spans_append [.name key, .equals] _ _ _).1 hrest'
    obtain ⟨mid, hx, hmore⟩ := spans_append.1 hrest''
    have hmid := hmore.tokensOf_eq ▸ more.ends_more
    exact gives_readMoreArguments.2 (.inl ⟨ts', hcomma, gives_readArgument.2 (.inl ⟨key, ts'', _, mid, _, hkey,
      ihx hx hmid, ihmore hmore Rule.ends_more, rfl⟩)⟩)

/-! ## Texts -/

/-- A text's tokens, and a syntax tree that spans them. -/
structure Derivation (text : String) where
  tree : Tree .sum
  lexes : Lexes text.toList tree.tokens

/-- The formula that a text's derivation means. -/
def Derivation.meaning {text : String} (d : Derivation text) : Formula := d.tree.meaning

instance {text : String} : Subsingleton (Derivation text) where
  allEq := by
    rintro ⟨d, hd⟩ ⟨e, he⟩
    have htokens : d.tokens ++ [] = e.tokens ++ [] := by rw [hd.unique he]
    obtain ⟨rfl, -⟩ := d.unique e htokens nofun nofun
    rfl

theorem ofString?_eq_ok {text : String} {f : Formula} :
    ofString? text = .ok f ↔ ∃ tokens, PlacedToken.scan 0 text.toList = .ok tokens ∧
      Gives (readSum text.utf8ByteSize tokens) f [] := by
  unfold ofString?
  constructor
  · intro h
    obtain ⟨tokens, hscan, hread⟩ := bind_eq_ok.1 h
    obtain ⟨⟨g, rest, hlt⟩, hsum, hend⟩ := bind_eq_ok.1 hread
    cases rest with
    | nil =>
      cases hend
      exact ⟨tokens, hscan, hlt, hsum⟩
    | cons t rest => cases hend
  · rintro ⟨tokens, hscan, hlt, hsum⟩
    exact bind_eq_ok.2 ⟨tokens, hscan, bind_eq_ok.2 ⟨_, hsum, rfl⟩⟩

theorem ofString?_iff_derivation {text : String} {f : Formula} :
    ofString? text = .ok f ↔ ∃ d : Derivation text, d.meaning = f := by
  rw [ofString?_eq_ok]
  constructor
  · rintro ⟨tokens, hscan, hread⟩
    obtain ⟨d, rfl, hd⟩ := sum_of_gives hread
    have htokens : tokensOf tokens = d.tokens := hd.tokensOf_eq.trans (List.append_nil _)
    exact ⟨⟨d, htokens ▸ lexes_of_scan hscan⟩, rfl⟩
  · rintro ⟨⟨d, hlexes⟩, rfl⟩
    obtain ⟨tokens, hscan, htokens⟩ := scan_of_lexes hlexes 0
    have hspans : Spans d.tokens tokens [] := ⟨tokens, htokens, (List.append_nil _).symm⟩
    exact ⟨tokens, hscan, d.reads hspans nofun⟩

/-- Reading gives a formula exactly when the text has a derivation, whose meaning it is, and no text has two. It gives
an error exactly when the text has none. -/
theorem reads_iff_derivation (text : String) :
    (∀ f, ofString? text = .ok f ↔ ∃ d : Derivation text, d.meaning = f) ∧ (∀ d e : Derivation text, d = e) ∧
    ((∃ e, ofString? text = .error e) ↔ IsEmpty (Derivation text)) := by
  refine ⟨fun f => ofString?_iff_derivation, Subsingleton.elim, ?_⟩
  constructor
  · rintro ⟨e, he⟩
    refine ⟨fun d => ?_⟩
    rw [ofString?_iff_derivation.2 ⟨d, rfl⟩] at he
    cases he
  · intro hempty
    cases h : ofString? text with
    | error e => exact ⟨e, rfl⟩
    | ok f => exact hempty.elim (ofString?_iff_derivation.1 h).choose

end TensorGraph.Formula
