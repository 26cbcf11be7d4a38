import Mathlib.Data.List.Basic
import TensorGraph.Proofs.Formula.Lexemes
import TensorGraph.Proofs.Size.Meaning

/-!
# The language of size expressions

The syntax trees of the texts of size expressions, as a reader takes them who knows that products bind tighter than
sums and that operators of one level are read from the left. Main statement: `Phrase.unique`, a text is that of one
tree.
-/

namespace TensorGraph

/-! ## Operators -/

/-- The two levels of infix operators. -/
inductive Level where
  | product | sum
deriving DecidableEq

/-- The operators that are written like calls. -/
inductive SizeFunction where
  | max | min | broadcast
deriving DecidableEq

/-- The quotient rounded towards negative infinity, unless the divisor is zero. -/
def quotient? (x y : Int) : Option Int := if y = 0 then none else some (x.fdiv y)

/-- The size that two sizes broadcast to. -/
def broadcastTo? (x y : Int) : Option Int :=
  if x = y then some x else if x = 1 then some y else if y = 1 then some x else none

namespace Level

/-- The sign of a level's operator, or of its inverse. -/
def sign : Level → (inverse : Bool) → Char
  | product, false => '*'
  | product, true => '/'
  | sum, false => '+'
  | sum, true => '-'

/-- The value of an operator, or of its inverse. -/
def operate : Level → (inverse : Bool) → Int → Int → Option Int
  | product, false => fun x y => some (x * y)
  | product, true => quotient?
  | sum, false => fun x y => some (x + y)
  | sum, true => fun x y => some (x - y)

end Level

namespace SizeFunction

def chars : SizeFunction → List Char
  | max => ['m', 'a', 'x']
  | min => ['m', 'i', 'n']
  | broadcast => ['b', 'r', 'o', 'a', 'd', 'c', 'a', 's', 't']

def value? : SizeFunction → Int → Int → Option Int
  | max => fun x y => some (Max.max x y)
  | min => fun x y => some (Min.min x y)
  | broadcast => broadcastTo?

theorem chars_inj {f g : SizeFunction} (h : f.chars = g.chars) : f = g := by
  cases f <;> cases g <;> first | rfl | simp [chars] at h

theorem continuesName_chars (f : SizeFunction) : ∀ c ∈ f.chars, CharClass.continuesName c = true :=
  List.all_eq_true.1 (by cases f <;> rfl)

end SizeFunction

/-! ## Syntax trees -/

/-- What a syntax tree can stand for. -/
inductive Part where
  /-- What binds tighter than every infix operator. -/
  | word
  /-- Operands with operators of one level between them. -/
  | chain (level : Level)

/-- What the operands of a chain are. -/
abbrev Level.operand : Level → Part
  | product => .word
  | sum => .chain product

/-- A text of a size expression, read as one of its parts. -/
inductive Phrase : Part → Type where
  | number (n : Nat) : Phrase .word
  | name (s : String) (h : isIdentifier s.toList = true) : Phrase .word
  | minus (x : Phrase .word) : Phrase .word
  | group (x : Phrase (.chain .sum)) : Phrase .word
  | call (f : SizeFunction) (x y : Phrase (.chain .sum)) : Phrase .word
  | last {l : Level} (x : Phrase l.operand) : Phrase (.chain l)
  | more {l : Level} (x : Phrase l.operand) (inverse : Bool) (rest : Phrase (.chain l)) : Phrase (.chain l)

namespace Phrase

/-- The text of a tree. -/
def chars : {p : Part} → Phrase p → List Char
  | _, number n => Nat.toDigits 10 n
  | _, name s _ => s.toList
  | _, minus x => '-' :: x.chars
  | _, group x => '(' :: (x.chars ++ [')'])
  | _, call f x y => f.chars ++ '(' :: (x.chars ++ ',' :: ' ' :: (y.chars ++ [')']))
  | _, last x => x.chars
  | _, @more l x inverse rest => x.chars ++ ' ' :: l.sign inverse :: ' ' :: rest.chars

/-- What `use` makes of the value that a tree has. The operands of a chain are taken from the left, so that what is
made of the first ones is what the next operator starts with. -/
def value (ρ : Valuation) : {p : Part} → Phrase p → (use : Int → Option Int) → Option Int
  | _, number n, use => use n
  | _, name s _, use => (ρ s).bind use
  | _, minus x, use => x.value ρ fun v => use (-v)
  | _, group x, use => (x.value ρ some).bind use
  | _, call f x y, use => (x.value ρ some).bind fun v => (y.value ρ some).bind fun w => (f.value? v w).bind use
  | _, last x, use => (x.value ρ some).bind use
  | _, @more l x inverse rest, use => ((x.value ρ some).bind use).bind fun v => rest.value ρ (l.operate inverse v)

end Phrase

/-! ## Runs of characters -/

section
open CharClass

variable {c : Char} {cs ds r s : List Char}

theorem continuesName_of_isDigit (h : c.isDigit = true) : continuesName c = true := by
  have hrange := toNat_of_isDigit h
  simp [continuesName, isAlphanumeric, Char.isAlphanum, h, show c.toNat < 0x80 by omega]

theorem continuesName_of_startsName (h : startsName c = true) : continuesName c = true := by
  rcases Bool.or_eq_true_iff.1 h with h | h
  · unfold isAlphabetic at h
    unfold continuesName isAlphanumeric
    split at h <;> simp_all [Char.isAlphanum]
  · simp [continuesName, h]

/-- Whether no character of an identifier follows. -/
def Breaks (r : List Char) : Prop := ∀ c ∈ r.head?, continuesName c = false

/-- A run of characters of identifiers ends where another character follows. -/
theorem run_unique (hcs : ∀ c ∈ cs, continuesName c = true) (hds : ∀ c ∈ ds, continuesName c = true) (hr : Breaks r)
    (hs : Breaks s) (h : cs ++ r = ds ++ s) : cs = ds ∧ r = s := by
  induction cs generalizing ds with
  | nil =>
    cases ds with
    | nil => exact ⟨rfl, h⟩
    | cons d ds => simp_all [Breaks]
  | cons c cs ih =>
    cases ds with
    | nil =>
      obtain rfl : c :: (cs ++ r) = s := h
      simp_all [Breaks]
    | cons d ds =>
      obtain ⟨rfl, hrest⟩ : c = d ∧ cs ++ r = ds ++ s := List.cons.inj h
      obtain ⟨rfl, rfl⟩ := ih (List.forall_mem_cons.1 hcs).2 (List.forall_mem_cons.1 hds).2 hrest
      exact ⟨rfl, rfl⟩

theorem run_ne_cons {d : Char} (hcs : ∀ c ∈ cs, continuesName c = true) (hne : cs ≠ [])
    (hd : continuesName d = false) : cs ++ r ≠ d :: s := by
  cases cs with
  | nil => exact absurd rfl hne
  | cons c cs =>
    intro heq
    obtain rfl := (List.cons.inj heq).1
    simp [hcs c List.mem_cons_self] at hd

theorem toDigits_run (n : Nat) : ∀ c ∈ Nat.toDigits 10 n, continuesName c = true :=
  fun _ hc => continuesName_of_isDigit (Nat.isDigit_of_mem_toDigits (by decide) (by decide) hc)

theorem toDigits_inj {m n : Nat} (h : Nat.toDigits 10 m = Nat.toDigits 10 n) : m = n := by
  rw [← @Nat.ofDigitChars_ten_toDigits m, h, Nat.ofDigitChars_ten_toDigits]

theorem isIdentifier_iff : isIdentifier cs = true ↔
    ∃ c ds, cs = c :: ds ∧ startsName c = true ∧ ∀ d ∈ ds, continuesName d = true := by
  cases cs <;> simp [isIdentifier]

theorem isIdentifier_run (h : isIdentifier cs = true) : ∀ c ∈ cs, continuesName c = true := by
  obtain ⟨c, ds, rfl, hc, hds⟩ := isIdentifier_iff.1 h
  exact List.forall_mem_cons.2 ⟨continuesName_of_startsName hc, hds⟩

/-- No number is an identifier. -/
theorem isIdentifier_ne_toDigits (h : isIdentifier cs = true) (n : Nat) : cs ≠ Nat.toDigits 10 n := by
  rintro rfl
  obtain ⟨c, ds, hcs, hc, -⟩ := isIdentifier_iff.1 h
  have hdigit : c.isDigit = true :=
    Nat.isDigit_of_mem_toDigits (b := 10) (n := n) (by decide) (by decide) (by simp [hcs])
  have hother := (of_startsName hc).2.2
  simp [hdigit] at hother
end

/-! ## Ends of parts -/

/-- Whether a part ends where the characters follow. -/
inductive Part.Ends : Part → List Char → Prop
  | nothing {p : Part} : Ends p []
  | parenthesis {p : Part} {r : List Char} : Ends p (')' :: r)
  | comma {p : Part} {r : List Char} : Ends p (',' :: r)
  | word {l : Level} {inverse : Bool} {r : List Char} : Ends .word (' ' :: l.sign inverse :: r)
  | product {inverse : Bool} {r : List Char} : Ends (.chain .product) (' ' :: Level.sum.sign inverse :: r)

section
variable {l : Level} {p : Part} {r s : List Char}

theorem Part.Ends.operand (h : Part.Ends (.chain l) r) : l.operand.Ends r := by
  cases h with
  | nothing => exact .nothing
  | parenthesis => exact .parenthesis
  | comma => exact .comma
  | product => exact .word

/-- An operand ends where an operator of its chain follows. -/
theorem Level.ends_operand {inverse : Bool} : l.operand.Ends (' ' :: l.sign inverse :: r) := by
  cases l
  · exact .word
  · exact .product

theorem Level.not_ends_chain {inverse : Bool} : ¬ Part.Ends (.chain l) (' ' :: l.sign inverse :: r) := by
  generalize hr : ' ' :: l.sign inverse :: r = cs
  intro h
  cases h with
  | @product inverse' r' =>
    have hsign : Level.product.sign inverse = Level.sum.sign inverse' := (List.cons.inj (List.cons.inj hr).2).1
    cases inverse <;> cases inverse' <;> simp [Level.sign] at hsign
  | _ => simp at hr

theorem Level.sign_inj {a b : Bool} (h : l.sign a = l.sign b) : a = b := by
  cases l <;> cases a <;> cases b <;> simp [Level.sign] at h <;> rfl

theorem Part.Ends.breaks (h : p.Ends r) : Breaks r := by
  cases h <;> simp [Breaks] <;> decide

theorem Part.Ends.ne_leftParen (h : p.Ends r) : r ≠ '(' :: s := by
  cases h <;> simp

theorem breaks_leftParen : Breaks ('(' :: r) := by
  simp only [Breaks, List.head?_cons, Option.mem_def, Option.some.injEq, forall_eq']
  decide

end

namespace Phrase

variable {r s : List Char}

/-! ## Uniqueness -/

/-- The names of functions can be those of symbols, but no symbol ends before a parenthesis that opens. -/
theorem run_ne_call {p : Part} {cs : List Char} {f : SizeFunction} (hcs : ∀ c ∈ cs, CharClass.continuesName c = true)
    (hr : p.Ends r) : cs ++ r ≠ f.chars ++ '(' :: s := by
  intro heq
  obtain ⟨-, hrest⟩ := run_unique hcs f.continuesName_chars hr.breaks breaks_leftParen heq
  exact hr.ne_leftParen hrest

/-- What a word begins with that is neither a sign nor a parenthesis. -/
inductive Heads : Phrase .word → List Char → Prop
  | number (n : Nat) : Heads (.number n) (Nat.toDigits 10 n)
  | name (t : String) (ht : isIdentifier t.toList = true) : Heads (.name t ht) t.toList
  | call (f : SizeFunction) (x y : Phrase (.chain .sum)) : Heads (.call f x y) f.chars

namespace Heads

variable {x : Phrase .word} {cs : List Char}

theorem run (h : Heads x cs) : ∀ c ∈ cs, CharClass.continuesName c = true := by
  cases h with
  | number n => exact toDigits_run n
  | name t ht => exact isIdentifier_run ht
  | call f x y => exact f.continuesName_chars

theorem ne_nil (h : Heads x cs) : cs ≠ [] := by
  cases h with
  | number n => exact Nat.toDigits_ne_nil
  | name t ht =>
    obtain ⟨c, ds, hcs, -⟩ := isIdentifier_iff.1 ht
    simp [hcs]
  | call f x y => cases f <;> simp [SizeFunction.chars]

theorem exists_chars (h : Heads x cs) : ∃ ds, x.chars = cs ++ ds := by
  cases h with
  | number n => exact ⟨[], (List.append_nil _).symm⟩
  | name t ht => exact ⟨[], (List.append_nil _).symm⟩
  | call f x y => exact ⟨_, rfl⟩

/-- Signs and parentheses are no characters of identifiers. -/
theorem chars_ne (h : Heads x cs) {d : Char} (hd : CharClass.continuesName d = false) : x.chars ++ r ≠ d :: s := by
  obtain ⟨ds, hds⟩ := h.exists_chars
  rw [hds, List.append_assoc]
  exact run_ne_cons h.run h.ne_nil hd

theorem ne_minus (h : Heads x cs) (y : Phrase .word) : x.chars ++ r ≠ (minus y).chars ++ s :=
  h.chars_ne (by decide)

theorem ne_group (h : Heads x cs) (y : Phrase (.chain .sum)) : x.chars ++ r ≠ (group y).chars ++ s :=
  h.chars_ne (by decide)

end Heads

theorem number_ne_name {n : Nat} {t : String} (ht : isIdentifier t.toList = true) (hr : Breaks r) (hs : Breaks s) :
    (number n).chars ++ r ≠ (name t ht).chars ++ s := by
  intro heq
  obtain ⟨hname, -⟩ := run_unique (toDigits_run n) (isIdentifier_run ht) hr hs heq
  exact isIdentifier_ne_toDigits ht n hname.symm

theorem number_ne_call {p : Part} {n : Nat} {f : SizeFunction} {x y : Phrase (.chain .sum)} (hr : p.Ends r) :
    (number n).chars ++ r ≠ (call f x y).chars ++ s := by
  rw [chars, chars, List.append_assoc]
  exact run_ne_call (toDigits_run n) hr

theorem name_ne_call {p : Part} {t : String} {ht : isIdentifier t.toList = true} {f : SizeFunction}
    {x y : Phrase (.chain .sum)} (hr : p.Ends r) : (name t ht).chars ++ r ≠ (call f x y).chars ++ s := by
  rw [chars, chars, List.append_assoc]
  exact run_ne_call (isIdentifier_run ht) hr

theorem minus_ne_group {x : Phrase .word} {y : Phrase (.chain .sum)} :
    (minus x).chars ++ r ≠ (group y).chars ++ s := by
  simp [chars]

/-- Two trees of a part whose texts begin the same text, and end where the part ends, are one. -/
theorem unique {p : Part} (x y : Phrase p) (h : x.chars ++ r = y.chars ++ s) (hr : p.Ends r) (hs : p.Ends s) :
    x = y ∧ r = s := by
  -- The induction is on the first tree. Of a word, the first characters decide which one the second can be.
  induction x generalizing r s with
  | number n =>
    cases y with
    | number m =>
      obtain ⟨hdigits, rfl⟩ := run_unique (toDigits_run n) (toDigits_run m) hr.breaks hs.breaks h
      obtain rfl := toDigits_inj hdigits
      exact ⟨rfl, rfl⟩
    | name t ht => exact absurd h (number_ne_name ht hr.breaks hs.breaks)
    | minus y => exact absurd h ((Heads.number n).ne_minus y)
    | group y => exact absurd h ((Heads.number n).ne_group y)
    | call f y z => exact absurd h (number_ne_call hr)
  | name t ht =>
    cases y with
    | number m => exact absurd h.symm (number_ne_name ht hs.breaks hr.breaks)
    | name u hu =>
      obtain ⟨hname, rfl⟩ := run_unique (isIdentifier_run ht) (isIdentifier_run hu) hr.breaks hs.breaks h
      obtain rfl := String.toList_injective hname
      exact ⟨rfl, rfl⟩
    | minus y => exact absurd h ((Heads.name t ht).ne_minus y)
    | group y => exact absurd h ((Heads.name t ht).ne_group y)
    | call f y z => exact absurd h (name_ne_call hr)
  | minus x ih =>
    cases y with
    | number m => exact absurd h.symm ((Heads.number m).ne_minus x)
    | name t ht => exact absurd h.symm ((Heads.name t ht).ne_minus x)
    | minus y =>
      obtain ⟨rfl, rfl⟩ := ih y (List.cons.inj h).2 hr hs
      exact ⟨rfl, rfl⟩
    | group y => exact absurd h minus_ne_group
    | call f y z => exact absurd h.symm ((Heads.call f y z).ne_minus x)
  | group x ih =>
    cases y with
    | number m => exact absurd h.symm ((Heads.number m).ne_group x)
    | name t ht => exact absurd h.symm ((Heads.name t ht).ne_group x)
    | minus y => exact absurd h.symm minus_ne_group
    | group y =>
      simp only [chars, List.cons_append, List.append_assoc, List.cons.injEq, true_and, List.nil_append] at h
      obtain ⟨rfl, hrest⟩ := ih y h .parenthesis .parenthesis
      exact ⟨rfl, (List.cons.inj hrest).2⟩
    | call f y z => exact absurd h.symm ((Heads.call f y z).ne_group x)
  | call f x x' ih ih' =>
    cases y with
    | number m => exact absurd h.symm (number_ne_call hs)
    | name t ht => exact absurd h.symm (name_ne_call hs)
    | minus y => exact absurd h ((Heads.call f x x').ne_minus y)
    | group y => exact absurd h ((Heads.call f x x').ne_group y)
    | call g y y' =>
      simp only [chars, List.append_assoc, List.cons_append, List.nil_append] at h
      obtain ⟨hfun, hargs⟩ :=
        run_unique f.continuesName_chars g.continuesName_chars breaks_leftParen breaks_leftParen h
      obtain rfl := SizeFunction.chars_inj hfun
      obtain ⟨rfl, hmore⟩ := ih y (List.cons.inj hargs).2 .comma .comma
      simp only [List.cons.injEq, true_and] at hmore
      obtain ⟨rfl, hrest⟩ := ih' y' hmore .parenthesis .parenthesis
      exact ⟨rfl, (List.cons.inj hrest).2⟩
  | last x ih =>
    cases y with
    | last y =>
      obtain ⟨rfl, rfl⟩ := ih y h hr.operand hs.operand
      exact ⟨rfl, rfl⟩
    | more y inverse rest =>
      simp only [chars, List.append_assoc, List.cons_append] at h
      -- The operands are one, so the first chain would end where the second goes on.
      obtain ⟨-, rfl⟩ := ih y h hr.operand Level.ends_operand
      exact absurd hr Level.not_ends_chain
  | more x inverse rest ih ihrest =>
    cases y with
    | last y =>
      simp only [chars, List.append_assoc, List.cons_append] at h
      obtain ⟨-, rfl⟩ := ih y h Level.ends_operand hs.operand
      exact absurd hs Level.not_ends_chain
    | more y inverse' rest' =>
      simp only [chars, List.append_assoc, List.cons_append] at h
      obtain ⟨rfl, hmore⟩ := ih y h Level.ends_operand Level.ends_operand
      simp only [List.cons.injEq, true_and] at hmore
      obtain ⟨hsign, hrest⟩ := hmore
      obtain rfl := Level.sign_inj hsign
      obtain ⟨rfl, rfl⟩ := ihrest rest' hrest hr hs
      exact ⟨rfl, rfl⟩

end Phrase

end TensorGraph
