import Mathlib.Data.List.TakeWhile
import TensorGraph.Formula.InputSpec
import TensorGraph.Proofs.Size.Phrases

/-!
# Written declarations

The texts by which an input is declared: its name, a colon, its type, and its dimensions between brackets, each with any
whitespace around it. Names are identifiers, so that none of the characters that end a part of the text is in them, and
none is read as a number. Main statement: `InputSpec.ofString?_written`, each written declaration is read as what it
declares, and what is read from any text can be declared.
-/

namespace TensorGraph

open CharClass

/-! ## Whitespace -/

/-- Whether a text is another one with whitespace around it. -/
def Spaced (core text : List Char) : Prop :=
  ∃ before after, (∀ c ∈ before, isWhitespace c = true) ∧ (∀ c ∈ after, isWhitespace c = true) ∧
    text = before ++ core ++ after

variable {c : Char} {cs core text : List Char}

theorem numericRanges_whitespace : ∀ n ∈ [0x85, 0xa0, 0x1680, 0x2000, 0x2001, 0x2002, 0x2003, 0x2004, 0x2005, 0x2006,
    0x2007, 0x2008, 0x2009, 0x200a, 0x2028, 0x2029, 0x202f, 0x205f, 0x3000],
    numericRanges.toList.all (fun r => n < r.1 || r.2 < n) = true := by
  decide +kernel

/-- No character of an identifier is whitespace. -/
theorem isWhitespace_of_continuesName (h : continuesName c = true) : isWhitespace c = false := by
  rw [← Bool.not_eq_true]
  intro hspace
  have hstart : startsName c = false := by
    rw [← Bool.not_eq_true]
    intro hstart
    simp [isWhitespace_of_startsName hstart] at hspace
  simp only [isWhitespace, Bool.or_eq_true, Bool.and_eq_true, decide_eq_true_eq, beq_iff_eq] at hspace
  simp only [startsName, Bool.or_eq_false_iff] at hstart
  obtain ⟨halpha, hmark⟩ := hstart
  simp only [continuesName, hmark, Bool.or_false, isAlphanumeric] at h
  unfold isAlphabetic at halpha
  split at h
  · next hlow =>
    rw [if_pos hlow] at halpha
    simp only [Char.isAlphanum, halpha, Bool.false_or] at h
    have hdigit := toNat_of_isDigit h
    omega
  · next hhigh =>
    rw [if_neg hhigh] at halpha
    rw [halpha, Bool.false_or] at h
    obtain ⟨r, hr, hin⟩ := Array.any_eq_true'.1 h
    have hout := List.all_eq_true.1 (numericRanges_whitespace c.toNat (by simp; omega)) r (Array.mem_toList_iff.2 hr)
    simp at hin hout
    omega

theorem dropWhile_of_forall {p : Char → Bool} (h : ∀ c ∈ cs, p c = false) : cs.dropWhile p = cs := by
  cases cs with
  | nil => rfl
  | cons c cs => simp [h c (by simp)]

theorem mem_dropWhile {p : Char → Bool} (hc : c ∈ cs) (hp : p c = false) : c ∈ cs.dropWhile p := by
  induction cs with
  | nil => cases hc
  | cons d cs ih =>
    rw [List.dropWhile_cons]
    split
    · next hd =>
      rcases List.mem_cons.1 hc with rfl | hc
      · simp [hp] at hd
      · exact ih hc
    · exact hc

theorem mem_trimmed (hc : c ∈ cs) (hspace : isWhitespace c = false) : c ∈ trimmed cs := by
  unfold trimmed
  rw [List.mem_reverse]
  apply mem_dropWhile _ hspace
  rw [List.mem_reverse]
  exact mem_dropWhile hc hspace

/-- Whitespace around a text that has none is dropped. -/
theorem trimmed_spaced (h : Spaced core text) (hcore : ∀ c ∈ core, continuesName c = true) : trimmed text = core := by
  obtain ⟨before, after, hbefore, hafter, rfl⟩ := h
  have htight : ∀ c ∈ core, isWhitespace c = false := fun c hc => isWhitespace_of_continuesName (hcore c hc)
  unfold trimmed
  rw [List.append_assoc, List.dropWhile_append_of_pos hbefore]
  cases core with
  | nil => simp [List.dropWhile_eq_nil_iff.2 hafter]
  | cons c cs =>
    have hc : isWhitespace c = false := htight c (by simp)
    have hlast : ∀ d ∈ (c :: cs).reverse, isWhitespace d = false := fun _ hd => htight _ (List.mem_reverse.1 hd)
    rw [List.cons_append, List.dropWhile_cons_of_neg (by simp [hc]), ← List.cons_append, List.reverse_append,
      List.dropWhile_append_of_pos (by simpa using hafter), dropWhile_of_forall hlast, List.reverse_reverse]

/-- A character that stands for itself is not in a text with whitespace around it. -/
theorem Spaced.notMem (h : Spaced core text) (hcore : ∀ c ∈ core, continuesName c = true)
    (hspace : isWhitespace c = false) (hname : continuesName c = false) : c ∉ text := by
  obtain ⟨before, after, hbefore, hafter, rfl⟩ := h
  simp only [List.mem_append, not_or]
  refine ⟨⟨?_, ?_⟩, ?_⟩
  · intro hmem
    simp [hbefore c hmem] at hspace
  · intro hmem
    simp [hcore c hmem] at hname
  · intro hmem
    simp [hafter c hmem] at hspace

/-! ## Parts of a text -/

theorem cutAtChar?_append {before : List Char} (h : c ∉ before) (after : List Char) :
    cutAtChar? c (before ++ c :: after) = some (before, after) := by
  induction before with
  | nil => simp [cutAtChar?]
  | cons d before ih =>
    rw [List.mem_cons, not_or] at h
    rw [List.cons_append, cutAtChar?, if_neg (Ne.symm h.1), ih h.2]
    rfl

theorem cutAtChar?_of_notMem (h : c ∉ text) : cutAtChar? c text = none := by
  induction text with
  | nil => rfl
  | cons d text ih =>
    rw [List.mem_cons, not_or] at h
    rw [cutAtChar?, if_neg (Ne.symm h.1), ih h.2]
    rfl

theorem splitAtChar_append {part : List Char} (h : c ∉ part) {rest : List Char} {first : List Char}
    {parts : List (List Char)} (hrest : splitAtChar c rest = first :: parts) :
    splitAtChar c (part ++ rest) = (part ++ first) :: parts := by
  induction part with
  | nil => exact hrest
  | cons d part ih =>
    rw [List.mem_cons, not_or] at h
    rw [List.cons_append, splitAtChar, ih h.2]
    simp [Ne.symm h.1]

theorem splitAtChar_intercalate {parts : List (List Char)} (hne : parts ≠ []) (h : ∀ part ∈ parts, c ∉ part) :
    splitAtChar c ([c].intercalate parts) = parts := by
  induction parts with
  | nil => exact absurd rfl hne
  | cons part parts ih =>
    obtain ⟨hpart, hparts⟩ := List.forall_mem_cons.1 h
    cases parts with
    | nil =>
      have hnil : splitAtChar c [] = [[]] := rfl
      rw [List.intercalate_singleton]
      simpa using splitAtChar_append hpart hnil
    | cons next parts =>
      rw [List.intercalate_cons_cons, List.append_assoc]
      have hrest : splitAtChar c ([c] ++ [c].intercalate (next :: parts)) = [] :: next :: parts := by
        rw [List.singleton_append, splitAtChar, ih (by simp) hparts]
        simp
      simpa using splitAtChar_append hpart hrest

/-! ## Sizes and names -/

theorem count?_toDigits {n : Nat} (h : n < Nat.pow 2 64) : Numeral.count? (Nat.toDigits 10 n) = some n := by
  have hdigit : ∀ c ∈ Nat.toDigits 10 n, c.isDigit = true :=
    fun c hc => Nat.isDigit_of_mem_toDigits (by decide) (by decide) hc
  have hdigits : Numeral.digits? (Nat.toDigits 10 n) = some n := by
    have hvalue : Numeral.ofDigits (Nat.toDigits 10 n) = n := Nat.ofDigitChars_ten_toDigits
    rw [Numeral.digits?, if_pos, hvalue]
    simpa [Nat.toDigits_ne_nil] using hdigit
  unfold Numeral.count?
  split
  · next rest hplus =>
    have hsign := hdigit '+' (by simp [hplus])
    exact absurd hsign (by decide)
  · simp [hdigits, h]

/-- No identifier is read as a number. -/
theorem count?_of_isIdentifier (h : isIdentifier cs = true) : Numeral.count? cs = none := by
  obtain ⟨c, ds, rfl, hc, -⟩ := isIdentifier_iff.1 h
  obtain ⟨-, hsymbol, hdigit⟩ := of_startsName hc
  unfold Numeral.count?
  split
  · next rest hplus =>
    cases hplus
    exact absurd hsymbol (by decide)
  · simp only [Bool.or_eq_false_iff] at hdigit
    simp [Numeral.digits?, hdigit.1]

namespace Dimension

/-- Whether a dimension can be declared: sizes are below `2 ^ 64`, and names are identifiers. -/
def Declarable : Dimension → Prop
  | .fixed size => size < Nat.pow 2 64
  | .symbolic name => isIdentifier name.toList = true

instance : (d : Dimension) → Decidable d.Declarable
  | .fixed size => inferInstanceAs (Decidable (size < Nat.pow 2 64))
  | .symbolic name => inferInstanceAs (Decidable (isIdentifier name.toList = true))

variable {d : Dimension}

theorem text_run (h : d.Declarable) : ∀ c ∈ d.text.toList, continuesName c = true := by
  cases d with
  | fixed size => simpa [text] using toDigits_run size
  | symbolic name => exact isIdentifier_run h

theorem text_ne_nil (h : d.Declarable) : d.text.toList ≠ [] := by
  cases d with
  | fixed size => simp [text]
  | symbolic name =>
    intro hnil
    change name.toList = [] at hnil
    simp [Declarable, hnil, isIdentifier] at h

end Dimension

namespace InputSpec

/-- Whether an input can be declared. -/
structure Declarable (spec : InputSpec) : Prop where
  name : isIdentifier spec.name.toList = true
  dimensions : ∀ dims, spec.shape = some dims → ∀ d ∈ dims, d.Declarable

/-- The texts by which an input is declared. -/
inductive Written : InputSpec → List Char → Prop
  | unshaped {name : String} {type : ElementType} {nameText typeText : List Char} (hname : Spaced name.toList nameText)
      (htype : Spaced type.text.toList typeText) : Written ⟨name, type, none⟩ (nameText ++ ':' :: typeText)
  | shaped {name : String} {type : ElementType} {dims : List Dimension} {nameText typeText : List Char}
      {dimTexts : List (List Char)} (hname : Spaced name.toList nameText) (htype : Spaced type.text.toList typeText)
      (hdims : List.Forall₂ (fun d dimText => Spaced d.text.toList dimText) dims dimTexts) :
      Written ⟨name, type, some dims⟩
        ((nameText ++ ':' :: typeText) ++ '[' :: ([','].intercalate dimTexts ++ [']']))

/-! ## What is written is read -/

theorem type_run (type : ElementType) : ∀ c ∈ type.text.toList, continuesName c = true := by
  cases type <;> exact List.all_eq_true.1 (by decide)

theorem readType_spaced {type : ElementType} (h : Spaced type.text.toList text) : readType text = .ok type := by
  rw [readType, trimmed_spaced h (type_run type), String.ofList_toList]
  cases type <;> rfl

theorem readDimension_spaced {d : Dimension} (hd : d.Declarable) (h : Spaced d.text.toList text) :
    readDimension text = .ok d := by
  rw [readDimension, trimmed_spaced h (Dimension.text_run hd)]
  cases d with
  | fixed size =>
    have hdigits : (Dimension.fixed size).text.toList = Nat.toDigits 10 size := by simp [Dimension.text]
    simp only [hdigits, count?_toDigits hd]
  | symbolic name =>
    have hname : (Dimension.symbolic name).text.toList = name.toList := rfl
    simp only [hname, count?_of_isIdentifier hd, String.ofList_toList]
    exact if_pos hd

theorem mapM_readDimension {dims : List Dimension} {dimTexts : List (List Char)} (hdims : ∀ d ∈ dims, d.Declarable)
    (h : List.Forall₂ (fun d dimText => Spaced d.text.toList dimText) dims dimTexts) :
    dimTexts.mapM readDimension = .ok dims := by
  induction h with
  | nil => rfl
  | cons hd _ ih =>
    obtain ⟨hfirst, hrest⟩ := List.forall_mem_cons.1 hdims
    rw [List.mapM_cons, readDimension_spaced hfirst hd, ih hrest]
    rfl

theorem readDimensions_intercalate {dims : List Dimension} {dimTexts : List (List Char)}
    (hdims : ∀ d ∈ dims, d.Declarable)
    (h : List.Forall₂ (fun d dimText => Spaced d.text.toList dimText) dims dimTexts) :
    readDimensions ([','].intercalate dimTexts) = .ok dims := by
  cases h with
  | nil => rfl
  | @cons d dimText dims dimTexts hd hrest =>
    have hall := List.Forall₂.cons (R := fun d dimText => Spaced (Dimension.text d).toList dimText) hd hrest
    -- The first dimension has a character, so that the brackets are not empty.
    obtain ⟨c, hc⟩ := List.exists_mem_of_ne_nil _ (Dimension.text_ne_nil (hdims d (by simp)))
    have hspace := isWhitespace_of_continuesName (Dimension.text_run (hdims d (by simp)) c hc)
    have hmem : c ∈ [','].intercalate (dimText :: dimTexts) := by
      obtain ⟨before, after, -, -, rfl⟩ := hd
      cases dimTexts <;> simp [hc]
    have hnonempty : (trimmed ([','].intercalate (dimText :: dimTexts))).isEmpty = false :=
      List.isEmpty_eq_false_iff.2 (List.ne_nil_of_mem (mem_trimmed hmem hspace))
    rw [readDimensions, hnonempty, splitAtChar_intercalate (by simp)]
    · exact mapM_readDimension hdims hall
    · intro part hpart
      obtain ⟨e, he, hspaced⟩ := exists_of_forall₂ hall hpart
      exact hspaced.notMem (Dimension.text_run (hdims e he)) (by decide) (by decide)

theorem readShape_append (dims : List Char) : readShape (dims ++ [']']) = readDimensions dims := by
  simp [readShape]

variable {spec : InputSpec} {name nameText typeText : List Char} {type : ElementType} {d : Dimension}
  {dims : List Dimension}

/-- Reads what stands before the shape. -/
def readHead (head : List Char) (shape : Option (List Dimension)) : Except SpecFault InputSpec :=
  let parts := match cutAtChar? ':' head with
    | some (name, type) => (readType type).map (name, ·)
    | none => .ok (head, .float32)
  parts.bind fun (name, type) =>
    if isIdentifier (trimmed name) then .ok ⟨String.ofList (trimmed name), type, shape⟩ else .error .invalidName

theorem readHead_eq (head : List Char) (shape : Option (List Dimension)) : readHead head shape = (do
    let (name, type) ← match cutAtChar? ':' head with
      | some (name, type) => do pure (name, ← readType type)
      | none => pure (head, ElementType.float32)
    let name := trimmed name
    if isIdentifier name then return { name := String.ofList name, type, shape }
    else throw SpecFault.invalidName) := by
  unfold readHead
  cases cutAtChar? ':' head with
  | none => rfl
  | some parts =>
    obtain ⟨name, type⟩ := parts
    dsimp only
    cases readType type <;> rfl

theorem readChars_eq (text : List Char) : readChars text = match cutAtChar? '[' text with
    | some (head, rest) => (readShape rest).bind fun dims => readHead head (some dims)
    | none => readHead text none := by
  unfold readChars
  cases cutAtChar? '[' text with
  | none => exact (readHead_eq text none).symm
  | some parts =>
    obtain ⟨head, rest⟩ := parts
    dsimp only
    cases readShape rest with
    | error e => rfl
    | ok dims => exact (readHead_eq head (some dims)).symm

section

variable (hid : isIdentifier name = true) (hname : Spaced name nameText) (htype : Spaced type.text.toList typeText)

include hid hname htype

theorem readHead_written (shape : Option (List Dimension)) :
    readHead (nameText ++ ':' :: typeText) shape = .ok ⟨String.ofList name, type, shape⟩ := by
  have hrun := isIdentifier_run hid
  have hcolon : ':' ∉ nameText := hname.notMem hrun (by decide) (by decide)
  simp only [readHead, cutAtChar?_append hcolon, readType_spaced htype, Except.map, Except.bind,
    trimmed_spaced hname hrun, hid, if_true]

theorem bracket_notMem_head : '[' ∉ nameText ++ ':' :: typeText := by
  have hfirst : '[' ∉ nameText := hname.notMem (isIdentifier_run hid) (by decide) (by decide)
  have hsecond : '[' ∉ typeText := htype.notMem (type_run type) (by decide) (by decide)
  simp [hfirst, hsecond]

end

theorem readChars_written (hspec : spec.Declarable) (h : spec.Written text) : readChars text = .ok spec := by
  rw [readChars_eq]
  cases h with
  | unshaped hname htype =>
    rw [cutAtChar?_of_notMem (bracket_notMem_head hspec.name hname htype)]
    simpa using readHead_written hspec.name hname htype none
  | shaped hname htype hdims =>
    rw [cutAtChar?_append (bracket_notMem_head hspec.name hname htype)]
    dsimp only
    rw [readShape_append, readDimensions_intercalate (hspec.dimensions _ rfl) hdims]
    simpa [Except.bind] using readHead_written hspec.name hname htype _

/-! ## What is read can be declared -/

theorem lt_of_count? {n : Nat} (h : Numeral.count? cs = some n) : n < Nat.pow 2 64 := by
  unfold Numeral.count? at h
  simpa using (Option.filter_eq_some_iff.1 h).2

theorem declarable_of_readDimension (h : readDimension text = .ok d) : d.Declarable := by
  unfold readDimension at h
  dsimp only at h
  split at h
  · next size hsize =>
    cases h
    exact lt_of_count? hsize
  · split at h
    · next hid =>
      cases h
      simpa [Dimension.Declarable] using hid
    · cases h

theorem declarable_of_readDimensions (h : readDimensions text = .ok dims) : ∀ d ∈ dims, d.Declarable := by
  unfold readDimensions at h
  split at h
  · cases h
    nofun
  · intro d hd
    have hread := mapM_eq_ok.1 h
    have hmem : some d ∈ dims.map some := List.mem_map_of_mem hd
    rw [← hread] at hmem
    obtain ⟨part, -, hpart⟩ := List.mem_map.1 hmem
    exact declarable_of_readDimension (toOption_eq_some.1 hpart)

theorem declarable_of_readShape (h : readShape text = .ok dims) : ∀ d ∈ dims, d.Declarable := by
  unfold readShape at h
  split at h
  · exact declarable_of_readDimensions h
  · cases h

theorem declarable_of_readHead {head : List Char} {shape : Option (List Dimension)}
    (hshape : ∀ dims, shape = some dims → ∀ d ∈ dims, d.Declarable) (h : readHead head shape = .ok spec) :
    spec.Declarable := by
  obtain ⟨⟨name, type⟩, -, h⟩ := bind_eq_ok.1 h
  dsimp only at h
  split at h
  · next hid =>
    cases h
    exact ⟨by simpa using hid, hshape⟩
  · cases h

theorem declarable_of_readChars (h : readChars text = .ok spec) : spec.Declarable := by
  rw [readChars_eq] at h
  split at h
  · obtain ⟨dims, hdims, h⟩ := bind_eq_ok.1 h
    apply declarable_of_readHead _ h
    intro dims' heq
    cases heq
    exact declarable_of_readShape hdims
  · apply declarable_of_readHead _ h
    intro dims hdims
    cases hdims

/-- Whatever whitespace is put around its parts, a written declaration is read as what it declares. What is read from any
text can be declared: its names are identifiers. -/
theorem ofString?_written :
    (∀ (spec : InputSpec) (text : String), spec.Declarable → spec.Written text.toList → ofString? text = .ok spec) ∧
    ∀ (text : String) (spec : InputSpec), ofString? text = .ok spec → spec.Declarable := by
  constructor
  · intro spec text hspec htext
    exact mapError_eq_ok.2 (readChars_written hspec htext)
  · intro text spec h
    exact declarable_of_readChars (mapError_eq_ok.1 h)

/-- A batch of three numbers each. -/
theorem ofString?_written_batch : (⟨"x", .int32, some [.symbolic "batch", .fixed 3]⟩ : InputSpec).Declarable ∧
    (⟨"x", .int32, some [.symbolic "batch", .fixed 3]⟩ : InputSpec).Written " x: i32 [ batch,\t3 ]".toList ∧
    ofString? " x: i32 [ batch,\t3 ]" = .ok ⟨"x", .int32, some [.symbolic "batch", .fixed 3]⟩ := by
  have hspec : (⟨"x", .int32, some [.symbolic "batch", .fixed 3]⟩ : InputSpec).Declarable := by
    refine ⟨by decide, ?_⟩
    intro dims hdims
    cases hdims
    decide
  have htext : (⟨"x", .int32, some [.symbolic "batch", .fixed 3]⟩ : InputSpec).Written
      " x: i32 [ batch,\t3 ]".toList := by
    have hspace : ∀ c ∈ [' '], isWhitespace c = true := List.all_eq_true.1 (by decide)
    have htab : ∀ c ∈ ['\t'], isWhitespace c = true := List.all_eq_true.1 (by decide)
    have hnone : ∀ c ∈ [], isWhitespace c = true := List.forall_mem_nil _
    refine @Written.shaped _ _ _ [' ', 'x'] [' ', 'i', '3', '2', ' '] [" batch".toList, "\t3 ".toList] ?_ ?_
      (.cons ?_ (.cons ?_ .nil))
    · exact ⟨[' '], [], hspace, hnone, rfl⟩
    · exact ⟨[' '], [' '], hspace, hspace, rfl⟩
    · exact ⟨[' '], [], hspace, hnone, rfl⟩
    · exact ⟨['\t'], [' '], htab, hspace, rfl⟩
  exact ⟨hspec, htext, ofString?_written.1 _ _ hspec htext⟩

end InputSpec

end TensorGraph
