import Mathlib.Data.List.Chain
import TensorGraph.Formula.Token
import TensorGraph.Proofs.Sequence

/-!
# Tokens and their texts

`Lexes` says how a text splits into tokens without saying how it is scanned: whitespace stands between tokens, and a
token takes the longest text that any token has there. Main statements: `scan_iff_lexes`, scanning finds the tokens
of a text exactly when it splits, and `Lexes.unique`, it splits in one way.
-/

namespace TensorGraph

open CharClass PlacedToken

/-! ## Texts of tokens -/

/-- Whether a number continues with `d` after `last`: with a digit, a point, the mark of an exponent, or a sign after
such a mark. -/
def NumberContinues (last d : Char) : Prop :=
  d.isDigit = true ∨ d = '.' ∨ d = 'e' ∨ d = 'E' ∨ ((d = '-' ∨ d = '+') ∧ (last = 'e' ∨ last = 'E'))

/-- The texts that a token can have. -/
inductive Lexeme : List Char → Token → Prop
  | symbol {c : Char} {t : Token} (h : Token.ofChar? c = some t) : Lexeme [c] t
  | number {c : Char} {cs : List Char} (first : c.isDigit = true ∨ c = '.')
      (more : (c :: cs).IsChain NumberContinues) : Lexeme (c :: cs) (.number (c :: cs))
  | name {c : Char} {cs : List Char} (first : startsName c = true) (more : ∀ d ∈ cs, continuesName d = true) :
      Lexeme (c :: cs) (.name (String.ofList (c :: cs)))

/-- Whether no token has a longer text than `text` where `rest` follows it. -/
def Longest (text rest : List Char) : Prop :=
  ∀ further t, further <+: rest → Lexeme (text ++ further) t → further = []

/-- The tokens into which a text splits. -/
inductive Lexes : List Char → List Token → Prop
  | done : Lexes [] []
  | space {c : Char} {cs : List Char} {ts : List Token} (h : isWhitespace c = true) (more : Lexes cs ts) :
      Lexes (c :: cs) ts
  | token {text rest : List Char} {t : Token} {ts : List Token} (h : Lexeme text t) (longest : Longest text rest)
      (more : Lexes rest ts) : Lexes (text ++ rest) (t :: ts)

variable {c : Char} {cs text rest : List Char} {t u : Token} {ts us : List Token}

/-! ## First characters -/

theorem of_ofChar? (h : Token.ofChar? c = some t) :
    isWhitespace c = false ∧ (c.isDigit || c == '.') = false ∧ startsName c = false := by
  unfold Token.ofChar? at h
  split at h <;> first | decide | cases h

theorem toNat_of_isDigit (h : c.isDigit = true) : 48 ≤ c.toNat ∧ c.toNat ≤ 57 := by
  simpa [Char.isDigit, UInt32.le_iff_toNat_le] using h

theorem toNat_of_isAlpha (h : c.isAlpha = true) : 65 ≤ c.toNat ∧ c.toNat ≤ 122 := by
  have h : (decide (65 ≤ c.val ∧ c.val ≤ 90) || (decide (97 ≤ c.val) && decide (c.val ≤ 122))) = true := h
  simp only [Bool.or_eq_true, Bool.and_eq_true, decide_eq_true_eq, UInt32.le_iff_toNat_le] at h
  change (65 ≤ c.toNat ∧ c.toNat ≤ 90) ∨ (97 ≤ c.toNat ∧ c.toNat ≤ 122) at h
  omega

theorem of_isDigit (h : (c.isDigit || c == '.') = true) :
    isWhitespace c = false ∧ Token.ofChar? c = none ∧ startsName c = false := by
  rcases Bool.or_eq_true_iff.1 h with hdigit | hpoint
  · have hrange := toNat_of_isDigit hdigit
    refine ⟨?_, ?_, ?_⟩
    · simp [isWhitespace]
      omega
    · unfold Token.ofChar?
      split <;> first | rfl | exact absurd hrange (by decide)
    · have hname : c ≠ '_' := by
        rintro rfl
        exact absurd hrange (by decide)
      have halpha : ¬ c.isAlpha = true := fun halpha => by
        have := toNat_of_isAlpha halpha
        omega
      simp [startsName, isAlphabetic, hname, halpha]
      omega
  · rw [beq_iff_eq] at hpoint
    subst hpoint
    decide

/-- No whitespace beyond ASCII is alphabetic. -/
theorem alphabeticRanges_whitespace : ∀ n ∈ [0x85, 0xa0, 0x1680, 0x2000, 0x2001, 0x2002, 0x2003, 0x2004, 0x2005,
    0x2006, 0x2007, 0x2008, 0x2009, 0x200a, 0x2028, 0x2029, 0x202f, 0x205f, 0x3000],
    alphabeticRanges.toList.all (fun r => n < r.1 || r.2 < n) = true := by
  decide +kernel

theorem isWhitespace_of_startsName (h : startsName c = true) : isWhitespace c = false := by
  rw [← Bool.not_eq_true]
  intro hspace
  simp only [isWhitespace, Bool.or_eq_true, Bool.and_eq_true, decide_eq_true_eq, beq_iff_eq] at hspace
  rcases Bool.or_eq_true_iff.1 h with halpha | hname
  · unfold isAlphabetic at halpha
    split at halpha
    · have := toNat_of_isAlpha halpha
      omega
    · next hhigh =>
      obtain ⟨r, hr, hin⟩ := Array.any_eq_true'.1 halpha
      have hout := List.all_eq_true.1 (alphabeticRanges_whitespace c.toNat (by simp; omega)) r
        (Array.mem_toList_iff.2 hr)
      simp at hin hout
      omega
  · rw [beq_iff_eq] at hname
    subst hname
    exact absurd hspace (by decide)

theorem of_startsName (h : startsName c = true) :
    isWhitespace c = false ∧ Token.ofChar? c = none ∧ (c.isDigit || c == '.') = false := by
  refine ⟨isWhitespace_of_startsName h, Option.eq_none_iff_forall_ne_some.2 fun t ht => ?_, ?_⟩
  · simp [(of_ofChar? ht).2.2] at h
  · rw [← Bool.not_eq_true]
    intro hdigit
    simp [(of_isDigit hdigit).2.2] at h

/-! ## The first character decides -/

theorem lexeme_symbol (h : Token.ofChar? c = some u) : Lexeme (c :: cs) t ↔ cs = [] ∧ t = u := by
  obtain ⟨-, hdigit, hname⟩ := of_ofChar? h
  constructor
  · intro ht
    cases ht with
    | symbol h' => exact ⟨rfl, Option.some.inj (h'.symm.trans h)⟩
    | number first more => simp_all
    | name first more => simp [hname] at first
  · rintro ⟨rfl, rfl⟩
    exact .symbol h

theorem lexeme_number (h : (c.isDigit || c == '.') = true) :
    Lexeme (c :: cs) t ↔ (c :: cs).IsChain NumberContinues ∧ t = .number (c :: cs) := by
  obtain ⟨-, hsymbol, hname⟩ := of_isDigit h
  constructor
  · intro ht
    cases ht with
    | symbol h => simp [hsymbol] at h
    | number first more => exact ⟨more, rfl⟩
    | name first more => simp [hname] at first
  · rintro ⟨more, rfl⟩
    exact .number (by simpa using h) more

theorem lexeme_name (h : startsName c = true) :
    Lexeme (c :: cs) t ↔ (∀ d ∈ cs, continuesName d = true) ∧ t = .name (String.ofList (c :: cs)) := by
  constructor
  · intro ht
    cases ht with
    | symbol h' => simp [(of_ofChar? h').2.2] at h
    | number first more => simp [(of_isDigit (by simpa using first)).2.2] at h
    | name first more => exact ⟨more, rfl⟩
  · rintro ⟨more, rfl⟩
    exact .name h more

/-- How the text of a token begins. -/
theorem Lexeme.first (h : Lexeme text t) : ∃ c cs, text = c :: cs ∧
    ((∃ u, Token.ofChar? c = some u) ∨ (c.isDigit || c == '.') = true ∨ startsName c = true) := by
  cases h with
  | symbol h => exact ⟨_, _, rfl, .inl ⟨_, h⟩⟩
  | number first more => exact ⟨_, _, rfl, .inr (.inl (by simpa using first))⟩
  | name first more => exact ⟨_, _, rfl, .inr (.inr first)⟩

/-- The text of a token says which token it is. -/
theorem Lexeme.unique (ht : Lexeme text t) (hu : Lexeme text u) : t = u := by
  obtain ⟨c, cs, rfl, ⟨v, hc⟩ | hc | hc⟩ := ht.first
  · rw [lexeme_symbol hc] at ht hu
    exact ht.2.trans hu.2.symm
  · rw [lexeme_number hc] at ht hu
    exact ht.2.trans hu.2.symm
  · rw [lexeme_name hc] at ht hu
    exact ht.2.trans hu.2.symm

/-! ## Longest texts -/

/-- A text that can be longer can be longer by one character. -/
theorem Lexeme.step {d : Char} {further : List Char} (h : Lexeme (text ++ d :: further) t) (htext : Lexeme text u) :
    ∃ v, Lexeme (text ++ [d]) v := by
  have hsplit : text ++ d :: further = (text ++ [d]) ++ further := by simp
  obtain ⟨c, cs, rfl, ⟨v, hc⟩ | hc | hc⟩ := htext.first
  · rw [List.cons_append, lexeme_symbol hc] at h
    simp at h
  · rw [hsplit, List.cons_append, List.cons_append, lexeme_number hc] at h
    have hnumeral := h.1
    rw [← List.cons_append] at hnumeral
    exact ⟨_, (lexeme_number hc).2 ⟨hnumeral.left_of_append, rfl⟩⟩
  · rw [List.cons_append, lexeme_name hc] at h
    have hmore : ∀ e ∈ cs ++ [d], continuesName e = true := fun e he => by
      rcases List.mem_append.1 he with he | he
      · exact h.1 e (by simp [he])
      · exact h.1 e (by simp_all)
    exact ⟨_, (lexeme_name hc).2 ⟨hmore, rfl⟩⟩

theorem longest_iff (h : Lexeme text t) :
    Longest text rest ↔ ∀ d ∈ rest.head?, ∀ u, ¬ Lexeme (text ++ [d]) u := by
  constructor
  · intro hlongest d hd u hu
    obtain ⟨ds, rfl⟩ := List.head?_eq_some_iff.1 hd
    exact absurd (hlongest [d] u (by simp) hu) (by simp)
  · intro hnext further u hprefix hu
    cases further with
    | nil => rfl
    | cons d further =>
      obtain ⟨v, hv⟩ := hu.step h
      obtain ⟨tail, rfl⟩ := hprefix
      exact absurd hv (hnext d rfl v)

theorem longest_symbol (h : Token.ofChar? c = some t) : Longest [c] rest := by
  rw [longest_iff (.symbol h)]
  intro d _ u hu
  simp [lexeme_symbol h] at hu

theorem longest_number (hc : (c.isDigit || c == '.') = true) (hcs : (c :: cs).IsChain NumberContinues) :
    Longest (c :: cs) rest ↔ ∀ d ∈ rest.head?, ¬ NumberContinues ((c :: cs).getLast (by simp)) d := by
  rw [longest_iff ((lexeme_number hc).2 ⟨hcs, rfl⟩)]
  refine forall₂_congr fun d _ => ?_
  simp only [List.cons_append, lexeme_number hc]
  rw [← List.cons_append, List.isChain_append]
  simp [hcs, List.getLast?_eq_getLast_of_ne_nil]

theorem longest_name (hc : startsName c = true) (hcs : ∀ d ∈ cs, continuesName d = true) :
    Longest (c :: cs) rest ↔ ∀ d ∈ rest.head?, continuesName d = false := by
  rw [longest_iff ((lexeme_name hc).2 ⟨hcs, rfl⟩)]
  refine forall₂_congr fun d _ => ?_
  rw [← Bool.not_eq_true]
  constructor
  · intro h hd
    exact h _ ((lexeme_name hc).2 ⟨by simpa [or_imp, forall_and, hd] using hcs, rfl⟩)
  · exact fun h u hu => h (((lexeme_name hc).1 hu).1 d (by simp))

/-! ## Split texts -/

theorem continuesNumber_iff {last d : Char} : continuesNumber last d = true ↔ NumberContinues last d := by
  simp [continuesNumber, NumberContinues, or_assoc]

/-- The split of a number is the only one into characters that continue it and a rest that does not. -/
theorem splitNumber_eq {last : Char} {taken : List Char} (htaken : (last :: taken).IsChain NumberContinues)
    (hrest : ∀ d ∈ rest.head?, ¬ NumberContinues ((last :: taken).getLast (by simp)) d) :
    splitNumber last (taken ++ rest) = (taken, rest) := by
  induction taken generalizing last with
  | nil =>
    cases rest with
    | nil => rfl
    | cons d rest =>
      have : ¬ continuesNumber last d = true := by simpa [continuesNumber_iff] using hrest
      simp [splitNumber, this]
  | cons d taken ih =>
    obtain ⟨hd, htaken⟩ := List.isChain_cons_cons.1 htaken
    have hrest : ∀ e ∈ rest.head?, ¬ NumberContinues ((d :: taken).getLast (by simp)) e := by simpa using hrest
    simp [splitNumber, continuesNumber_iff.2 hd, ih htaken hrest]

theorem exists_splitNumber (last : Char) (cs : List Char) : ∃ taken rest, cs = taken ++ rest ∧
    (last :: taken).IsChain NumberContinues ∧
    ∀ d ∈ rest.head?, ¬ NumberContinues ((last :: taken).getLast (by simp)) d := by
  induction cs generalizing last with
  | nil => exact ⟨[], [], rfl, by simp, by simp⟩
  | cons d cs ih =>
    by_cases hd : NumberContinues last d
    · obtain ⟨taken, rest, rfl, htaken, hrest⟩ := ih d
      exact ⟨d :: taken, rest, rfl, List.isChain_cons_cons.2 ⟨hd, htaken⟩, by simpa using hrest⟩
    · exact ⟨[], d :: cs, rfl, by simp, by simpa using hd⟩

theorem splitName_eq {taken : List Char} (htaken : ∀ d ∈ taken, continuesName d = true)
    (hrest : ∀ d ∈ rest.head?, continuesName d = false) : splitName (taken ++ rest) = (taken, rest) := by
  have htake : rest.takeWhile continuesName = [] := by cases rest <;> simp_all
  have hdrop : rest.dropWhile continuesName = rest := by cases rest <;> simp_all
  rw [splitName, List.takeWhile_append_of_pos htaken, List.dropWhile_append_of_pos htaken, htake, hdrop,
    List.append_nil]

/-! ## Scanned texts -/

theorem scan_space (h : isWhitespace c = true) (offset : Nat) :
    scan offset (c :: cs) = scan (offset + c.utf8Size) cs := by
  rw [scan.eq_def]
  simp [h]

/-- Scanning takes the longest text of a token. -/
theorem scan_lexeme (ht : Lexeme text t) (hlongest : Longest text rest) (offset : Nat) :
    ∃ next, scan offset (text ++ rest) = (scan next rest).map (⟨offset, t⟩ :: ·) := by
  obtain ⟨c, cs, rfl, ⟨u, hc⟩ | hc | hc⟩ := ht.first
  · obtain ⟨rfl, rfl⟩ := (lexeme_symbol hc).1 ht
    rw [List.cons_append, scan.eq_def]
    simp only [(of_ofChar? hc).1, hc]
    exact ⟨_, rfl⟩
  · obtain ⟨hcs, rfl⟩ := (lexeme_number hc).1 ht
    have hsplit := splitNumber_eq hcs ((longest_number hc hcs).1 hlongest)
    rw [List.cons_append, scan.eq_def]
    simp only [(of_isDigit hc).1, (of_isDigit hc).2.1, hc, hsplit]
    exact ⟨_, rfl⟩
  · obtain ⟨hcs, rfl⟩ := (lexeme_name hc).1 ht
    have hsplit := splitName_eq hcs ((longest_name hc hcs).1 hlongest)
    rw [List.cons_append, scan.eq_def]
    simp only [(of_startsName hc).1, (of_startsName hc).2.1, (of_startsName hc).2.2, hc, hsplit]
    exact ⟨_, rfl⟩

/-- A text begins with whitespace, with the longest text of a token, or with neither, which scanning refuses. -/
theorem scan_cases (c : Char) (cs : List Char) : isWhitespace c = true ∨
    (∃ text rest t, c :: cs = text ++ rest ∧ Lexeme text t ∧ Longest text rest) ∨
    ∀ offset, ∃ e, scan offset (c :: cs) = .error e := by
  by_cases hspace : isWhitespace c = true
  · exact .inl hspace
  refine .inr ?_
  cases hsymbol : Token.ofChar? c with
  | some t => exact .inl ⟨[c], cs, t, rfl, .symbol hsymbol, longest_symbol hsymbol⟩
  | none =>
    by_cases hdigit : (c.isDigit || c == '.') = true
    · obtain ⟨taken, rest, rfl, htaken, hrest⟩ := exists_splitNumber c cs
      exact .inl ⟨c :: taken, rest, _, rfl, (lexeme_number hdigit).2 ⟨htaken, rfl⟩,
        (longest_number hdigit htaken).2 hrest⟩
    by_cases hname : startsName c = true
    · have htaken : ∀ d ∈ cs.takeWhile continuesName, continuesName d = true :=
        List.all_eq_true.1 List.all_takeWhile
      refine .inl ⟨c :: cs.takeWhile continuesName, cs.dropWhile continuesName, _, ?_,
        (lexeme_name hname).2 ⟨htaken, rfl⟩, (longest_name hname htaken).2 fun d hd => ?_⟩
      · rw [List.cons_append, List.takeWhile_append_dropWhile]
      · have := List.head?_dropWhile_not continuesName cs
        rw [Option.mem_def.1 hd] at this
        simpa using this
    · refine .inr fun offset => ⟨⟨offset, .unexpectedChar c⟩, ?_⟩
      rw [scan.eq_def]
      simp [hspace, hsymbol, hdigit, hname]

/-- The tokens without their offsets. -/
def tokensOf (ts : List PlacedToken) : List Token := ts.map PlacedToken.token

theorem lexes_of_scan {offset : Nat} {placed : List PlacedToken} (h : scan offset cs = .ok placed) :
    Lexes cs (tokensOf placed) := by
  induction hlength : cs.length using Nat.strong_induction_on generalizing cs offset placed with
  | _ n ih =>
    cases cs with
    | nil =>
      rw [scan.eq_def] at h
      cases h
      exact .done
    | cons c cs =>
      rcases scan_cases c cs with hspace | ⟨text, rest, t, heq, ht, hlongest⟩ | herror
      · rw [scan_space hspace] at h
        exact .space hspace (ih _ (by simp [← hlength]) h rfl)
      · obtain ⟨next, hscan⟩ := scan_lexeme ht hlongest offset
        rw [heq, hscan] at h
        obtain ⟨more, hmore, rfl⟩ := map_eq_ok.1 h
        have hshort : rest.length < n := by
          obtain ⟨_, _, rfl, -⟩ := ht.first
          have := congrArg List.length heq
          simp only [List.length_append, List.length_cons] at this hlength
          omega
        rw [heq]
        exact .token ht hlongest (ih _ hshort hmore rfl)
      · obtain ⟨e, he⟩ := herror offset
        rw [he] at h
        cases h

theorem scan_of_lexes (h : Lexes cs ts) (offset : Nat) : ∃ placed, scan offset cs = .ok placed ∧ tokensOf placed = ts := by
  induction h generalizing offset with
  | done => exact ⟨[], by rw [scan.eq_def], rfl⟩
  | space h more ih =>
    obtain ⟨placed, hscan, rfl⟩ := ih (offset + _)
    exact ⟨placed, by rw [scan_space h, hscan], rfl⟩
  | token h longest more ih =>
    obtain ⟨next, hfirst⟩ := scan_lexeme h longest offset
    obtain ⟨placed, hscan, rfl⟩ := ih next
    exact ⟨_, by rw [hfirst, hscan]; rfl, rfl⟩

/-- Scanning finds the tokens of a text exactly when it splits into tokens. -/
theorem scan_iff_lexes (offset : Nat) : (∃ placed, scan offset cs = .ok placed ∧ tokensOf placed = ts) ↔ Lexes cs ts :=
  ⟨fun ⟨_, hscan, heq⟩ => heq ▸ lexes_of_scan hscan, fun h => scan_of_lexes h offset⟩

/-- A text splits into tokens in one way. -/
theorem Lexes.unique (hts : Lexes cs ts) (hus : Lexes cs us) : ts = us := by
  obtain ⟨placed, hscan, rfl⟩ := scan_of_lexes hts 0
  obtain ⟨placed', hscan', rfl⟩ := scan_of_lexes hus 0
  rw [hscan] at hscan'
  cases hscan'
  rfl

end TensorGraph
