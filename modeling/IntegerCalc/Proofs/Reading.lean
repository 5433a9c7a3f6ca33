import IntegerCalc.Token.Reading
import IntegerCalc.Token.Spelling
import Mathlib.Data.List.SplitBy

/-! The tokens of a text. While a text is read, the open literal is the value of the digits
since the last symbol, whatever other characters stand between them, and what is closed are
the tokens of the significant characters before. Main statement: the tokens of a text are
those that its significant characters spell. -/

namespace IntegerCalc

open Spelling

/-! ### Single characters -/

theorem Token.ofSymbol?_eq_none {c : Char} : ofSymbol? c = none ↔ c ∉ "+-*/()".toList := by
  unfold ofSymbol?
  split <;> simp_all

theorem Token.not_isDigit_of_ofSymbol? {c : Char} {t : Token} (h : ofSymbol? c = some t) :
    c.isDigit = false := by
  have hc : c ∈ "+-*/()".toList := by
    by_contra hn
    rw [ofSymbol?_eq_none.2 hn] at h
    contradiction
  have hall : "+-*/()".toList.all (!·.isDigit) = true := by decide
  simpa using List.all_eq_true.1 hall c hc

theorem Spelling.isSignificant_iff {c : Char} :
    isSignificant c = true ↔ c.isDigit = true ∨ ∃ t, Token.ofSymbol? c = some t := by
  rw [← Option.isSome_iff_exists, Option.isSome_iff_ne_none, Ne, Token.ofSymbol?_eq_none, not_not]
  simp [isSignificant]

theorem Glyph.ofChar_of_insignificant {c : Char} (h : isSignificant c = false) :
    ofChar c = if Text.isBlank c then .blank else .stray := by
  obtain ⟨hd, hnone⟩ := not_or.1 (mt isSignificant_iff.2 (Bool.eq_false_iff.1 h))
  have ht : Token.ofSymbol? c = none :=
    Option.eq_none_iff_forall_ne_some.2 fun t ht => hnone ⟨t, ht⟩
  simp only [ofChar, hd, ht]
  rfl

namespace Scan

variable {c : Char} {t : Token}

theorem step_digit (s : Scan) (h : c.isDigit = true) :
    (s.step c).literal = some (10 * s.literal.getD 0 + (c.toNat - '0'.toNat)) ∧
      (s.step c).tokens = s.tokens := by
  simp [step, Glyph.ofChar, h]

theorem step_symbol (s : Scan) (h : Token.ofSymbol? c = some t) :
    (s.step c).literal = none ∧ (s.step c).tokens = t :: s.closed := by
  simp [step, Glyph.ofChar, h, Token.not_isDigit_of_ofSymbol? h]

theorem step_insignificant (s : Scan) (h : isSignificant c = false) :
    (s.step c).literal = s.literal ∧ (s.step c).tokens = s.tokens := by
  rw [step, Glyph.ofChar_of_insignificant h]
  cases Text.isBlank c <;> exact ⟨rfl, rfl⟩

end Scan

/-! ### Significant characters -/

namespace Spelling

variable {digits : List Char}

theorem placeValue_append (a b : List Char) :
    placeValue (a ++ b) = placeValue a * 10 ^ b.length + placeValue b := by
  induction a with
  | nil => simp [placeValue]
  | cons c a ih =>
    rw [List.cons_append, placeValue, placeValue, ih, List.length_append, Nat.pow_add, Nat.add_mul,
      Nat.mul_assoc, Nat.add_assoc]

theorem placeValue_append_digit (digits : List Char) (c : Char) :
    placeValue (digits ++ [c]) = 10 * placeValue digits + (c.toNat - '0'.toNat) := by
  simp [placeValue_append, placeValue, Nat.mul_comm]

/-- A symbol on either side separates the tokens. -/
theorem tokensOf_append {a b : List Char}
    (h : ∀ x ∈ a.getLast?, ∀ y ∈ b.head?, (x.isDigit && y.isDigit) = false) :
    tokensOf (a ++ b) = tokensOf a ++ tokensOf b := by
  rw [tokensOf, runs, List.splitBy_append h, List.filterMap_append]
  rfl

theorem tokensOf_symbol {c : Char} {t : Token} (h : Token.ofSymbol? c = some t) :
    tokensOf [c] = [t] := by
  have hruns : runs [c] = [[c]] := rfl
  simp [tokensOf, hruns, tokenOfRun, Token.not_isDigit_of_ofSymbol? h, h]

theorem tokensOf_append_symbol {c : Char} {t : Token} (h : Token.ofSymbol? c = some t)
    (a b : List Char) : tokensOf (a ++ c :: b) = tokensOf a ++ t :: tokensOf b := by
  have hc := Token.not_isDigit_of_ofSymbol? h
  have hright : tokensOf ([c] ++ b) = tokensOf [c] ++ tokensOf b :=
    tokensOf_append (by simp [hc])
  rw [tokensOf_append (by simp [hc]), ← List.singleton_append, hright, tokensOf_symbol h]
  rfl

/-- The literal that digits leave open. -/
def literal? (digits : List Char) : Option Nat :=
  if digits = [] then none else some (placeValue digits)

theorem literal?_append_digit (digits : List Char) (c : Char) :
    literal? (digits ++ [c]) =
      some (10 * (literal? digits).getD 0 + (c.toNat - '0'.toNat)) := by
  have hvalue : (literal? digits).getD 0 = placeValue digits := by
    cases digits <;> rfl
  rw [hvalue, ← placeValue_append_digit]
  simp [literal?]

theorem tokensOf_digits (h : ∀ c ∈ digits, c.isDigit = true) :
    tokensOf digits = ((literal? digits).map fun value => .number value).toList := by
  by_cases hne : digits = []
  · subst hne
    rfl
  · have hruns : runs digits = [digits] := by
      refine List.splitBy_of_isChain hne (List.Pairwise.isChain ?_)
      exact List.pairwise_of_forall_mem_list fun a ha b hb => by simp [h a ha, h b hb]
    have hall : digits.all Char.isDigit = true := List.all_eq_true.2 h
    simp [tokensOf, hruns, tokenOfRun, hall, literal?, hne]

end Spelling

/-! ### Whole texts -/

theorem Scan.closed_eq (s : Scan) :
    s.closed = (s.literal.map fun value => Token.number value).toList ++ s.tokens := by
  unfold closed
  cases s.literal <;> rfl

theorem Scan.closed_reverse (s : Scan) {digits : List Char}
    (hd : ∀ c ∈ digits, c.isDigit = true) (hs : s.literal = literal? digits) :
    s.closed.reverse = s.tokens.reverse ++ tokensOf digits := by
  rw [closed_eq, hs, tokensOf_digits hd, List.reverse_append]
  cases literal? digits <;> rfl

/-- A reading goes on from `digits`, whose value is the open literal, as if they stood right
before the significant characters that follow. -/
theorem Scan.closed_run (s : Scan) (digits cs : List Char)
    (hd : ∀ c ∈ digits, c.isDigit = true) (hs : s.literal = literal? digits) :
    (s.run cs).closed.reverse =
      s.tokens.reverse ++ tokensOf (digits ++ cs.filter isSignificant) := by
  -- A digit joins `digits`; a symbol closes them, so that none are left for what follows.
  induction cs generalizing s digits with
  | nil => rw [run_nil, s.closed_reverse hd hs, List.filter_nil, List.append_nil]
  | cons c cs ih =>
    rw [run_cons]
    by_cases hc : isSignificant c = true
    · rw [List.filter_cons_of_pos hc]
      rcases isSignificant_iff.1 hc with hdigit | ⟨t, ht⟩
      · obtain ⟨hliteral, htokens⟩ := s.step_digit hdigit
        have hmore : ∀ x ∈ digits ++ [c], x.isDigit = true := by
          intro x hx
          rcases List.mem_append.1 hx with hx | hx
          · exact hd x hx
          · rw [List.mem_singleton.1 hx]
            exact hdigit
        have hopen : (s.step c).literal = literal? (digits ++ [c]) := by
          rw [hliteral, hs, literal?_append_digit]
        rw [ih _ _ hmore hopen, htokens, List.append_assoc]
        rfl
      · obtain ⟨hliteral, htokens⟩ := s.step_symbol ht
        rw [ih _ [] (by simp) hliteral, htokens, List.reverse_cons, s.closed_reverse hd hs,
          tokensOf_append_symbol ht]
        simp
    · rw [List.filter_cons_of_neg hc]
      obtain ⟨hliteral, htokens⟩ := s.step_insignificant (Bool.eq_false_iff.2 hc)
      rw [ih _ _ hd (hliteral.trans hs), htokens]

theorem read_tokens (text : String) : (read text).tokens = tokensOf (significant text) :=
  Scan.closed_run {} [] text.toList (by simp) rfl

/-- The tokens of a text are those that its significant characters spell; characters of any
other kind may stand anywhere among them. -/
theorem tokenize_eq_tokensOf (text : String) :
    tokenize text = tokensOf (significant text) ∧
      ∀ other, significant other = significant text → tokenize other = tokenize text := by
  refine ⟨read_tokens text, fun other h => ?_⟩
  rw [tokenize, tokenize, read_tokens, read_tokens, h]

/-- A literal with a letter, an accent, a line break and a digit of another script in it. -/
theorem tokenize_interspersed :
    let plain := "(007/-12)"
    let text := " ( 0é0\n7x/ - 1٣2)"
    significant text = significant plain ∧ tokenize text = tokenize plain ∧
      tokenize plain = [.leftParen, .number 7, .operator .div, .operator .sub, .number 12,
        .rightParen] :=
  ⟨by decide +kernel, (tokenize_eq_tokensOf _).2 _ (by decide +kernel),
    by decide +kernel⟩

end IntegerCalc
