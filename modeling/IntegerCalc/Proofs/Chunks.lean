import IntegerCalc.Proofs.Reading
import IntegerCalc.Session
import Mathlib.Data.List.DropRight

/-! Texts in parts. Two texts side by side have the tokens of the first and then those of the
second, unless a literal reaches over the boundary, which depends on the significant characters
next to it and not on what stands between them. Then the two numbers make one, in which the
first is moved up by as many places as the second text has digits before its first symbol. -/

namespace IntegerCalc

namespace Spelling

variable {a b digits : List Char}

theorem significant_append (a b : String) :
    significant (a ++ b) = significant a ++ significant b := by
  rw [significant, String.toList_append, List.filter_append]
  rfl

/-- Digits that are not empty, with symbols or nothing on both sides. -/
theorem tokensOf_literal (hd : ∀ c ∈ digits, c.isDigit = true) (hne : digits ≠ [])
    (ha : ∀ x ∈ a.getLast?, x.isDigit = false) (hb : ∀ y ∈ b.head?, y.isDigit = false) :
    tokensOf (a ++ (digits ++ b)) = tokensOf a ++ .number (placeValue digits) :: tokensOf b := by
  rw [tokensOf_append fun x hx y _ => by rw [ha x hx, Bool.false_and],
    tokensOf_append fun x _ y hy => by rw [hb y hy, Bool.and_false], tokensOf_digits hd, literal?,
    if_neg hne]
  rfl

theorem exists_last_digits (ha : a.getLast?.any Char.isDigit = true) :
    ∃ before digits, a = before ++ digits ∧ digits ≠ [] ∧ (∀ c ∈ digits, c.isDigit = true) ∧
      ∀ x ∈ before.getLast?, x.isDigit = false := by
  refine ⟨a.rdropWhile Char.isDigit, a.rtakeWhile Char.isDigit,
    (List.rdropWhile_append_rtakeWhile ..).symm, ?_, fun c => List.mem_rtakeWhile_imp, ?_⟩
  · intro hnil
    obtain rfl | ⟨before, c, rfl⟩ := a.eq_nil_or_concat
    · simp at ha
    · exact List.rtakeWhile_eq_nil_iff.1 hnil (by simp) (by simpa using ha)
  · intro x hx
    obtain ⟨hne, rfl⟩ := List.mem_getLast?_eq_getLast hx
    exact Bool.eq_false_iff.2 (List.rdropWhile_last_not _ _ hne)

theorem exists_first_digits (hb : b.head?.any Char.isDigit = true) :
    ∃ after, b = b.takeWhile Char.isDigit ++ after ∧ b.takeWhile Char.isDigit ≠ [] ∧
      (∀ c ∈ b.takeWhile Char.isDigit, c.isDigit = true) ∧
      ∀ y ∈ after.head?, y.isDigit = false := by
  refine ⟨b.dropWhile Char.isDigit, List.takeWhile_append_dropWhile.symm, ?_,
    fun c hc => List.mem_takeWhile_imp hc, fun y hy => ?_⟩
  · cases b with
    | nil => simp at hb
    | cons c b =>
      have hc : c.isDigit = true := hb
      simp [hc]
  · have h := List.head?_dropWhile_not Char.isDigit b
    rwa [Option.mem_def.1 hy] at h

/-- A literal that reaches over the boundary. -/
theorem tokensOf_append_joined (ha : a.getLast?.any Char.isDigit = true)
    (hb : b.head?.any Char.isDigit = true) :
    ∃ before after, ∃ x y : Nat, tokensOf a = before ++ [.number x] ∧
      tokensOf b = .number y :: after ∧
      tokensOf (a ++ b) =
        before ++ .number (x * 10 ^ (b.takeWhile Char.isDigit).length + y : Nat) :: after := by
  obtain ⟨before, last, rfl, hlast, hlastDigits, hbefore⟩ := exists_last_digits ha
  obtain ⟨after, hafter, hfirst, hfirstDigits, hafterHead⟩ := exists_first_digits hb
  set first := b.takeWhile Char.isDigit
  have hboth : ∀ c ∈ last ++ first, c.isDigit = true := fun c hc =>
    (List.mem_append.1 hc).elim (hlastDigits c) (hfirstDigits c)
  refine ⟨tokensOf before, tokensOf after, placeValue last, placeValue first, ?_, ?_, ?_⟩
  · have hend := tokensOf_literal (b := []) hlastDigits hlast hbefore (by simp)
    rwa [List.append_nil] at hend
  · rw [hafter]
    exact tokensOf_literal (a := []) hfirstDigits hfirst (by simp) hafterHead
  · rw [hafter, List.append_assoc, ← List.append_assoc last, ← placeValue_append]
    exact tokensOf_literal hboth (by simp [hlast]) hbefore hafterHead

/-- How many digits a text has before its first symbol. -/
def leadingDigits (text : String) : Nat :=
  (text.toList.takeWhile fun c => (Token.ofSymbol? c).isNone).countP Char.isDigit

theorem leadingDigits_eq (text : String) :
    leadingDigits text = ((significant text).takeWhile Char.isDigit).length := by
  unfold leadingDigits significant
  induction text.toList with
  | nil => rfl
  | cons c cs ih =>
    by_cases hc : isSignificant c = true
    · rw [List.filter_cons_of_pos hc]
      rcases isSignificant_iff.1 hc with hdigit | ⟨t, ht⟩
      · have hnone : Token.ofSymbol? c = none := by
          by_contra hsome
          obtain ⟨t, ht⟩ := Option.ne_none_iff_exists'.1 hsome
          rw [Token.not_isDigit_of_ofSymbol? ht] at hdigit
          contradiction
        simp [hnone, hdigit, ih]
      · simp [ht, Token.not_isDigit_of_ofSymbol? ht]
    · rw [List.filter_cons_of_neg hc]
      obtain ⟨hdigit, hsymbol⟩ := not_or.1 (mt isSignificant_iff.2 hc)
      have hnone : Token.ofSymbol? c = none :=
        Option.eq_none_iff_forall_ne_some.2 fun t ht => hsymbol ⟨t, ht⟩
      simp [hnone, hdigit, ih]

/-- The significant characters on the two sides of the boundary are digits. -/
def CutsLiteral (a b : String) : Prop :=
  (significant a).getLast?.any Char.isDigit = true ∧ (significant b).head?.any Char.isDigit = true

instance (a b : String) : Decidable (CutsLiteral a b) := inferInstanceAs (Decidable (_ ∧ _))

end Spelling

open Spelling

namespace Session

variable {a b : String}

/-- A text in two parts, of which the second is read only if the first does not fail. -/
theorem step_text_append (h : tokenize (a ++ b) = tokenize a ++ tokenize b) (e : Evaluation) :
    step e (.text (a ++ b)) =
      match e.feedAll (tokenize a) with
      | .ok next => step next (.text b)
      | .error failure => (.refused failure.fault, failure.left) := by
  rw [step, h, Evaluation.feedAll_append]
  cases e.feedAll (tokenize a) <;> rfl

end Session

open Session

/-- A text can be cut anywhere but in a literal, and then also be fed in two parts. A cut in a
literal leaves its two halves, of which the second counts with its leading zeros. -/
theorem tokenize_append (a b : String) :
    (¬CutsLiteral a b →
      tokenize (a ++ b) = tokenize a ++ tokenize b ∧
      ∀ e, (∀ next, step e (.text a) = (.accepted, next) →
          step e (.text (a ++ b)) = step next (.text b)) ∧
        ∀ fault left, step e (.text a) = (.refused fault, left) →
          step e (.text (a ++ b)) = (.refused fault, left)) ∧
    (CutsLiteral a b →
      ∃ before after, ∃ x y : Nat, tokenize a = before ++ [.number x] ∧
        tokenize b = .number y :: after ∧
        tokenize (a ++ b) = before ++ .number (x * 10 ^ leadingDigits b + y : Nat) :: after) := by
  have htokens : ∀ text, tokenize text = tokensOf (significant text) := read_tokens
  refine ⟨fun h => ?_, fun h => ?_⟩
  · have happend : tokenize (a ++ b) = tokenize a ++ tokenize b := by
      simp only [htokens, significant_append]
      refine tokensOf_append fun x hx y hy => Bool.eq_false_iff.2 fun hxy => h ?_
      obtain ⟨hxd, hyd⟩ := Bool.and_eq_true_iff.1 hxy
      rw [CutsLiteral, Option.mem_def.1 hx, Option.mem_def.1 hy]
      exact ⟨hxd, hyd⟩
    refine ⟨happend, fun e => ?_⟩
    rw [step_text_append happend]
    cases hfeed : e.feedAll (tokenize a) with
    | ok next => simp [step, hfeed, afterFeeding]
    | error failure => simp [step, hfeed, afterFeeding]
  · obtain ⟨before, after, x, y, ha, hb, hab⟩ := tokensOf_append_joined h.1 h.2
    simp only [htokens, significant_append, leadingDigits_eq]
    exact ⟨before, after, x, y, ha, hb, hab⟩

/-- Between `2` and `3` of `(1+2é` and ` \n)*3` stands a parenthesis; `2*+7` fails at its second
operator, whatever follows; and `4*1 2` goes on in ` 007/2` to `4*12007/2`. -/
theorem tokenize_append_cut :
    (¬CutsLiteral "(1+2é" " \n)*3" ∧
      tokenize ("(1+2é" ++ " \n)*3") = tokenize "(1+2é" ++ tokenize " \n)*3" ∧
      ∃ next, step {} (.text "(1+2é") = (.accepted, next) ∧
        step {} (.text ("(1+2é" ++ " \n)*3")) = step next (.text " \n)*3")) ∧
    (¬CutsLiteral "2*+7" "/0" ∧
      ∃ left, step {} (.text "2*+7") = (.refused .malformedExpression, left) ∧
        step {} (.text ("2*+7" ++ "/0")) = (.refused .malformedExpression, left)) ∧
    CutsLiteral "4*1 2" " 007/2" ∧ leadingDigits " 007/2" = 3 ∧
      ∃ before after, ∃ x y : Nat, tokenize "4*1 2" = before ++ [.number x] ∧
        tokenize " 007/2" = .number y :: after ∧
        tokenize ("4*1 2" ++ " 007/2") = before ++ .number (x * 10 ^ 3 + y : Nat) :: after := by
  have hcut : ¬CutsLiteral "(1+2é" " \n)*3" := by decide +kernel
  have hfail : ¬CutsLiteral "2*+7" "/0" := by decide +kernel
  have hjoined : CutsLiteral "4*1 2" " 007/2" := by decide +kernel
  obtain ⟨htokens, hsteps⟩ := (tokenize_append "(1+2é" " \n)*3").1 hcut
  have hrefused := ((tokenize_append "2*+7" "/0").1 hfail).2 {}
  exact ⟨⟨hcut, htokens, _, rfl, (hsteps {}).1 _ rfl⟩, ⟨hfail, _, rfl, hrefused.2 _ _ rfl⟩,
    hjoined, by decide +kernel, (tokenize_append "4*1 2" " 007/2").2 hjoined⟩

end IntegerCalc
