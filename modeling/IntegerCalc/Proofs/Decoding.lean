import IntegerCalc.Proofs.TokenLines
import Mathlib.Data.List.Basic

/-! Tokens that are read back from the standard output. Labels hold no comma, so that a list of
tokens on one line is cut at its commas, and its line is told from values by its bracket. Main
statement: scripts with the same standard output, tokens shown, ask for the same lists of tokens in
the same order. So they give the same values and faults, and only the numbers of their lines may
differ. -/

namespace IntegerCalc

theorem Operator.name_injective : Function.Injective Operator.name := by
  intro a b h
  cases a <;> cases b <;> first | rfl | exact absurd h (by decide)

theorem toString_injective : Function.Injective (toString : Int → String) := by
  have hdigits : ∀ m n : Nat, m.repr = n.repr → m = n := by
    intro m n h
    have hvalue := congrArg (fun text => Nat.ofDigitChars 10 text.toList 0) h
    simpa only [Nat.toList_repr, Nat.ofDigitChars_ten_toDigits] using hvalue
  have hminus : ∀ (n : Nat) (rest : String), n.repr ≠ "-" ++ rest := by
    intro n rest h
    have hdash : '-' ∈ n.repr.toList := by simp [h]
    rw [Nat.toList_repr] at hdash
    exact absurd (Nat.isDigit_of_mem_toDigits (by decide) (by decide) hdash) (by decide)
  intro a b h
  rw [Int.toString_eq_repr, Int.toString_eq_repr, Int.repr_eq_if, Int.repr_eq_if] at h
  split at h <;> split at h
  · have hab := hdigits _ _ h
    omega
  · exact absurd h (hminus _ _)
  · exact absurd h.symm (hminus _ _)
  · have hab := hdigits _ _ (by simpa using h)
    omega

/-! ### Lists of tokens -/

theorem intercalate_append_cons {separator : Char} (a b : List Char) (words : List (List Char)) :
    [separator].intercalate ((a ++ b) :: words) = a ++ [separator].intercalate (b :: words) := by
  cases words <;> simp [List.intercalate_cons_cons]

namespace Token

theorem label_injective : Function.Injective label := by
  intro a b h
  -- The first character of a label tells which kind of token it is.
  have hhead : a.label.toList.head? = b.label.toList.head? := by rw [h]
  cases a with
  | number x =>
    cases b with
    | number y =>
      have hxy : toString x = toString y := by simpa [label] using h
      rw [toString_injective hxy]
    | operator | leftParen | rightParen => simp [label] at hhead
  | operator op =>
    cases b with
    | operator op' =>
      have hname : op.name = op'.name := by simpa [label] using h
      rw [Operator.name_injective hname]
    | number | leftParen | rightParen => simp [label] at hhead
  | leftParen =>
    cases b with
    | leftParen => rfl
    | number | operator | rightParen => simp [label] at hhead
  | rightParen =>
    cases b with
    | rightParen => rfl
    | number | operator | leftParen => simp [label] at hhead

theorem label_ne_empty (t : Token) : t.label.toList ≠ [] := by
  cases t <;> simp [label]

theorem comma_not_mem_label (t : Token) : ',' ∉ t.label.toList := fun h =>
  absurd (t.isLabelChar_of_mem_label _ h) (by decide)

/-- Labels after the first have a blank before them and a comma before that. -/
theorem intercalate_label (t : Token) (ts : List Token) :
    (", ".intercalate ((t :: ts).map label)).toList =
      [','].intercalate (t.label.toList :: ts.map fun t => [' '] ++ t.label.toList) := by
  rw [String.toList_intercalate]
  induction ts generalizing t with
  | nil => simp
  | cons next ts ih =>
    simp only [List.map_cons] at ih ⊢
    rw [List.intercalate_cons_cons, List.intercalate_cons_cons, ih, intercalate_append_cons]
    simp

theorem splitOn_intercalate_label (t : Token) (ts : List Token) :
    (", ".intercalate ((t :: ts).map label)).toList.splitOn ',' =
      t.label.toList :: ts.map fun t => [' '] ++ t.label.toList := by
  rw [intercalate_label, List.splitOn_intercalate ',' ?_ (List.cons_ne_nil _ _)]
  intro word hword
  rcases List.mem_cons.1 hword with rfl | hword
  · exact t.comma_not_mem_label
  · obtain ⟨t, -, rfl⟩ := List.mem_map.1 hword
    simpa using t.comma_not_mem_label

theorem listing_injective : Function.Injective listing := by
  intro a b h
  have hbody : ", ".intercalate (a.map label) = ", ".intercalate (b.map label) := by
    simpa [listing] using h
  have hcut : (", ".intercalate (a.map label)).toList.splitOn ',' =
      (", ".intercalate (b.map label)).toList.splitOn ',' := by rw [hbody]
  have hlabels : Function.Injective fun t : Token => [' '] ++ t.label.toList := by
    intro s t hst
    exact label_injective (String.toList_inj.1 (List.append_cancel_left hst))
  cases a with
  | nil =>
    cases b with
    | nil => rfl
    | cons t ts =>
      rw [splitOn_intercalate_label] at hcut
      exact absurd (List.cons.inj hcut).1.symm t.label_ne_empty
  | cons s ss =>
    cases b with
    | nil =>
      rw [splitOn_intercalate_label] at hcut
      exact absurd (List.cons.inj hcut).1 s.label_ne_empty
    | cons t ts =>
      rw [splitOn_intercalate_label, splitOn_intercalate_label] at hcut
      obtain ⟨hhead, htail⟩ := List.cons.inj hcut
      rw [label_injective (String.toList_inj.1 hhead), hlabels.list_map htail]

example : listing [.leftParen, .number (-30), .operator .mul] =
    "[LeftParen, Number(-30), Operator(Mul)]" := by decide +kernel

end Token

/-! ### Scripts -/

namespace Script

/-- The lists of tokens that are shown are those of the expressions. -/
theorem filter_isListing_lines_stdout (script : String) :
    (Text.lines (runScript script true).stdout).filter Token.isListing =
      ((expressions script).map tokenize).map Token.listing := by
  rw [lines_stdout, filter_isListing_printed, map_entries fun c => Token.listing c.reading.tokens,
    List.map_map]
  rfl

theorem map_tokenize_eq_of_stdout_eq {a b : String}
    (h : (runScript a true).stdout = (runScript b true).stdout) :
    (expressions a).map tokenize = (expressions b).map tokenize := by
  refine Token.listing_injective.list_map ?_
  rw [← filter_isListing_lines_stdout, ← filter_isListing_lines_stdout, h]

/-- Only the tokens of its lines matter to the values of a script. -/
theorem map_process_expressions (script : String) :
    (expressions script).map process = ((expressions script).map tokenize).map evaluate := by
  rw [List.map_map]
  rfl

def fault? : Except Fault Int → Option Fault
  | .ok _ => none
  | .error fault => some fault

/-- The faults on the error lines are those of the expressions. -/
theorem map_fault_errorLines (script : String) :
    (errorLines script).map ErrorLine.fault = ((expressions script).map process).filterMap fault? := by
  have hentry : ∀ entry : Entry,
      entry.errorLine?.map ErrorLine.fault = fault? entry.calculation.report.result := by
    intro entry
    unfold Entry.errorLine?
    cases entry.calculation.report.result <;> rfl
  have hprocess : (entries script).map (fun entry => entry.calculation.report.result) =
      (expressions script).map process := map_entries (fun c => c.report.result) script
  rw [← hprocess, errorLines, List.map_filterMap, List.filterMap_map]
  exact List.filterMap_congr fun entry _ => hentry entry

end Script

open Script

/-- Scripts with the same standard output, tokens shown, ask for the same lists of tokens in the
same order, and have the same values and faults, line by line. -/
theorem expressions_eq_of_stdout_eq :
    Function.Injective Token.listing ∧
      ∀ a b : String, (runScript a true).stdout = (runScript b true).stdout →
        (expressions a).map tokenize = (expressions b).map tokenize ∧
          (expressions a).map process = (expressions b).map process ∧
          (errorLines a).map ErrorLine.fault = (errorLines b).map ErrorLine.fault ∧
          (runScript a true).stderr = Text.unlines ((errorLines a).map ErrorLine.text) ∧
          (runScript b true).stderr = Text.unlines ((errorLines b).map ErrorLine.text) ∧
          (runScript a true).succeeded = (runScript b true).succeeded := by
  refine ⟨Token.listing_injective, fun a b h => ?_⟩
  have htokens := map_tokenize_eq_of_stdout_eq h
  have hvalues : (expressions a).map process = (expressions b).map process := by
    rw [map_process_expressions, htokens, map_process_expressions]
  have hfaults : (errorLines a).map ErrorLine.fault = (errorLines b).map ErrorLine.fault := by
    rw [map_fault_errorLines, hvalues, map_fault_errorLines]
  refine ⟨htokens, hvalues, hfaults, stderr_runScript a true, stderr_runScript b true, ?_⟩
  -- No fault is no error line.
  rw [succeeded_runScript, succeeded_runScript, Bool.eq_iff_iff, succeeded_iff, succeeded_iff,
    ← List.map_eq_nil_iff, hfaults, List.map_eq_nil_iff]

/-- The second script has its error on another line than the first. -/
theorem expressions_eq_of_stdout_eq_moved :
    (runScript "1 +2\n\n(3" true).stdout = (runScript "\n\n\n01+2\r\n x(3" true).stdout ∧
      (errorLines "1 +2\n\n(3").map ErrorLine.fault =
        (errorLines "\n\n\n01+2\r\n x(3").map ErrorLine.fault ∧
      (runScript "1 +2\n\n(3" true).stderr ≠ (runScript "\n\n\n01+2\r\n x(3" true).stderr := by
  have hstdout : (runScript "1 +2\n\n(3" true).stdout =
      (runScript "\n\n\n01+2\r\n x(3" true).stdout := by
    decide +kernel
  exact ⟨hstdout, (expressions_eq_of_stdout_eq.2 _ _ hstdout).2.2.1, by decide +kernel⟩

end IntegerCalc
