import IntegerCalc.Proofs.ScriptLines

/-! The outputs of a script line by line. No line that is written holds a line feed or a carriage
return, so the lines of an output are those that were written to it, and of these only the lists of
tokens start with a bracket. Main statement: to show the tokens adds such a line for each expression
and nothing else, and each expression has either a value or an error line. -/

namespace IntegerCalc

/-! ### Texts of whole lines -/

namespace Text

/-- Whether a text is one line wherever it is written. -/
def Unbroken (text : String) : Prop := ∀ c ∈ text.toList, c ≠ '\n' ∧ c ≠ '\r'

instance (text : String) : Decidable (Unbroken text) := List.decidableBAll _ text.toList

theorem Unbroken.append {a b : String} (ha : Unbroken a) (hb : Unbroken b) : Unbroken (a ++ b) := by
  intro c hc
  rw [String.toList_append] at hc
  exact (List.mem_append.1 hc).elim (ha c) (hb c)

theorem Unbroken.intercalate {separator : String} (hs : Unbroken separator) {words : List String}
    (hw : ∀ word ∈ words, Unbroken word) : Unbroken (separator.intercalate words) := by
  induction words with
  | nil => rw [String.intercalate_nil]; decide
  | cons word words ih =>
    obtain ⟨hword, hwords⟩ := List.forall_mem_cons.1 hw
    by_cases hlast : words = []
    · rw [hlast, String.intercalate_singleton]
      exact hword
    · rw [String.intercalate_cons_of_ne_nil hlast]
      exact (hword.append hs).append (ih hwords)

theorem toList_unlines_cons (line : String) (lines : List String) :
    (unlines (line :: lines)).toList = line.toList ++ '\n' :: (unlines lines).toList := by
  rw [← List.singleton_append, unlines_append]
  simp [unlines]

theorem splitOn_unlines {lines : List String} (h : ∀ line ∈ lines, Unbroken line) :
    (unlines lines).toList.splitOn '\n' = lines.map String.toList ++ [[]] := by
  induction lines with
  | nil => rfl
  | cons line lines ih =>
    obtain ⟨hline, hlines⟩ := List.forall_mem_cons.1 h
    have hfeed : '\n' ∉ line.toList := fun hmem => (hline _ hmem).1 rfl
    rw [toList_unlines_cons, List.splitOn_append_cons_self_of_not_mem hfeed, ih hlines]
    rfl

theorem dropReturn_of_unbroken {line : String} (h : Unbroken line) :
    dropReturn line.toList = line.toList :=
  if_neg fun hlast => (h _ (List.mem_of_getLast? hlast)).2 rfl

/-- Lines that are written are read back. -/
theorem lines_unlines {lines : List String} (h : ∀ line ∈ lines, Unbroken line) :
    Text.lines (unlines lines) = lines := by
  have hdrop : (lines.map String.toList).map dropReturn = lines.map String.toList := by
    rw [List.map_map]
    exact List.map_congr_left fun line hline => dropReturn_of_unbroken (h line hline)
  rw [Text.lines, splitOn_unlines h, linesOfPieces, List.dropLast_concat, List.getLast?_concat,
    hdrop, List.map_append, List.map_map]
  simp [Function.comp_def]

end Text

/-! ### Printed numbers and tokens -/

theorem isDigit_or_of_mem_toString {value : Int} {c : Char} (h : c ∈ (toString value).toList) :
    c.isDigit = true ∨ c = '-' := by
  have hdigits : ∀ n : Nat, c ∈ n.repr.toList → c.isDigit = true := by
    intro n hn
    rw [Nat.toList_repr] at hn
    exact Nat.isDigit_of_mem_toDigits (by decide) (by decide) hn
  rw [Int.toString_eq_repr, Int.repr_eq_if] at h
  split at h
  · exact .inl (hdigits _ h)
  · rw [String.toList_append] at h
    exact (List.mem_append.1 h).elim (fun hc => .inr (List.mem_singleton.1 hc))
      fun hc => .inl (hdigits _ hc)

namespace Token

/-- The characters of which labels are made. -/
def isLabelChar (c : Char) : Bool := c.isAlphanum || "()-".toList.contains c

theorem isLabelChar_of_mem_toString (value : Int) :
    ∀ c ∈ (toString value).toList, isLabelChar c = true := by
  intro c hc
  rcases isDigit_or_of_mem_toString hc with hdigit | rfl
  · simp [isLabelChar, Char.isAlphanum, hdigit]
  · decide

theorem isLabelChar_of_mem_label (t : Token) : ∀ c ∈ t.label.toList, isLabelChar c = true := by
  cases t with
  | number value =>
    have hbefore : ∀ c ∈ "Number(".toList, isLabelChar c = true :=
      List.all_eq_true.1 (by decide)
    have hafter : ∀ c ∈ ")".toList, isLabelChar c = true := List.all_eq_true.1 (by decide)
    intro c hc
    simp only [label, String.toList_append, List.mem_append] at hc
    rcases hc with (hc | hc) | hc
    · exact hbefore c hc
    · exact isLabelChar_of_mem_toString value c hc
    · exact hafter c hc
  | operator op => exact List.all_eq_true.1 (by cases op <;> decide)
  | leftParen => exact List.all_eq_true.1 (by decide)
  | rightParen => exact List.all_eq_true.1 (by decide)

theorem unbroken_of_isLabelChar {text : String} (h : ∀ c ∈ text.toList, isLabelChar c = true) :
    Text.Unbroken text := by
  refine fun c hc => ⟨?_, ?_⟩ <;> rintro rfl <;> exact absurd (h _ hc) (by decide)

theorem unbroken_listing (tokens : List Token) : Text.Unbroken (listing tokens) := by
  have hlabels : ∀ word ∈ tokens.map label, Text.Unbroken word := by
    intro word hword
    obtain ⟨t, -, rfl⟩ := List.mem_map.1 hword
    exact unbroken_of_isLabelChar t.isLabelChar_of_mem_label
  have hmiddle : Text.Unbroken (", ".intercalate (tokens.map label)) :=
    Text.Unbroken.intercalate (by decide) hlabels
  exact (Text.Unbroken.append (by decide) hmiddle).append (by decide)

/-- Whether a line starts as a list of tokens does. -/
def isListing (line : String) : Bool := line.toList.head? = some '['

theorem isListing_listing (tokens : List Token) : isListing (listing tokens) = true := by
  simp [isListing, listing]

theorem isListing_toString (value : Int) : isListing (toString value) = false := by
  refine decide_eq_false fun hhead => ?_
  rcases isDigit_or_of_mem_toString (List.mem_of_head? hhead) with hdigit | hminus
  · exact absurd hdigit (by decide)
  · exact absurd hminus (by decide)

end Token

/-! ### Entries -/

namespace Script

/-- The lines that ask for a calculation. -/
def expressions (script : String) : List String :=
  (Text.lines script).filter fun line => !isBlankLine line

theorem map_calculation_entries (script : String) :
    (entries script).map Entry.calculation = (expressions script).map calculate := by
  unfold entries expressions
  generalize Text.lines script = lines
  generalize 1 = number
  induction lines generalizing number with
  | nil => rfl
  | cons line lines ih =>
    rw [List.zipIdx_cons, List.filterMap_cons, List.filter_cons]
    cases hblank : isBlankLine line <;> simp [hblank, ih]

/-- What is done with each entry is done with each expression. -/
theorem map_entries {α : Type} (f : Calculation → α) (script : String) :
    (entries script).map (fun entry => f entry.calculation) =
      (expressions script).map fun line => f (calculate line) := by
  have h := congrArg (List.map f) (map_calculation_entries script)
  rwa [List.map_map, List.map_map] at h

theorem length_entries (script : String) : (entries script).length = (expressions script).length := by
  rw [← List.length_map Entry.calculation, map_calculation_entries, List.length_map]

/-- Entries are numbered upward. -/
theorem pairwise_number_entriesFrom (number : Nat) (lines : List (List Char)) :
    (entriesFrom number lines).Pairwise fun a b => a.number < b.number := by
  induction lines generalizing number with
  | nil => exact .nil
  | cons line lines ih =>
    rw [entriesFrom_cons]
    refine List.pairwise_append.2 ⟨?_, ih (number + 1), fun a ha b hb => ?_⟩
    · cases Entry.ofLine? line number <;> simp
    · have hnumber : a.number = number := by
        rw [Option.mem_toList, Entry.ofLine?] at ha
        split at ha <;> cases ha
        rfl
      have hlater := (number_of_mem_entriesFrom hb).1
      omega

theorem pairwise_number_errorLines (script : String) :
    (errorLines script).Pairwise fun a b => a.number < b.number := by
  rw [errorLines, entries_eq_pieces, List.pairwise_filterMap]
  refine (pairwise_number_entriesFrom 1 _).imp fun {a b} hab x hx y hy => ?_
  rw [Entry.number_of_errorLine? hx, Entry.number_of_errorLine? hy]
  exact hab

/-! ### Lines of the outputs -/

theorem Entry.printed_true (entry : Entry) :
    entry.printed true =
      Token.listing entry.calculation.reading.tokens :: entry.printed false := rfl

theorem Entry.exists_toString_of_mem_printed {entry : Entry} {line : String}
    (h : line ∈ entry.printed false) : ∃ value : Int, line = toString value := by
  unfold printed at h
  cases hresult : entry.calculation.report.result with
  | ok value =>
    rw [hresult] at h
    exact ⟨value, List.mem_singleton.1 h⟩
  | error fault => simp [hresult] at h

theorem unbroken_of_mem_printed {showTokens : Bool} {entry : Entry} {line : String}
    (h : line ∈ entry.printed showTokens) : Text.Unbroken line := by
  have hvalue : ∀ line ∈ entry.printed false, Text.Unbroken line := by
    intro line hline
    obtain ⟨value, rfl⟩ := Entry.exists_toString_of_mem_printed hline
    exact Token.unbroken_of_isLabelChar (Token.isLabelChar_of_mem_toString value)
  cases showTokens with
  | false => exact hvalue line h
  | true =>
    rw [Entry.printed_true] at h
    rcases List.mem_cons.1 h with rfl | h
    · exact Token.unbroken_listing _
    · exact hvalue line h

theorem lines_stdout (script : String) (showTokens : Bool) :
    Text.lines (runScript script showTokens).stdout =
      (entries script).flatMap (Entry.printed showTokens) := by
  rw [stdout_runScript]
  refine Text.lines_unlines fun line hline => ?_
  obtain ⟨entry, -, hline⟩ := List.mem_flatMap.1 hline
  exact unbroken_of_mem_printed hline

theorem ErrorLine.unbroken_text (line : ErrorLine) : Text.Unbroken line.text := by
  have hnumber : Text.Unbroken (toString line.number) :=
    Token.unbroken_of_isLabelChar (Token.isLabelChar_of_mem_toString line.number)
  have hmessage : Text.Unbroken line.fault.message := by
    cases line.fault <;> decide
  exact ((Text.Unbroken.append (by decide) hnumber).append (by decide)).append hmessage

theorem lines_stderr (script : String) (showTokens : Bool) :
    Text.lines (runScript script showTokens).stderr = (errorLines script).map ErrorLine.text := by
  rw [stderr_runScript]
  refine Text.lines_unlines fun line hline => ?_
  obtain ⟨error, -, rfl⟩ := List.mem_map.1 hline
  exact error.unbroken_text

theorem Entry.isListing_of_mem_printed {entry : Entry} :
    ∀ line ∈ entry.printed false, Token.isListing line = false := by
  intro line hline
  obtain ⟨value, rfl⟩ := exists_toString_of_mem_printed hline
  exact Token.isListing_toString value

theorem filter_isListing_printed (entries : List Entry) :
    (entries.flatMap (Entry.printed true)).filter Token.isListing =
      entries.map fun entry => Token.listing entry.calculation.reading.tokens := by
  have hentry : ∀ entry : Entry, (entry.printed true).filter Token.isListing =
      [Token.listing entry.calculation.reading.tokens] := by
    intro entry
    have hvalue : (entry.printed false).filter Token.isListing = [] :=
      List.filter_eq_nil_iff.2 fun line hline =>
        Bool.eq_false_iff.1 (Entry.isListing_of_mem_printed line hline)
    rw [Entry.printed_true, List.filter_cons_of_pos (Token.isListing_listing _), hvalue]
  simp only [List.filter_flatMap, hentry, ← List.map_eq_flatMap]

theorem filter_not_isListing_printed (entries : List Entry) :
    (entries.flatMap (Entry.printed true)).filter (!Token.isListing ·) =
      entries.flatMap (Entry.printed false) := by
  have hentry : ∀ entry : Entry, (entry.printed true).filter (!Token.isListing ·) =
      entry.printed false := by
    intro entry
    rw [Entry.printed_true, List.filter_cons_of_neg (by simp [Token.isListing_listing])]
    refine List.filter_eq_self.2 fun line hline => ?_
    rw [Entry.isListing_of_mem_printed line hline]
    rfl
  simp only [List.filter_flatMap, hentry]

/-- An entry has a value or an error line, and not both. -/
theorem length_printed_add_errorLines (entries : List Entry) :
    (entries.flatMap (Entry.printed false)).length +
      (entries.filterMap Entry.errorLine?).length = entries.length := by
  induction entries with
  | nil => rfl
  | cons entry entries ih =>
    have hone : (entry.printed false).length + entry.errorLine?.toList.length = 1 := by
      unfold Entry.printed Entry.errorLine?
      cases entry.calculation.report.result <;> rfl
    rw [List.filterMap_eq_flatMap_toList] at ih ⊢
    rw [List.flatMap_cons, List.flatMap_cons, List.length_append, List.length_append,
      List.length_cons]
    omega

theorem succeeded_iff (script : String) : succeeded script = true ↔ errorLines script = [] := by
  have hentry : ∀ entry : Entry,
      entry.calculation.report.result.isOk = true ↔ entry.errorLine? = none := by
    intro entry
    unfold Entry.errorLine?
    cases entry.calculation.report.result <;> simp [Except.isOk, Except.toBool]
  simp only [succeeded, errorLines, List.all_eq_true, List.filterMap_eq_nil_iff, hentry]

end Script

open Script

/-- To show the tokens adds one line that starts with a bracket for each expression and changes
nothing else. Each expression has a value on the standard output or an error line, which are
numbered upward, and a script succeeds if it has no error line. -/
theorem runScript_showTokens (script : String) :
    (runScript script true).succeeded = (runScript script false).succeeded ∧
      (runScript script true).stderr = (runScript script false).stderr ∧
      Text.unlines ((Text.lines (runScript script true).stdout).filter (!Token.isListing ·)) =
        (runScript script false).stdout ∧
      ((Text.lines (runScript script true).stdout).filter Token.isListing).length =
        (expressions script).length ∧
      (Text.lines (runScript script false).stdout).length +
          (Text.lines (runScript script false).stderr).length = (expressions script).length ∧
      (runScript script false).stderr = Text.unlines ((errorLines script).map ErrorLine.text) ∧
      ((errorLines script).Pairwise fun a b => a.number < b.number) ∧
      ((runScript script false).succeeded = true ↔ (runScript script false).stderr = "") := by
  refine ⟨?_, ?_, ?_, ?_, ?_, stderr_runScript script false, pairwise_number_errorLines script, ?_⟩
  · rw [succeeded_runScript, succeeded_runScript]
  · rw [stderr_runScript, stderr_runScript]
  · rw [lines_stdout, filter_not_isListing_printed, stdout_runScript]
  · rw [lines_stdout, filter_isListing_printed, List.length_map, length_entries]
  · rw [lines_stdout, lines_stderr, List.length_map, errorLines, length_printed_add_errorLines,
      length_entries]
  · have hlines := lines_stderr script false
    rw [succeeded_runScript, succeeded_iff]
    refine ⟨fun h => ?_, fun h => ?_⟩
    · rw [stderr_runScript, h]
      rfl
    · rw [h] at hlines
      exact List.map_eq_nil_iff.1 hlines.symm

end IntegerCalc
