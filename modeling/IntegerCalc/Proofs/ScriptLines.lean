import IntegerCalc.Proofs.Reading
import IntegerCalc.Transcript

/-! Scripts line by line. As an empty piece is blank and a carriage return at the end of a piece
changes nothing, every piece between line feeds may count as a line of the script, the last one
too. Main statement: two scripts joined by a line feed do what the one does and then what the
other does, with the lines of the second counted from where the first ends. -/

namespace IntegerCalc

open Spelling

/-! ### Returns at the end of a line -/

theorem read_append_return (cs : List Char) :
    read (String.ofList (cs ++ ['\r'])) = read (String.ofList cs) := by
  have hstep : ∀ s : Scan, s.step '\r' = { s with offset := s.offset + 1 } := fun s => rfl
  simp only [read, String.toList_ofList, Scan.run_append, Scan.run_cons, Scan.run_nil, hstep]
  rfl

theorem calculate_append_return (cs : List Char) :
    calculate (String.ofList (cs ++ ['\r'])) = calculate (String.ofList cs) := by
  simp only [calculate, read_append_return]

namespace Script

/-- The entry of a line, if it is not blank. -/
def Entry.ofLine? (line : List Char) (number : Nat) : Option Entry :=
  if line.all Text.isBlank then none else some ⟨number, calculate (String.ofList line)⟩

theorem Entry.ofLine?_append_return (cs : List Char) (number : Nat) :
    Entry.ofLine? (cs ++ ['\r']) number = Entry.ofLine? cs number := by
  have hreturn : Text.isBlank '\r' = true := by decide
  simp only [Entry.ofLine?, List.all_append, List.all_cons, List.all_nil, hreturn, Bool.and_true,
    calculate_append_return]

theorem Entry.ofLine?_dropReturn (piece : List Char) (number : Nat) :
    Entry.ofLine? (Text.dropReturn piece) number = Entry.ofLine? piece number := by
  unfold Text.dropReturn
  split
  · rename_i h
    obtain ⟨hne, hlast⟩ := List.mem_getLast?_eq_getLast h
    conv_rhs => rw [← List.dropLast_append_getLast hne, ← hlast, ofLine?_append_return]
  · rfl

/-! ### Pieces as lines -/

/-- The entries of lines that are counted from `number`. -/
def entriesFrom (number : Nat) (lines : List (List Char)) : List Entry :=
  (lines.zipIdx number).filterMap fun line => Entry.ofLine? line.1 line.2

theorem entriesFrom_cons (number : Nat) (line : List Char) (lines : List (List Char)) :
    entriesFrom number (line :: lines) =
      (Entry.ofLine? line number).toList ++ entriesFrom (number + 1) lines := by
  simp only [entriesFrom, List.zipIdx_cons, List.filterMap_cons]
  cases Entry.ofLine? line number <;> rfl

theorem entriesFrom_append (number : Nat) (a b : List (List Char)) :
    entriesFrom number (a ++ b) = entriesFrom number a ++ entriesFrom (number + a.length) b := by
  simp only [entriesFrom, List.zipIdx_append, List.filterMap_append]

theorem entriesFrom_map_dropReturn (number : Nat) (pieces : List (List Char)) :
    entriesFrom number (pieces.map Text.dropReturn) = entriesFrom number pieces := by
  induction pieces generalizing number with
  | nil => rfl
  | cons piece pieces ih =>
    rw [List.map_cons, entriesFrom_cons, entriesFrom_cons, Entry.ofLine?_dropReturn, ih]

theorem entriesFrom_linesOfPieces (number : Nat) (pieces : List (List Char)) :
    entriesFrom number (Text.linesOfPieces pieces) = entriesFrom number pieces := by
  obtain rfl | ⟨before, last, rfl⟩ := pieces.eq_nil_or_concat
  · rfl
  · have hlast : entriesFrom (number + before.length)
        ((some last).filter (!·.isEmpty)).toList = entriesFrom (number + before.length) [last] := by
      -- An empty last piece is no line; as a line it would be blank.
      cases last <;> rfl
    rw [List.concat_eq_append, Text.linesOfPieces, List.dropLast_concat, List.getLast?_concat,
      entriesFrom_append, entriesFrom_append, entriesFrom_map_dropReturn, List.length_map, hlast]

theorem entries_eq_pieces (script : String) :
    entries script = entriesFrom 1 (script.toList.splitOn '\n') := by
  have hblank : ∀ line : List Char, isBlankLine (String.ofList line) = line.all Text.isBlank :=
    fun line => by rw [isBlankLine, String.toList_ofList]
  rw [← entriesFrom_linesOfPieces, entries, Text.lines, List.zipIdx_map, List.filterMap_map]
  simp only [Function.comp_def, Prod.map, hblank, id]
  rfl

theorem entries_eq_lines (script : String) :
    entries script = entriesFrom 1 ((Text.lines script).map String.toList) := by
  have hlines : (Text.lines script).map String.toList =
      Text.linesOfPieces (script.toList.splitOn '\n') := by
    simp [Text.lines, Function.comp_def]
  rw [hlines, entriesFrom_linesOfPieces, entries_eq_pieces]

theorem mem_entriesFrom {number : Nat} {lines : List (List Char)} {entry : Entry} :
    entry ∈ entriesFrom number lines ↔ ∃ line, (line, entry.number) ∈ lines.zipIdx number ∧
      line.all Text.isBlank = false ∧ entry.calculation = calculate (String.ofList line) := by
  obtain ⟨count, calculation⟩ := entry
  constructor
  · intro h
    obtain ⟨⟨line, count⟩, hline, h⟩ := List.mem_filterMap.1 h
    unfold Entry.ofLine? at h
    split at h <;> cases h
    exact ⟨line, hline, Bool.eq_false_iff.2 ‹_›, rfl⟩
  · rintro ⟨line, hline, hblank, rfl⟩
    refine List.mem_filterMap.2 ⟨_, hline, ?_⟩
    rw [Entry.ofLine?, hblank]
    rfl

theorem number_of_mem_entriesFrom {number : Nat} {lines : List (List Char)} {entry : Entry}
    (h : entry ∈ entriesFrom number lines) :
    number ≤ entry.number ∧ entry.number < number + lines.length := by
  obtain ⟨line, hline, -⟩ := mem_entriesFrom.1 h
  exact ⟨List.le_snd_of_mem_zipIdx hline, List.snd_lt_add_of_mem_zipIdx hline⟩

/-! ### Two scripts -/

def Entry.moved (count : Nat) (entry : Entry) : Entry :=
  { entry with number := entry.number + count }

theorem entriesFrom_add (number count : Nat) (lines : List (List Char)) :
    entriesFrom (number + count) lines = (entriesFrom number lines).map (Entry.moved count) := by
  induction lines generalizing number with
  | nil => rfl
  | cons line lines ih =>
    rw [entriesFrom_cons, entriesFrom_cons, List.map_append, ← ih, Nat.add_right_comm]
    congr 1
    unfold Entry.ofLine?
    split <;> rfl

theorem length_splitOn (a : Char) (text : List Char) :
    (text.splitOn a).length = 1 + text.count a := by
  induction text with
  | nil => rfl
  | cons c text ih =>
    rw [List.splitOn_cons_eq_if_modifyHead, List.count_cons]
    split
    · rw [List.length_cons, ih, Nat.add_assoc]
    · rw [List.length_modifyHead, ih, Nat.add_zero]

theorem entries_append_newline (a b : String) :
    entries (a ++ "\n" ++ b) =
      entries a ++ (entries b).map (Entry.moved (1 + a.toList.count '\n')) := by
  have htext : (a ++ "\n" ++ b).toList = a.toList ++ '\n' :: b.toList := by
    simp [String.toList_append]
  rw [entries_eq_pieces, entries_eq_pieces, entries_eq_pieces, htext,
    List.splitOn_append_cons_self, entriesFrom_append, length_splitOn, entriesFrom_add]

/-! ### Outputs -/

/-- What an entry writes to the standard output. -/
def Entry.printed (showTokens : Bool) (entry : Entry) : List String :=
  (if showTokens then [Token.listing entry.calculation.reading.tokens] else []) ++
    match entry.calculation.report.result with
    | .ok value => [toString value]
    | .error _ => []

/-- What is wrong with a line. -/
structure ErrorLine where
  number : Nat
  fault : Fault
  deriving DecidableEq

def ErrorLine.text (line : ErrorLine) : String :=
  "Error on line " ++ toString line.number ++ ": " ++ line.fault.message

def ErrorLine.moved (count : Nat) (line : ErrorLine) : ErrorLine :=
  { line with number := line.number + count }

def Entry.errorLine? (entry : Entry) : Option ErrorLine :=
  match entry.calculation.report.result with
  | .ok _ => none
  | .error fault => some ⟨entry.number, fault⟩

def errorLines (script : String) : List ErrorLine := (entries script).filterMap Entry.errorLine?

theorem Entry.number_of_errorLine? {entry : Entry} {line : ErrorLine}
    (h : entry.errorLine? = some line) : line.number = entry.number := by
  unfold errorLine? at h
  split at h <;> cases h
  rfl

/-- The records of an entry. To show the tokens its line is read once more. -/
def Entry.records (showTokens : Bool) (entry : Entry) : List Record :=
  (if showTokens then entry.calculation.reading.records else []) ++ entry.calculation.records

section Outputs

variable (showTokens : Bool) (entry : Entry)

theorem filterMap_out?_log (records : List Record) :
    (records.map Event.log).filterMap Event.out? = [] := by
  simp [List.filterMap_map, Function.comp_def, Event.out?]

theorem filterMap_err?_log (verbosity : Nat) (records : List Record) :
    (records.map Event.log).filterMap (Event.err? verbosity) =
      (records.filter (Record.admitted verbosity)).map Record.line := by
  induction records with
  | nil => rfl
  | cons record records ih =>
    rw [List.map_cons, List.filterMap_cons, ih, List.filter_cons]
    cases h : record.admitted verbosity <;> simp [Event.err?, h]

theorem Entry.filterMap_out?_events :
    (entry.events showTokens).filterMap Event.out? = entry.printed showTokens := by
  have houtcome : [entry.outcome].filterMap Event.out? =
      match entry.calculation.report.result with
      | .ok value => [toString value]
      | .error _ => [] := by
    unfold Entry.outcome
    cases entry.calculation.report.result <;> rfl
  have hlisting : entry.listing.filterMap Event.out? =
      [Token.listing entry.calculation.reading.tokens] := by
    rw [Entry.listing, List.filterMap_append, filterMap_out?_log]
    rfl
  rw [Entry.events, Entry.printed, List.filterMap_append, List.filterMap_append, houtcome,
    filterMap_out?_log, List.append_nil]
  cases showTokens
  · rfl
  · rw [if_pos rfl, if_pos rfl, hlisting]

theorem Entry.filterMap_err?_events (verbosity : Nat) :
    (entry.events showTokens).filterMap (Event.err? verbosity) =
      ((entry.records showTokens).filter (Record.admitted verbosity)).map Record.line ++
        (entry.errorLine?.map ErrorLine.text).toList := by
  have houtcome : [entry.outcome].filterMap (Event.err? verbosity) =
      (entry.errorLine?.map ErrorLine.text).toList := by
    unfold Entry.outcome Entry.errorLine?
    cases entry.calculation.report.result <;> rfl
  have hlisting : entry.listing.filterMap (Event.err? verbosity) =
      (entry.calculation.reading.records.filter (Record.admitted verbosity)).map Record.line := by
    rw [Entry.listing, List.filterMap_append, filterMap_err?_log]
    exact List.append_nil _
  rw [Entry.events, Entry.records, List.filterMap_append, List.filterMap_append, houtcome,
    filterMap_err?_log, List.filter_append, List.map_append]
  cases showTokens
  · rfl
  · rw [if_pos rfl, if_pos rfl, hlisting]

end Outputs

end Script

theorem Record.not_admitted_zero (r : Record) : r.admitted 0 = false := by
  cases r <;> rfl

namespace Script

theorem filterMap_out?_events (showTokens : Bool) (entries : List Entry) :
    (entries.flatMap (Entry.events showTokens)).filterMap Event.out? =
      entries.flatMap (Entry.printed showTokens) := by
  simp only [List.filterMap_flatMap, Entry.filterMap_out?_events]

theorem filterMap_err?_zero_log (records : List Record) :
    (records.map Event.log).filterMap (Event.err? 0) = [] := by
  rw [filterMap_err?_log, List.map_eq_nil_iff]
  exact List.filter_eq_nil_iff.2 fun record _ => Bool.eq_false_iff.1 record.not_admitted_zero

/-- Without records only what is wrong is told. -/
theorem filterMap_err?_zero_events (showTokens : Bool) (entries : List Entry) :
    (entries.flatMap (Entry.events showTokens)).filterMap (Event.err? 0) =
      (entries.filterMap Entry.errorLine?).map ErrorLine.text := by
  have hentry : ∀ entry : Entry, (entry.events showTokens).filterMap (Event.err? 0) =
      (entry.errorLine?.map ErrorLine.text).toList := fun entry => by
    rw [Entry.filterMap_err?_events, ← filterMap_err?_log, filterMap_err?_zero_log]
    rfl
  rw [List.filterMap_flatMap, List.map_filterMap, List.filterMap_eq_flatMap_toList]
  simp only [hentry]

end Script

open Script

section

variable (script : String) (showTokens : Bool)

/-- A transcript by entries and error lines. -/
theorem runScript_eq :
    runScript script showTokens =
      ⟨succeeded script, Text.unlines ((entries script).flatMap (Entry.printed showTokens)),
        Text.unlines ((errorLines script).map ErrorLine.text)⟩ := by
  simp only [runScript, Transcript.ofEvents, Script.events, filterMap_out?_events,
    filterMap_err?_zero_events, errorLines]

theorem succeeded_runScript : (runScript script showTokens).succeeded = succeeded script := by
  rw [runScript_eq]

theorem stdout_runScript :
    (runScript script showTokens).stdout =
      Text.unlines ((entries script).flatMap (Entry.printed showTokens)) := by
  rw [runScript_eq]

theorem stderr_runScript :
    (runScript script showTokens).stderr =
      Text.unlines ((errorLines script).map ErrorLine.text) := by
  rw [runScript_eq]

end

theorem Script.errorLines_append_newline (a b : String) :
    errorLines (a ++ "\n" ++ b) =
      errorLines a ++ (errorLines b).map (ErrorLine.moved (1 + a.toList.count '\n')) := by
  have hmoved : ∀ (count : Nat) (entry : Entry),
      (entry.moved count).errorLine? = entry.errorLine?.map (ErrorLine.moved count) := by
    intro count entry
    unfold Entry.errorLine? Entry.moved
    cases entry.calculation.report.result <;> rfl
  rw [errorLines, entries_append_newline, List.filterMap_append, List.filterMap_map, errorLines,
    errorLines, List.map_filterMap]
  congr 2
  funext entry
  exact hmoved _ entry

/-- A script, a line feed and another script do what the first does and then what the second
does. The error lines of the second count on from the lines of the first. -/
theorem runScript_append_newline (a b : String) (showTokens : Bool) :
    let whole := runScript (a ++ "\n" ++ b) showTokens
    let first := runScript a showTokens
    let second := runScript b showTokens
    whole.succeeded = (first.succeeded && second.succeeded) ∧
      whole.stdout = first.stdout ++ second.stdout ∧
      second.stderr = Text.unlines ((errorLines b).map ErrorLine.text) ∧
      whole.stderr = first.stderr ++ Text.unlines
        ((errorLines b).map fun line => (line.moved (1 + a.toList.count '\n')).text) := by
  refine ⟨?_, ?_, stderr_runScript b showTokens, ?_⟩
  · simp only [runScript, Transcript.ofEvents, Script.succeeded, entries_append_newline,
      List.all_append, List.all_map]
    rfl
  · rw [stdout_runScript, stdout_runScript, stdout_runScript, entries_append_newline,
      List.flatMap_append, Text.unlines_append, List.flatMap_map]
    rfl
  · rw [stderr_runScript, stderr_runScript, errorLines_append_newline, List.map_append,
      Text.unlines_append, List.map_map]
    rfl

end IntegerCalc
