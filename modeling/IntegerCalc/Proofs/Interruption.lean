import IntegerCalc.Proofs.Diagnostics

/-! Runs whose standard output takes nothing. A run goes on over lines that give nothing for the
standard output and ends at the first that does, before anything else of that line is told. Main
statement: without records, what such a run tells are the error lines of the lines before and then
what is wrong with the output; if there is no such line, nothing is wrong. -/

namespace IntegerCalc

namespace Script

/-- Whether a line gives something for the standard output. -/
def prints (showTokens : Bool) (line : String) : Bool :=
  !isBlankLine line && (showTokens || (process line).isOk)

section

variable {showTokens : Bool}

theorem Entry.printed_eq_nil {entry : Entry} :
    entry.printed showTokens = [] ↔
      (showTokens || entry.calculation.report.result.isOk) = false := by
  unfold printed
  cases showTokens <;> cases entry.calculation.report.result <;>
    simp [Except.isOk, Except.toBool]

/-- The entry of a line prints exactly if the line does. -/
theorem printed_of_mem_entriesFrom (showTokens : Bool) {number : Nat} {lines : List String}
    {entry : Entry} (h : entry ∈ entriesFrom number (lines.map String.toList)) :
    ∃ line ∈ lines, (entry.printed showTokens = [] ↔ prints showTokens line = false) := by
  obtain ⟨cs, hcs, hblank, hcalculation⟩ := mem_entriesFrom.1 h
  obtain ⟨line, hline, rfl⟩ := List.mem_map.1 (List.fst_mem_of_mem_zipIdx hcs)
  refine ⟨line, hline, ?_⟩
  rw [Entry.printed_eq_nil, hcalculation, String.ofList_toList, prints, isBlankLine, hblank]
  rfl

theorem printed_of_findIdx?_eq_none {script : String}
    (h : (Text.lines script).findIdx? (prints showTokens) = none) :
    ∀ entry ∈ entries script, entry.printed showTokens = [] := by
  intro entry hentry
  rw [entries_eq_lines] at hentry
  obtain ⟨line, hline, hprinted⟩ := printed_of_mem_entriesFrom showTokens hentry
  exact hprinted.2 (List.findIdx?_eq_none_iff.1 h line hline)

/-- The entries around the one of the first line that prints. -/
theorem exists_of_findIdx?_eq_some {script : String} {i : Nat}
    (h : (Text.lines script).findIdx? (prints showTokens) = some i) :
    ∃ before entry after, entries script = before ++ entry :: after ∧
      (∀ e ∈ before, e.printed showTokens = [] ∧ e.number ≤ i) ∧
      entry.printed showTokens ≠ [] ∧ ∀ e ∈ entry :: after, i < e.number := by
  obtain ⟨hi, hprints, hbefore⟩ := List.findIdx?_eq_some_iff_getElem.1 h
  set lines := Text.lines script with hlines
  have hsplit : lines = lines.take i ++ lines[i] :: lines.drop (i + 1) := by
    rw [List.getElem_cons_drop, List.take_append_drop]
  have hlength : (lines.take i).length = i := List.length_take_of_le hi.le
  have hblank : lines[i].toList.all Text.isBlank = false :=
    Bool.not_eq_eq_eq_not.1 (Bool.and_eq_true_iff.1 hprints).1
  refine ⟨entriesFrom 1 ((lines.take i).map String.toList), ⟨i + 1, calculate lines[i]⟩,
    entriesFrom (i + 2) ((lines.drop (i + 1)).map String.toList), ?_, ?_, ?_, ?_⟩
  · rw [entries_eq_lines, ← hlines]
    conv_lhs => rw [hsplit]
    rw [List.map_append, List.map_cons, entriesFrom_append, entriesFrom_cons, List.length_map,
      hlength, Nat.add_comm 1 i, Entry.ofLine?, hblank, String.ofList_toList]
    rfl
  · intro e he
    obtain ⟨line, hline, hprinted⟩ := printed_of_mem_entriesFrom showTokens he
    obtain ⟨k, hk, rfl⟩ := List.mem_take_iff_getElem.1 hline
    have hnumber := (number_of_mem_entriesFrom he).2
    rw [List.length_map, hlength] at hnumber
    exact ⟨hprinted.2 (Bool.eq_false_iff.2 (hbefore k (by omega))), by omega⟩
  · rw [Ne, Entry.printed_eq_nil, Bool.not_eq_false]
    exact (Bool.and_eq_true_iff.1 hprints).2
  · rintro e (_ | ⟨_, he⟩)
    · exact Nat.lt_succ_self i
    · have hnumber := (number_of_mem_entriesFrom he).1
      omega

/-- Error lines are told apart by their numbers. -/
theorem filter_number_errorLines {before after : List Entry} {i : Nat}
    (hbefore : ∀ e ∈ before, e.number ≤ i) (hafter : ∀ e ∈ after, i < e.number) :
    ((before ++ after).filterMap Entry.errorLine?).filter (·.number ≤ i) =
      before.filterMap Entry.errorLine? := by
  have hkept : (before.filterMap Entry.errorLine?).filter (·.number ≤ i) =
      before.filterMap Entry.errorLine? := by
    refine List.filter_eq_self.2 fun line hline => ?_
    obtain ⟨e, he, heline⟩ := List.mem_filterMap.1 hline
    rw [Entry.number_of_errorLine? heline]
    exact decide_eq_true (hbefore e he)
  have hdropped : (after.filterMap Entry.errorLine?).filter (·.number ≤ i) = [] := by
    refine List.filter_eq_nil_iff.2 fun line hline => ?_
    obtain ⟨e, he, heline⟩ := List.mem_filterMap.1 hline
    rw [Entry.number_of_errorLine? heline, decide_eq_true_eq]
    exact Nat.not_le_of_lt (hafter e he)
  rw [List.filterMap_append, List.filter_append, hkept, hdropped, List.append_nil]

/-! ### Events up to the first line printed -/

theorem Entry.out?_of_printed_eq_nil {entry : Entry} (h : entry.printed showTokens = []) :
    ∀ event ∈ entry.events showTokens, event.out?.isNone = true := by
  rw [← filterMap_out?_events, List.filterMap_eq_nil_iff] at h
  exact fun event hevent => by rw [h event hevent]; rfl

/-- Nothing but records comes before the first line that an entry prints. -/
theorem Entry.exists_events {entry : Entry} (h : entry.printed showTokens ≠ []) :
    ∃ (records : List Record) (line : String) (rest : List Event),
      entry.events showTokens = records.map .log ++ .out line :: rest := by
  rw [Ne, printed_eq_nil, Bool.not_eq_false] at h
  cases showTokens with
  | true =>
    exact ⟨entry.calculation.reading.records, _, _, by
      simp only [events, if_pos, listing, List.append_assoc]; rfl⟩
  | false =>
    cases hresult : entry.calculation.report.result with
    | ok value =>
      exact ⟨entry.calculation.records, toString value, [], by simp [events, outcome, hresult]⟩
    | error fault => simp [hresult, Except.isOk, Except.toBool] at h

theorem out?_of_mem_log {records : List Record} :
    ∀ event ∈ records.map Event.log, event.out?.isNone = true := by
  intro event hevent
  obtain ⟨record, -, rfl⟩ := List.mem_map.1 hevent
  rfl

theorem takeWhile_events {before : List Entry} {entry : Entry} (after : List Entry)
    (hbefore : ∀ e ∈ before, e.printed showTokens = []) (hentry : entry.printed showTokens ≠ []) :
    ∃ records : List Record,
      ((before ++ entry :: after).flatMap (Entry.events showTokens)).takeWhile (·.out?.isNone) =
        before.flatMap (Entry.events showTokens) ++ records.map Event.log := by
  obtain ⟨records, line, rest, hevents⟩ := Entry.exists_events hentry
  have hsilent : ∀ event ∈ before.flatMap (Entry.events showTokens),
      event.out?.isNone = true := by
    intro event hevent
    obtain ⟨e, he, hevent⟩ := List.mem_flatMap.1 hevent
    exact Entry.out?_of_printed_eq_nil (hbefore e he) event hevent
  refine ⟨records, ?_⟩
  rw [List.flatMap_append, List.flatMap_cons, hevents, List.takeWhile_append_of_pos hsilent,
    List.append_assoc, List.takeWhile_append_of_pos out?_of_mem_log, List.cons_append,
    List.takeWhile_cons_of_neg (by simp [Event.out?]), List.append_nil]

end

end Script

open Script

namespace CommandLine

variable {settings : Settings} {read : String → Except ReadFailure ByteArray} {script : String}
  {arguments : List String}

/-- Without records a performance is that of the script alone. -/
theorem ofEvents_ofSettings (h : settings.Gives read script) :
    let p := Performance.ofSettings settings read
    Transcript.ofEvents 0 p.succeeded p.events = runScript script settings.showTokens := by
  simp only [Transcript.ofEvents, filterMap_out?_ofSettings h, filterMap_err?_ofSettings h,
    lines_zero_diagnostics, runScript]
  rw [ofSettings_eq h]

/-- At most a record comes before the events of the script. -/
theorem exists_ofSettings_eq (h : settings.Gives read script) :
    ∃ records : List Record, Performance.ofSettings settings read =
      ⟨records.map .log ++ Script.events settings.showTokens script, Script.succeeded script⟩ := by
  rw [ofSettings_eq h]
  cases settings.fromFile with
  | false => exact ⟨[], rfl⟩
  | true => exact ⟨[.opened settings.contents], rfl⟩

theorem cutShort_eq (why : String) (p : Performance) :
    p.cutShort why = if p.events.filterMap Event.out? = [] then p
      else ⟨p.events.takeWhile (·.out?.isNone) ++ [Performance.writeFailure why], false⟩ := by
  have hsilent : p.events.filterMap Event.out? = [] ↔ ¬p.events.any (·.out?.isSome) = true := by
    simp
  rw [Performance.cutShort, ite_congr (propext hsilent) (fun _ => rfl) (fun _ => rfl), ite_not]

/-- Of the entries before the first that prints the error lines are told, and nothing of any
later one. -/
theorem ofEvents_cutShort (h : settings.Gives read script) (why : String)
    {before after : List Entry} {entry : Entry} (hentries : entries script = before ++ entry :: after)
    (hbefore : ∀ e ∈ before, e.printed settings.showTokens = [])
    (hentry : entry.printed settings.showTokens ≠ []) :
    let p := (Performance.ofSettings settings read).cutShort why
    Transcript.ofEvents 0 p.succeeded p.events =
      ⟨false, "", Text.unlines ((before.filterMap Entry.errorLine?).map ErrorLine.text ++
        ["Failed to write output: " ++ why])⟩ := by
  obtain ⟨opened, hp⟩ := exists_ofSettings_eq h
  obtain ⟨records, htake⟩ := takeWhile_events after hbefore hentry
  set told : List Event := opened.map .log ++
    (before.flatMap (Entry.events settings.showTokens) ++ records.map .log) with htold
  have hcut : (Performance.ofSettings settings read).cutShort why =
      ⟨told ++ [Performance.writeFailure why], false⟩ := by
    have hprints : (opened.map Event.log ++ Script.events settings.showTokens script).filterMap
        Event.out? ≠ [] := by
      rw [List.filterMap_append, filterMap_out?_log, List.nil_append, Script.events,
        filterMap_out?_events, hentries, List.flatMap_append, List.flatMap_cons]
      simp [hentry]
    rw [hp, cutShort_eq, if_neg hprints, List.takeWhile_append_of_pos out?_of_mem_log,
      Script.events, hentries, htake]
  have hout : told.filterMap Event.out? = [] := by
    rw [htold, List.filterMap_append, List.filterMap_append, filterMap_out?_log,
      filterMap_out?_log, filterMap_out?_events, List.flatMap_eq_nil_iff.2 hbefore]
    rfl
  have herr : told.filterMap (Event.err? 0) =
      (before.filterMap Entry.errorLine?).map ErrorLine.text := by
    rw [htold, List.filterMap_append, List.filterMap_append, filterMap_err?_zero_log,
      filterMap_err?_zero_log, filterMap_err?_zero_events, List.nil_append, List.append_nil]
  simp only [hcut, Transcript.ofEvents, List.filterMap_append, hout, herr]
  rfl

/-- The ending of a run whose writes to the standard output all fail, for the reason that is
given. -/
def Settings.interrupted (settings : Settings) (read : String → Except ReadFailure ByteArray)
    (why : String) : Ending :=
  let p := (Performance.ofSettings settings read).cutShort why
  .ofTranscript (.ofEvents settings.verbosity p.succeeded p.events)

/-- A run that has nothing for the standard output is not interrupted. -/
theorem interrupted_of_silent (h : settings.Gives read script) (hquiet : settings.verbosity = 0)
    (hsilent : ∀ entry ∈ entries script, entry.printed settings.showTokens = []) (why : String) :
    settings.interrupted read why = .ofTranscript (runScript script settings.showTokens) := by
  have hout : (Performance.ofSettings settings read).events.filterMap Event.out? = [] := by
    rw [filterMap_out?_ofSettings h, Script.events, filterMap_out?_events]
    exact List.flatMap_eq_nil_iff.2 hsilent
  rw [Settings.interrupted, cutShort_eq, if_pos hout, hquiet]
  exact congrArg Ending.ofTranscript (ofEvents_ofSettings h)

/-- If writes to the standard output fail, a run without records ends at the first line that gives
something for it. The error lines of the lines before are told, and then what is wrong with the
output. If no line gives anything, the run is that of a working output. -/
theorem run_full (hmarks : (Mark.ofArguments arguments).Perm settings.marks)
    (h : settings.Gives read script) (hquiet : settings.verbosity = 0) :
    let normal := runScript script settings.showTokens
    let first := (Text.lines script).findIdx? (prints settings.showTokens)
    run arguments read .working = .ofTranscript normal ∧
      run arguments read .full = settings.interrupted read Outlet.noSpace ∧
      (first = none → ∀ why, settings.interrupted read why = .ofTranscript normal) ∧
      ∀ i, first = some i →
        let told := Text.unlines (((errorLines script).filter (·.number ≤ i)).map ErrorLine.text)
        (∀ why, settings.interrupted read why =
          .exited 1 "" (told ++ Text.unlines ["Failed to write output: " ++ why])) ∧
        ∃ rest, normal.stderr = told ++ rest := by
  intro normal first
  refine ⟨?_, run_of_marks hmarks .full, fun hnone why => ?_, fun i hi => ?_⟩
  · rw [run_of_marks hmarks, hquiet]
    exact congrArg Ending.ofTranscript (ofEvents_ofSettings h)
  · exact interrupted_of_silent h hquiet (printed_of_findIdx?_eq_none hnone) why
  · obtain ⟨before, entry, after, hentries, hbefore, hentry, hafter⟩ :=
      exists_of_findIdx?_eq_some hi
    have htold : (errorLines script).filter (·.number ≤ i) =
        before.filterMap Entry.errorLine? := by
      rw [errorLines, hentries]
      exact filter_number_errorLines (fun e he => (hbefore e he).2) hafter
    have hstderr : normal.stderr = Text.unlines ((before.filterMap Entry.errorLine?).map
        ErrorLine.text ++ ((entry :: after).filterMap Entry.errorLine?).map ErrorLine.text) := by
      rw [stderr_runScript, errorLines, hentries, List.filterMap_append, List.map_append]
    rw [Text.unlines_append] at hstderr
    rw [htold]
    refine ⟨fun why => ?_, _, hstderr⟩
    rw [Settings.interrupted, hquiet, ← Text.unlines_append]
    exact congrArg Ending.ofTranscript
      (ofEvents_cutShort h why hentries (fun e he => (hbefore e he).1) hentry)

/-- A file whose fourth line is the first with a value, a script whose first line has its tokens
shown although it has no value, and a script without any value. -/
theorem run_full_fourth_line :
    (let settings : Settings := ⟨true, false, 0, "sums.calc"⟩
      let script := "(2\n \n1/0\n7\n+"
      let read : String → Except ReadFailure ByteArray := fun _ => .ok script.toUTF8
      (Mark.ofArguments ["-f", "sums.calc"]).Perm settings.marks ∧ settings.Gives read script ∧
        settings.verbosity = 0 ∧ (Text.lines script).findIdx? (prints false) = some 3 ∧
        run ["-f", "sums.calc"] read .full = .exited 1 "" (Text.unlines
          ["Error on line 1: Malformed expression.", "Error on line 3: Division by zero.",
            "Failed to write output: No space left on device (os error 28)"])) ∧
    (let settings : Settings := ⟨false, true, 0, "1/0\n2"⟩
      let read : String → Except ReadFailure ByteArray := fun _ => .error .notFound
      (Mark.ofArguments ["1/0\n2", "-t"]).Perm settings.marks ∧ settings.Gives read "1/0\n2" ∧
        settings.verbosity = 0 ∧ (Text.lines "1/0\n2").findIdx? (prints true) = some 0 ∧
        run ["1/0\n2", "-t"] read .full = .exited 1 ""
          "Failed to write output: No space left on device (os error 28)\n") ∧
    let settings : Settings := ⟨false, false, 0, "(2\n1/0"⟩
    let read : String → Except ReadFailure ByteArray := fun _ => .error .notFound
    (Mark.ofArguments ["(2\n1/0"]).Perm settings.marks ∧ settings.Gives read "(2\n1/0" ∧
      settings.verbosity = 0 ∧ (Text.lines "(2\n1/0").findIdx? (prints false) = none ∧
      run ["(2\n1/0"] read .full = .ofTranscript (runScript "(2\n1/0" false) := by
  refine ⟨?_, ?_, ?_⟩
  · intro settings script read
    have hmarks : (Mark.ofArguments ["-f", "sums.calc"]).Perm settings.marks := by decide +kernel
    have hgives : settings.Gives read script := rfl
    have hfirst : (Text.lines script).findIdx? (prints false) = some 3 := by decide +kernel
    obtain ⟨-, hfull, -, hsome⟩ := run_full hmarks hgives rfl
    obtain ⟨hrun, -⟩ := hsome 3 hfirst
    exact ⟨hmarks, hgives, rfl, hfirst, hfull.trans ((hrun _).trans (by decide +kernel))⟩
  · intro settings read
    have hmarks : (Mark.ofArguments ["1/0\n2", "-t"]).Perm settings.marks := by decide +kernel
    have hgives : settings.Gives read "1/0\n2" := rfl
    have hfirst : (Text.lines "1/0\n2").findIdx? (prints true) = some 0 := by decide +kernel
    obtain ⟨-, hfull, -, hsome⟩ := run_full hmarks hgives rfl
    obtain ⟨hrun, -⟩ := hsome 0 hfirst
    exact ⟨hmarks, hgives, rfl, hfirst, hfull.trans ((hrun _).trans (by decide +kernel))⟩
  · intro settings read
    have hmarks : (Mark.ofArguments ["(2\n1/0"]).Perm settings.marks := by decide +kernel
    have hgives : settings.Gives read "(2\n1/0" := rfl
    have hfirst : (Text.lines "(2\n1/0").findIdx? (prints false) = none := by decide +kernel
    obtain ⟨-, hfull, hnone, -⟩ := run_full hmarks hgives rfl
    exact ⟨hmarks, hgives, rfl, hfirst, hfull.trans (hnone hfirst _)⟩

end CommandLine

end IntegerCalc
