import IntegerCalc.CommandLine.Program
import IntegerCalc.Proofs.Arguments
import IntegerCalc.Proofs.ScriptLines

/-! What the program writes to the error output. Records stand there between the error lines of
the script, in an order that the verbosity does not touch: it only hides some of them. Main
statement: whatever the verbosity, and whether the script is given in the arguments or in a
file, the standard output, the exit status and the error lines are those of the script alone. -/

namespace IntegerCalc

/-! ### Verbosity -/

theorem Level.verbosity_le (level : Level) : level.verbosity ≤ 3 := by
  cases level <;> decide

open Script

/-- What a line of the error output tells. -/
inductive Diagnostic where
  | record (record : Record)
  | error (line : ErrorLine)

namespace Diagnostic

def text : Diagnostic → String
  | record r => r.line
  | error line => line.text

/-- A verbosity hides the records that it does not admit, but no error line. -/
def visible (verbosity : Nat) : Diagnostic → Bool
  | record r => r.admitted verbosity
  | error _ => true

/-- The lines that a verbosity leaves of all diagnostics. -/
def lines (verbosity : Nat) (ds : List Diagnostic) : List String :=
  (ds.filter (visible verbosity)).map text

section

variable (verbosity : Nat)

theorem lines_append (a b : List Diagnostic) :
    lines verbosity (a ++ b) = lines verbosity a ++ lines verbosity b := by
  simp only [lines, List.filter_append, List.map_append]

theorem lines_flatMap {α : Type} (f : α → List Diagnostic) (xs : List α) :
    lines verbosity (xs.flatMap f) = xs.flatMap fun x => lines verbosity (f x) := by
  induction xs with
  | nil => rfl
  | cons x xs ih => rw [List.flatMap_cons, List.flatMap_cons, lines_append, ih]

theorem lines_records (records : List Record) :
    lines verbosity (records.map record) =
      (records.filter (Record.admitted verbosity)).map Record.line := by
  rw [lines, List.filter_map, List.map_map]
  rfl

theorem lines_errors (errors : List ErrorLine) :
    lines verbosity (errors.map error) = errors.map ErrorLine.text := by
  have hall : errors.filter (visible verbosity ∘ error) = errors :=
    List.filter_eq_self.2 fun _ _ => rfl
  rw [lines, List.filter_map, List.map_map, hall]
  rfl

end

end Diagnostic

/-! ### Scripts -/

namespace Script

/-- The records of an entry, and then what is wrong with its line. -/
def Entry.diagnostics (showTokens : Bool) (entry : Entry) : List Diagnostic :=
  (entry.records showTokens).map .record ++ entry.errorLine?.toList.map .error

theorem filterMap_err?_events (verbosity : Nat) (showTokens : Bool) (script : String) :
    (events showTokens script).filterMap (Event.err? verbosity) =
      Diagnostic.lines verbosity ((entries script).flatMap (Entry.diagnostics showTokens)) := by
  rw [events, List.filterMap_flatMap, Diagnostic.lines_flatMap]
  congr 1
  funext entry
  rw [Entry.filterMap_err?_events, Entry.diagnostics, Diagnostic.lines_append,
    Diagnostic.lines_records, Diagnostic.lines_errors, Option.toList_map]

end Script

namespace CommandLine

/-- The script that the settings name: the contents, or the text of the file of this name. -/
def Settings.Gives (settings : Settings) (read : String → Except ReadFailure ByteArray)
    (script : String) : Prop :=
  if settings.fromFile then read settings.contents = .ok script.toUTF8
  else settings.contents = script

/-- All that is told of a script: the file it was read from, and then entry by entry. -/
def Settings.diagnostics (settings : Settings) (script : String) : List Diagnostic :=
  (if settings.fromFile then [.record (.opened settings.contents)] else []) ++
    (entries script).flatMap (Entry.diagnostics settings.showTokens)

variable {settings : Settings} {read : String → Except ReadFailure ByteArray} {script : String}

theorem fromUTF8?_toUTF8 (text : String) : String.fromUTF8? text.toUTF8 = some text := by
  have hvalid : text.toUTF8.IsValidUTF8 := text.isValidUTF8
  rw [String.fromUTF8?, dif_pos hvalid]
  rfl

theorem ofSettings_eq (h : settings.Gives read script) :
    Performance.ofSettings settings read =
      ⟨(if settings.fromFile then [.log (.opened settings.contents)] else []) ++
        Script.events settings.showTokens script, Script.succeeded script⟩ := by
  unfold Settings.Gives at h
  unfold Performance.ofSettings
  split
  · rename_i hfile
    rw [if_pos hfile] at h
    simp only [Performance.ofFile, h, Except.bind, fromUTF8?_toUTF8, Option.elim_some,
      List.singleton_append]
  · rename_i hfile
    rw [if_neg hfile] at h
    rw [Performance.ofScript, h, List.nil_append]

theorem filterMap_err?_ofSettings (h : settings.Gives read script) (verbosity : Nat) :
    (Performance.ofSettings settings read).events.filterMap (Event.err? verbosity) =
      Diagnostic.lines verbosity (settings.diagnostics script) := by
  rw [ofSettings_eq h, Settings.diagnostics, List.filterMap_append, Diagnostic.lines_append,
    filterMap_err?_events]
  congr 1
  split
  · exact (filterMap_err?_log verbosity [.opened settings.contents]).trans
      (Diagnostic.lines_records verbosity [.opened settings.contents]).symm
  · rfl

theorem filterMap_out?_ofSettings (h : settings.Gives read script) :
    (Performance.ofSettings settings read).events.filterMap Event.out? =
      (Script.events settings.showTokens script).filterMap Event.out? := by
  have hopened : ∀ opened : Bool,
      (if opened then [Event.log (.opened settings.contents)] else []).filterMap Event.out? =
        [] := by
    intro opened
    cases opened <;> rfl
  rw [ofSettings_eq h, List.filterMap_append, hopened, List.nil_append]

/-- Without records a file that was read leaves no trace. -/
theorem lines_zero_diagnostics (settings : Settings) (script : String) :
    Diagnostic.lines 0 (settings.diagnostics script) =
      (Script.events settings.showTokens script).filterMap (Event.err? 0) := by
  have hopened : Diagnostic.lines 0
      (if settings.fromFile then [.record (.opened settings.contents)] else []) = [] := by
    cases settings.fromFile with
    | false => rfl
    | true => simp [Diagnostic.lines, Diagnostic.visible, Record.not_admitted_zero]
  rw [Settings.diagnostics, Diagnostic.lines_append, hopened, List.nil_append,
    filterMap_err?_events]

theorem run_of_marks {arguments : List String}
    (hmarks : (Mark.ofArguments arguments).Perm settings.marks) (outlet : Outlet) :
    run arguments read outlet =
      let p := outlet.restrict (Performance.ofSettings settings read)
      .ofTranscript (.ofEvents settings.verbosity p.succeeded p.events) := by
  rw [run, Request.ofArguments, Request.ofMarks_of_perm hmarks]

end CommandLine

end IntegerCalc
