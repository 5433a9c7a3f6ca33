import IntegerCalc.CommandLine.Arguments
import Mathlib.Data.List.Perm.Basic

/-! Arguments without regard to their order. What has been seen of them is a collection of
marks, and one more mark is taken up whenever the larger collection is that of some state.
Main statement: marks ask for a calculation if they are those of its settings, in any order
and with any number of verbosity options. -/

namespace IntegerCalc.CommandLine

namespace Mark

def contents? : Mark → Option String
  | positional value => some value
  | _ => none

/-- Whether a mark is wrong wherever it stands. -/
def isWrong : Mark → Bool
  | unknown _ | valued _ _ => true
  | flag _ | positional _ => false

end Mark

namespace Seen

variable {seen next : Seen} {mark : Mark}

/-- The marks that lead to a state. -/
def marks (seen : Seen) : List Mark :=
  (if seen.file then [.flag .file] else []) ++ (if seen.tokens then [.flag .tokens] else []) ++
    List.replicate seen.verbosity (.flag .verbose) ++ seen.contents.toList.map .positional

theorem count_marks (seen : Seen) (flag : Flag) :
    seen.marks.count (.flag flag) =
      match flag with
      | .file => seen.file.toNat
      | .tokens => seen.tokens.toNat
      | .verbose => seen.verbosity
      | .help | .version => 0 := by
  obtain ⟨file, tokens, verbosity, contents⟩ := seen
  cases flag <;> cases file <;> cases tokens <;> cases contents <;>
    simp [marks, List.count_replicate]

theorem filterMap_contents?_marks (seen : Seen) :
    seen.marks.filterMap Mark.contents? = seen.contents.toList := by
  obtain ⟨file, tokens, verbosity, contents⟩ := seen
  cases file <;> cases tokens <;> cases contents <;>
    simp [marks, Mark.contents?, List.filterMap_cons, List.filterMap_replicate]

theorem isWrong_of_mem_marks (h : mark ∈ seen.marks) : mark.isWrong = false := by
  simp only [marks, List.mem_append, List.mem_map, List.mem_replicate] at h
  rcases h with ((h | h) | ⟨-, rfl⟩) | ⟨value, -, rfl⟩
  · split at h <;> simp_all [Mark.isWrong]
  · split at h <;> simp_all [Mark.isWrong]
  · rfl
  · rfl

theorem eq_of_marks_perm (h : seen.marks.Perm next.marks) : seen = next := by
  have hcount : ∀ flag, seen.marks.count (.flag flag) = next.marks.count (.flag flag) :=
    fun flag => h.count_eq _
  simp only [count_marks] at hcount
  have hcontents := h.filterMap Mark.contents?
  rw [filterMap_contents?_marks, filterMap_contents?_marks] at hcontents
  have hbool : ∀ a b : Bool, a.toNat = b.toNat → a = b := by decide
  obtain ⟨file, tokens, verbosity, contents⟩ := seen
  obtain ⟨file', tokens', verbosity', contents'⟩ := next
  obtain rfl : file = file' := hbool _ _ (hcount .file)
  obtain rfl : tokens = tokens' := hbool _ _ (hcount .tokens)
  obtain rfl : verbosity = verbosity' := hcount .verbose
  obtain rfl : contents = contents' := by
    cases contents <;> cases contents' <;> simp_all
  rfl

/-- A mark that is taken up joins the others. -/
theorem marks_of_add (h : seen.add mark = .ok next) : (mark :: seen.marks).Perm next.marks := by
  obtain ⟨file, tokens, verbosity, contents⟩ := seen
  match mark with
  | .flag .file =>
    cases file <;> cases h
    exact .refl _
  | .flag .tokens =>
    cases tokens <;> cases h
    simpa [marks] using List.perm_middle.symm
  | .flag .verbose =>
    cases h
    simp only [marks, List.replicate_succ, List.append_assoc _ _ (List.map ..), List.cons_append]
    exact List.perm_middle.symm
  | .positional value =>
    cases contents <;> cases h
    simp only [marks, Option.toList_none, Option.toList_some, List.map_nil, List.map_singleton,
      List.append_nil]
    exact (List.perm_append_singleton _ _).symm
  | .flag .help | .flag .version | .unknown _ | .valued _ _ => contradiction

/-- A mark is taken up if some state has room for it. -/
theorem exists_add {rest : List Mark} (h : (mark :: seen.marks ++ rest).Perm next.marks) :
    ∃ middle, seen.add mark = .ok middle := by
  have hflag : ∀ flag, mark = .flag flag →
      seen.marks.count (.flag flag) + 1 ≤ next.marks.count (.flag flag) := by
    rintro flag rfl
    rw [← h.count_eq, List.cons_append, List.count_cons_self, List.count_append]
    omega
  simp only [count_marks] at hflag
  match mark with
  | .flag .file =>
    have hroom : seen.file.toNat + 1 ≤ next.file.toNat := hflag .file rfl
    have hfile : seen.file = false := Bool.toNat_eq_zero.1 (by have := next.file.toNat_le; omega)
    exact ⟨{ seen with file := true }, by simp [add, hfile]⟩
  | .flag .tokens =>
    have hroom : seen.tokens.toNat + 1 ≤ next.tokens.toNat := hflag .tokens rfl
    have htokens : seen.tokens = false :=
      Bool.toNat_eq_zero.1 (by have := next.tokens.toNat_le; omega)
    exact ⟨{ seen with tokens := true }, by simp [add, htokens]⟩
  | .flag .verbose => exact ⟨_, rfl⟩
  | .flag .help => exact absurd (hflag .help rfl) (Nat.not_succ_le_zero _)
  | .flag .version => exact absurd (hflag .version rfl) (Nat.not_succ_le_zero _)
  | .positional value =>
    have hlength := (h.filterMap Mark.contents?).length_eq
    rw [filterMap_contents?_marks, List.cons_append, List.filterMap_cons, List.filterMap_append,
      filterMap_contents?_marks] at hlength
    have hnone : seen.contents = none := by
      cases hs : seen.contents with
      | none => rfl
      | some _ => cases hn : next.contents <;> simp [hs, hn, Mark.contents?] at hlength
    exact ⟨{ seen with contents := some value }, by simp [add, hnone]⟩
  | .unknown _ | .valued _ _ =>
    have hmem := h.subset (List.mem_append_left rest List.mem_cons_self)
    exact Bool.noConfusion (isWrong_of_mem_marks hmem)

/-- Marks are taken up exactly if they make up the difference between two states. -/
theorem foldlM_add_eq_ok {marks : List Mark} :
    marks.foldlM add seen = .ok next ↔ (marks ++ seen.marks).Perm next.marks := by
  -- A step only moves a mark from the left part of the collection to the right one.
  induction marks generalizing seen with
  | nil => exact ⟨fun h => by cases h; exact .refl _, fun h => by rw [eq_of_marks_perm h]; rfl⟩
  | cons mark marks ih =>
    rw [List.foldlM_cons]
    constructor
    · intro h
      cases hadd : seen.add mark with
      | error request =>
        rw [hadd] at h
        contradiction
      | ok middle =>
        rw [hadd] at h
        exact (List.perm_middle.symm.trans ((marks_of_add hadd).append_left marks)).trans (ih.1 h)
    · intro h
      have hroom : (mark :: seen.marks ++ marks).Perm next.marks :=
        (List.perm_append_comm.cons mark).trans h
      obtain ⟨middle, hadd⟩ := exists_add hroom
      rw [hadd]
      exact ih.2 ((((marks_of_add hadd).symm.append_left marks).trans List.perm_middle).trans h)

end Seen

/-- The marks that ask for a calculation with these settings. -/
def Settings.marks (settings : Settings) : List Mark :=
  Seen.marks ⟨settings.fromFile, settings.showTokens, settings.verbosity, some settings.contents⟩

theorem Request.ofMarks_of_perm {marks : List Mark} {settings : Settings}
    (h : marks.Perm settings.marks) : Request.ofMarks marks = .calculate settings := by
  have hseen : marks.foldlM Seen.add {} = .ok ⟨settings.fromFile, settings.showTokens,
      settings.verbosity, some settings.contents⟩ :=
    Seen.foldlM_add_eq_ok.2 ((List.append_nil marks).symm ▸ h)
  rw [Request.ofMarks, hseen]

/-! ### One way to write the arguments -/

theorem Mark.ofArguments_cons {argument : String} (h : argument ≠ "--")
    (arguments : List String) :
    Mark.ofArguments (argument :: arguments) =
      Mark.ofArgument argument ++ Mark.ofArguments arguments := by
  simp [ofArguments, h]

/-- Single options in front of `--`, and the contents after it. -/
def Settings.arguments (settings : Settings) : List String :=
  (if settings.fromFile then ["-f"] else []) ++ (if settings.showTokens then ["-t"] else []) ++
    List.replicate settings.verbosity "-v" ++ ["--", settings.contents]

end IntegerCalc.CommandLine
