import IntegerCalc.Proofs.Arguments
import Mathlib.Data.List.TakeWhile

/-! What marks ask for if none of them asks for help or the version in time. The request is then a
calculation or a usage error. Main statement: it is a usage error exactly if an option is unknown or
has a value, if one that may be given only once is given again, or if there is not exactly one
positional argument. Of several errors the first one is reported. -/

namespace IntegerCalc.CommandLine

/-! ### Faults -/

namespace Mark

/-- No option for help or version comes before the first mark that is wrong wherever it stands. -/
def Patient (marks : List Mark) : Prop :=
  ∀ mark ∈ marks.takeWhile (!·.isWrong), mark ≠ .flag .help ∧ mark ≠ .flag .version

/-- Marks that no further ones can put right: an unknown option or one with a value, an option
given again that may be given only once, or a second positional argument. -/
def Excessive (marks : List Mark) : Prop :=
  marks.any isWrong = true ∨ 1 < marks.count (.flag .file) ∨ 1 < marks.count (.flag .tokens) ∨
    1 < (marks.filterMap contents?).length

instance (marks : List Mark) : Decidable (Excessive marks) :=
  inferInstanceAs (Decidable (_ ∨ _ ∨ _ ∨ _))

/-- Marks that are not those of a calculation. -/
def Faulty (marks : List Mark) : Prop := Excessive marks ∨ marks.filterMap contents? = []

instance (marks : List Mark) : Decidable (Faulty marks) := inferInstanceAs (Decidable (_ ∨ _))

/-- The usage error that is about a mark. -/
def error : Mark → UsageError
  | flag f => .repeated f
  | unknown option => .unexpected option
  | valued f value => .unneededValue f value
  | positional value => .unexpected value

/-- The error that comes up first when marks are read in order. It is about the mark with which
they become excessive. If none does, there may still be no positional argument in the end. -/
inductive FirstError (marks : List Mark) : UsageError → Prop
  | excess {n : Nat} (h : n < marks.length) (hbefore : ¬Excessive (marks.take n))
      (hmark : Excessive (marks.take (n + 1))) : FirstError marks marks[n].error
  | missing (h : ¬Excessive marks) (hnone : marks.filterMap contents? = []) :
      FirstError marks .missingContents

variable {mark : Mark} {marks : List Mark}

theorem patient_nil : Patient [] := by simp [Patient]

theorem patient_of_isWrong (h : mark.isWrong = true) (marks : List Mark) :
    Patient (mark :: marks) := by
  simp [Patient, h]

theorem patient_cons (h : mark.isWrong = false) :
    Patient (mark :: marks) ↔ (mark ≠ .flag .help ∧ mark ≠ .flag .version) ∧ Patient marks := by
  simp [Patient, List.takeWhile_cons_of_pos, h]

theorem Patient.append {a b : List Mark} (ha : Patient a) (hb : Patient b) :
    Patient (a ++ b) := by
  induction a with
  | nil => exact hb
  | cons mark a ih =>
    cases h : mark.isWrong with
    | true => exact patient_of_isWrong h _
    | false =>
      obtain ⟨hmark, ha⟩ := (patient_cons h).1 ha
      exact (patient_cons h).2 ⟨hmark, ih ha⟩

theorem excessive_of_perm {a b : List Mark} (h : a.Perm b) : Excessive a ↔ Excessive b := by
  rw [Excessive, Excessive, h.any_eq, h.count_eq, h.count_eq, (h.filterMap contents?).length_eq]

/-- The number of verbosity options makes no fault. -/
theorem faulty_append_verbose (before after : List Mark) :
    Faulty (before ++ flag .verbose :: after) ↔ Faulty (before ++ after) := by
  have hwrong : (flag .verbose).isWrong = false := rfl
  have hcontents : (flag .verbose).contents? = none := rfl
  simp [Faulty, Excessive, hwrong, hcontents]

theorem Excessive.of_sublist {a b : List Mark} (h : Excessive a) (hab : a.Sublist b) :
    Excessive b := by
  rcases h with hwrong | hfile | htokens | hcontents
  · obtain ⟨mark, hmark, hwrong⟩ := List.any_eq_true.1 hwrong
    exact .inl (List.any_eq_true.2 ⟨mark, hab.subset hmark, hwrong⟩)
  · exact .inr (.inl (hfile.trans_le (hab.count_le _)))
  · exact .inr (.inr (.inl (htokens.trans_le (hab.count_le _))))
  · exact .inr (.inr (.inr (hcontents.trans_le (hab.filterMap contents?).length_le)))

theorem FirstError.of_append {before : List Mark} (hbefore : ¬Excessive before)
    (hmark : Excessive (before ++ [mark])) (after : List Mark) :
    FirstError (before ++ mark :: after) mark.error := by
  have hlength : before.length < (before ++ mark :: after).length := by simp
  have hget : (before ++ mark :: after)[before.length] = mark := by simp
  have htake : (before ++ mark :: after).take (before.length + 1) = before ++ [mark] :=
    List.take_length_add_append 1
  have hfirst := FirstError.excess hlength (by rwa [List.take_left]) (by rwa [htake])
  rwa [hget] at hfirst

/-- There is only one first error. -/
theorem FirstError.unique {error error' : UsageError} (h : FirstError marks error)
    (h' : FirstError marks error') : error = error' := by
  have hlater : ∀ {m n : Nat}, m ≤ n → Excessive (marks.take m) → Excessive (marks.take n) :=
    fun hmn h => h.of_sublist (List.take_prefix_take_left hmn).sublist
  cases h with
  | @excess n _ hbefore hmark =>
    cases h' with
    | @excess n' _ hbefore' hmark' =>
      obtain rfl : n = n' := by
        rcases Nat.lt_trichotomy n n' with hlt | heq | hlt
        · exact absurd (hlater hlt hmark) hbefore'
        · exact heq
        · exact absurd (hlater hlt hmark') hbefore
      rfl
    | missing h' _ => exact absurd (hmark.of_sublist (List.take_sublist _ _)) h'
  | missing h _ =>
    cases h' with
    | excess _ _ hmark => exact absurd (hmark.of_sublist (List.take_sublist _ _)) h
    | missing => rfl

end Mark

/-! ### Taking marks up -/

namespace Seen

variable {seen : Seen} {mark : Mark} {marks : List Mark}

theorem not_excessive_marks (seen : Seen) : ¬Mark.Excessive seen.marks := by
  rintro (hwrong | hagain | hagain | hmany)
  · obtain ⟨mark, hmark, hwrong⟩ := List.any_eq_true.1 hwrong
    rw [isWrong_of_mem_marks hmark] at hwrong
    contradiction
  · rw [count_marks] at hagain
    exact absurd hagain (Nat.not_lt_of_le seen.file.toNat_le)
  · rw [count_marks] at hagain
    exact absurd hagain (Nat.not_lt_of_le seen.tokens.toNat_le)
  · rw [filterMap_contents?_marks] at hmany
    exact absurd hmany (Nat.not_lt_of_le (by cases seen.contents <;> simp))

theorem add_eq_error_or_ok (h : mark ≠ .flag .help ∧ mark ≠ .flag .version) (seen : Seen) :
    (seen.add mark = .error (.usageError mark.error) ∧ Mark.Excessive (mark :: seen.marks)) ∨
      ∃ next, seen.add mark = .ok next := by
  obtain ⟨file, tokens, verbosity, contents⟩ := seen
  match mark with
  | .flag .file =>
    cases file with
    | true => exact .inl ⟨rfl, .inr (.inl (by simp [marks]))⟩
    | false => exact .inr ⟨_, rfl⟩
  | .flag .tokens =>
    cases tokens with
    | true => exact .inl ⟨rfl, .inr (.inr (.inl (by cases file <;> simp [marks])))⟩
    | false => exact .inr ⟨_, rfl⟩
  | .flag .verbose => exact .inr ⟨_, rfl⟩
  | .flag .help => exact absurd rfl h.1
  | .flag .version => exact absurd rfl h.2
  | .unknown _ | .valued _ _ => exact .inl ⟨rfl, .inl rfl⟩
  | .positional value =>
    cases contents with
    | some _ =>
      refine .inl ⟨rfl, .inr (.inr (.inr ?_))⟩
      simp [Mark.contents?, filterMap_contents?_marks]
    | none => exact .inr ⟨_, rfl⟩

/-- The first mark that is not taken up makes a usage error. -/
theorem foldlM_add_eq_error_or_ok (h : Mark.Patient marks) (seen : Seen) :
    (∃ before mark after middle, marks = before ++ mark :: after ∧
      before.foldlM add seen = .ok middle ∧ Mark.Excessive (mark :: middle.marks) ∧
      marks.foldlM add seen = .error (.usageError mark.error)) ∨
      ∃ next, marks.foldlM add seen = .ok next := by
  induction marks generalizing seen with
  | nil => exact .inr ⟨seen, rfl⟩
  | cons mark marks ih =>
    rw [List.foldlM_cons]
    have hmark : mark ≠ .flag .help ∧ mark ≠ .flag .version := by
      cases hwrong : mark.isWrong with
      | true => constructor <;> rintro rfl <;> contradiction
      | false => exact ((Mark.patient_cons hwrong).1 h).1
    rcases add_eq_error_or_ok hmark seen with ⟨hadd, hexcess⟩ | ⟨next, hadd⟩
    · rw [hadd]
      exact .inl ⟨[], mark, marks, seen, rfl, rfl, hexcess, rfl⟩
    · have hwrong : mark.isWrong = false :=
        isWrong_of_mem_marks ((marks_of_add hadd).subset List.mem_cons_self)
      rw [hadd]
      rcases ih ((Mark.patient_cons hwrong).1 h).2 next with
        ⟨before, mark', after, middle, rfl, hbefore, hexcess, herror⟩ | hok
      · refine .inl ⟨mark :: before, mark', after, middle, rfl, ?_, hexcess, herror⟩
        rw [List.foldlM_cons, hadd]
        exact hbefore
      · exact .inr hok

/-- The state after one more verbosity option. -/
def more (seen : Seen) : Seen := { seen with verbosity := seen.verbosity + 1 }

theorem add_more (seen : Seen) (mark : Mark) : seen.more.add mark = (seen.add mark).map more := by
  obtain ⟨file, tokens, verbosity, contents⟩ := seen
  match mark with
  | .flag .file => cases file <;> rfl
  | .flag .tokens => cases tokens <;> rfl
  | .positional value => cases contents <;> rfl
  | .flag .verbose | .flag .help | .flag .version | .unknown _ | .valued _ _ => rfl

/-- A verbosity option that was seen before does not change what is seen of the other marks. -/
theorem foldlM_add_more (seen : Seen) (marks : List Mark) :
    marks.foldlM add seen.more = (marks.foldlM add seen).map more := by
  induction marks generalizing seen with
  | nil => rfl
  | cons mark marks ih =>
    rw [List.foldlM_cons, List.foldlM_cons, add_more]
    cases seen.add mark with
    | error request => rfl
    | ok next => exact ih next

end Seen

namespace Request

variable {marks : List Mark} {error : UsageError}

theorem ofMarks_eq_usageError_or_calculate (h : Mark.Patient marks) :
    (∃ error, ofMarks marks = .usageError error ∧ Mark.FirstError marks error) ∨
      ∃ settings, ofMarks marks = .calculate settings ∧ marks.Perm settings.marks := by
  rw [ofMarks]
  rcases Seen.foldlM_add_eq_error_or_ok h {} with
    ⟨before, mark, after, middle, rfl, hbefore, hexcess, herror⟩ | ⟨seen, hseen⟩
  · have hperm : before.Perm middle.marks :=
      (List.append_nil before).symm ▸ Seen.foldlM_add_eq_ok.1 hbefore
    have hmark : Mark.Excessive (before ++ [mark]) :=
      (Mark.excessive_of_perm ((List.perm_append_singleton mark before).trans (hperm.cons mark))).2
        hexcess
    have hfine : ¬Mark.Excessive before :=
      (Mark.excessive_of_perm hperm).not.2 (Seen.not_excessive_marks middle)
    rw [herror]
    exact .inl ⟨_, rfl, .of_append hfine hmark after⟩
  · have hperm : marks.Perm seen.marks :=
      (List.append_nil marks).symm ▸ Seen.foldlM_add_eq_ok.1 hseen
    rw [hseen]
    obtain ⟨file, tokens, verbosity, contents⟩ := seen
    cases contents with
    | none =>
      refine .inl ⟨_, rfl, .missing ?_ ?_⟩
      · exact (Mark.excessive_of_perm hperm).not.2 (Seen.not_excessive_marks _)
      · have hcontents := hperm.filterMap Mark.contents?
        rw [Seen.filterMap_contents?_marks] at hcontents
        exact hcontents.eq_nil
    | some contents => exact .inr ⟨_, rfl, hperm⟩

theorem verbosity_of_ofMarks {settings : Settings} (h : Mark.Patient marks)
    (hmarks : ofMarks marks = .calculate settings) :
    settings.verbosity = marks.count (.flag .verbose) := by
  rcases ofMarks_eq_usageError_or_calculate h with ⟨error, herror, -⟩ | ⟨_, hsettings, hperm⟩
  · rw [herror] at hmarks
    contradiction
  · rw [hsettings] at hmarks
    cases hmarks
    rw [hperm.count_eq, Settings.marks, Seen.count_marks]

/-- The request with one more verbosity option. -/
def more : Request → Request
  | calculate settings => calculate { settings with verbosity := settings.verbosity + 1 }
  | request => request

/-- A verbosity option may stand anywhere among the marks. -/
theorem ofMarks_append_verbose {before after : List Mark} (h : Mark.Patient (before ++ after)) :
    ofMarks (before ++ .flag .verbose :: after) = (ofMarks (before ++ after)).more := by
  have hfold : (before ++ .flag .verbose :: after).foldlM Seen.add {} =
      ((before ++ after).foldlM Seen.add {}).map Seen.more := by
    rw [List.foldlM_append, List.foldlM_append]
    cases before.foldlM Seen.add {} with
    | error request => rfl
    | ok seen => exact Seen.foldlM_add_more seen after
  rw [ofMarks, ofMarks, hfold]
  rcases Seen.foldlM_add_eq_error_or_ok h {} with
    ⟨_, _, _, _, -, -, -, hmarks⟩ | ⟨⟨_, _, _, contents⟩, hmarks⟩
  · rw [hmarks]
    rfl
  · rw [hmarks]
    cases contents <;> rfl

end Request

end IntegerCalc.CommandLine
