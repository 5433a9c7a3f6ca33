import IntegerCalc.Proofs.Diagnostics
import IntegerCalc.Proofs.Requests
import Mathlib.Logic.Relation

/-! Options written in another way where they stand. Short options may be joined or stand alone,
each may be given by its name instead, and of the verbosity options only the first three count.
Main statement: none of this changes the ending of a run, not even what it tells of arguments that
are wrong. -/

namespace IntegerCalc

/-- A verbosity may be cut down to any bound from three on, such as 255. -/
theorem Transcript.ofEvents_min {bound : Nat} (h : 3 ≤ bound) (verbosity : Nat) (succeeded : Bool)
    (events : List Event) :
    ofEvents (min verbosity bound) succeeded events = ofEvents verbosity succeeded events := by
  have hadmitted : ∀ record : Record,
      record.admitted (min verbosity bound) = record.admitted verbosity := by
    intro record
    have hlevel : record.level.verbosity ≤ bound := record.level.verbosity_le.trans h
    simp only [Record.admitted, Nat.le_min, hlevel, and_true]
  have herr : Event.err? (min verbosity bound) = Event.err? verbosity := by
    funext event
    cases event with
    | out line | err line => rfl
    | log record => rw [Event.err?, Event.err?, hadmitted]
  rw [ofEvents, ofEvents, herr]

/-- Which elements come first, and where, does not change with one that has come before. -/
theorem eraseDups_append_cons {α : Type} [BEq α] [LawfulBEq α] {before : List α} {x : α}
    (h : x ∈ before) (after : List α) :
    (before ++ x :: after).eraseDups = (before ++ after).eraseDups := by
  rw [List.eraseDups_append, List.eraseDups_append, List.removeAll,
    List.filter_cons_of_neg (by simpa using h), List.removeAll]

namespace CommandLine

/-! ### Options as they are written -/

namespace Flag

/-- The flags that set something. The others end a run at once. -/
def isSetting : Flag → Bool
  | file | tokens | verbose => true
  | help | version => false

def letter : Flag → Char
  | file => 'f'
  | tokens => 't'
  | verbose => 'v'
  | help => 'h'
  | version => 'V'

/-- Short options joined behind one dash. -/
def joined (flags : List Flag) : String := String.ofList ('-' :: flags.map letter)

theorem long_of_ofLong? {name : String} {flag : Flag} (h : ofLong? name = some flag) :
    "--" ++ name = flag.long := by
  unfold ofLong? at h
  split at h <;> cases h <;> rfl

end Flag

/-- Whether an argument is an option for help or version: by its name, or because one of the two
letters is the first among joined ones other than `f`, `t` and `v`. Behind any further letter they
are not reached, as that one is wrong. -/
def asksAtOnce (argument : String) : Bool :=
  argument ∈ ["--help", "--version"] ||
    match argument.toList with
    | '-' :: letters => (letters.find? (· ∉ ['f', 't', 'v'])).any (· ∈ ['h', 'V'])
    | _ => false

/-- An argument that neither ends the options nor asks for help or version. -/
def Ordinary (argument : String) : Prop := argument ≠ "--" ∧ asksAtOnce argument = false

instance (argument : String) : Decidable (Ordinary argument) := inferInstanceAs (Decidable (_ ∧ _))

/-- One step that writes options in another way, where they stand. -/
inductive Respelling : List String → List String → Prop
  /-- Joined short options are cut in two. -/
  | split (before after : List String) {flags flags' : List Flag} (h : flags ≠ [])
      (h' : flags' ≠ []) (hsettings : ∀ flag ∈ flags ++ flags', flag.isSetting = true) :
      Respelling (before ++ Flag.joined (flags ++ flags') :: after)
        (before ++ Flag.joined flags :: Flag.joined flags' :: after)
  /-- A short option is given by its name. -/
  | name (before after : List String) {flag : Flag} (h : flag.isSetting = true) :
      Respelling (before ++ Flag.joined [flag] :: after) (before ++ flag.long :: after)
  /-- A verbosity option after the third is left out. -/
  | surplus {before : List String} (after : List String) (h : 3 ≤ before.count "-v") :
      Respelling (before ++ "-v" :: after) (before ++ after)

theorem ordinary_joined {flags : List Flag} (h : ∀ flag ∈ flags, flag.isSetting = true) :
    Ordinary (Flag.joined flags) := by
  have hletters : ∀ c ∈ flags.map Flag.letter, c ∈ ['f', 't', 'v'] := by
    intro c hc
    obtain ⟨flag, hflag, rfl⟩ := List.mem_map.1 hc
    have hsetting := h flag hflag
    cases flag with
    | file | tokens | verbose => decide
    | help | version => contradiction
  have hname : ∀ name : String, '-' ∈ name.toList.tail → Flag.joined flags ≠ name := by
    rintro _ hdash rfl
    rw [Flag.joined, String.toList_ofList, List.tail_cons] at hdash
    exact absurd (hletters _ hdash) (by decide)
  have hfind : (flags.map Flag.letter).find? (· ∉ ['f', 't', 'v']) = none :=
    List.find?_eq_none.2 fun c hc => by simp [hletters c hc]
  refine ⟨hname _ (by decide), Bool.or_eq_false_iff.2 ⟨decide_eq_false ?_, ?_⟩⟩
  · simp only [List.mem_cons, List.not_mem_nil, or_false, not_or]
    exact ⟨hname _ (by decide), hname _ (by decide)⟩
  · rw [Flag.joined, String.toList_ofList]
    exact congrArg (Option.any _) hfind

theorem ordinary_long {flag : Flag} (h : flag.isSetting = true) : Ordinary flag.long := by
  cases flag with
  | file | tokens | verbose => decide +kernel
  | help | version => contradiction

/-! ### Marks -/

namespace Mark

theorem ofArgument_letters {argument : String} {c : Char} {cs : List Char}
    (h : argument.toList = '-' :: c :: cs) (hc : c ≠ '-') :
    ofArgument argument = (c :: cs).map ofLetter := by
  rw [ofArgument, h]
  split <;> simp_all

theorem ofArgument_joined {flags : List Flag} (h : flags ≠ []) :
    ofArgument (Flag.joined flags) = flags.map .flag := by
  have hknown : ∀ f : Flag, ofLetter f.letter = flag f := by
    intro flag
    cases flag <;> rfl
  obtain ⟨first, rest, rfl⟩ := List.exists_cons_of_ne_nil h
  have hdash : first.letter ≠ '-' := by cases first <;> decide
  have htext : (Flag.joined (first :: rest)).toList =
      '-' :: first.letter :: rest.map Flag.letter := String.toList_ofList
  rw [ofArgument_letters htext hdash, ← List.map_cons, List.map_map]
  exact List.map_congr_left fun flag _ => hknown flag

theorem ofArgument_long (flag : Flag) : ofArgument flag.long = [.flag flag] := by
  cases flag <;> decide +kernel

theorem patient_letters {letters : List Char}
    (h : (letters.find? (· ∉ ['f', 't', 'v'])).any (· ∈ ['h', 'V']) = false) :
    Patient (letters.map ofLetter) := by
  induction letters with
  | nil => exact patient_nil
  | cons c letters ih =>
    rw [List.map_cons]
    by_cases hc : c ∈ ['f', 't', 'v']
    · rw [List.find?_cons_of_neg (by simp [hc])] at h
      have hsetting : c = 'f' ∨ c = 't' ∨ c = 'v' := by simpa using hc
      rcases hsetting with rfl | rfl | rfl <;>
        exact (patient_cons (by decide)).2 ⟨by decide, ih h⟩
    · rw [List.find?_cons_of_pos (by simp [hc])] at h
      have hnone : Flag.ofShort? c = none := by
        unfold Flag.ofShort?
        split <;> simp_all
      exact patient_of_isWrong (by rw [ofLetter, hnone]; rfl) _

theorem long_of_ofLong {text : List Char} {f : Flag} (h : ofLong text = flag f) :
    String.ofList ('-' :: '-' :: text) = f.long := by
  simp only [ofLong] at h
  split at h <;> cases h
  rename_i hvalue hflag
  -- Without a value the whole text is the name.
  have htext : text.takeWhile (· ≠ '=') = text := by
    rw [← List.append_nil (text.takeWhile _), ← hvalue]
    exact List.takeWhile_append_dropWhile
  rw [htext] at hflag
  rw [← Flag.long_of_ofLong? hflag, ← String.toList_inj]
  simp

theorem patient_ofLong {text : List Char}
    (h : String.ofList ('-' :: '-' :: text) ∉ ["--help", "--version"]) :
    Patient [ofLong text] := by
  cases hmark : ofLong text with
  | flag f =>
    rw [long_of_ofLong hmark] at h
    refine (patient_cons rfl).2 ⟨⟨?_, ?_⟩, patient_nil⟩
    · rintro ⟨rfl⟩
      exact h (by decide)
    · rintro ⟨rfl⟩
      exact h (by decide)
  | unknown | valued => exact patient_of_isWrong rfl []
  | positional => exact (patient_cons rfl).2 ⟨by simp, patient_nil⟩

theorem patient_ofArgument {argument : String} (h : asksAtOnce argument = false) :
    Patient (ofArgument argument) := by
  obtain ⟨hnames, hletters⟩ := Bool.or_eq_false_iff.1 h
  unfold ofArgument
  split
  · rename_i text hargument
    refine patient_ofLong ?_
    rw [← hargument, String.ofList_toList]
    exact of_decide_eq_false hnames
  · rename_i c cs _ hargument
    rw [hargument] at hletters
    exact patient_letters hletters
  · exact (patient_cons rfl).2 ⟨by simp, patient_nil⟩

end Mark

section

variable {a b arguments : List String}

theorem Mark.ofArguments_eq_flatMap (h : ∀ argument ∈ arguments, Ordinary argument) :
    Mark.ofArguments arguments = arguments.flatMap Mark.ofArgument := by
  induction arguments with
  | nil => rfl
  | cons argument arguments ih =>
    obtain ⟨⟨hdashes, -⟩, hrest⟩ := List.forall_mem_cons.1 h
    rw [Mark.ofArguments_cons hdashes, ih hrest, List.flatMap_cons]

theorem Mark.patient_ofArguments (h : ∀ argument ∈ arguments, Ordinary argument) :
    Mark.Patient (Mark.ofArguments arguments) := by
  induction arguments with
  | nil => exact Mark.patient_nil
  | cons argument arguments ih =>
    obtain ⟨⟨hdashes, hasks⟩, hrest⟩ := List.forall_mem_cons.1 h
    rw [Mark.ofArguments_cons hdashes]
    exact (Mark.patient_ofArgument hasks).append (ih hrest)

/-! ### Runs -/

variable (read : String → Except ReadFailure ByteArray) (outlet : Outlet)

theorem run_eq_of_marks_eq (h : Mark.ofArguments a = Mark.ofArguments b) :
    run a read outlet = run b read outlet := by
  simp only [run, Request.ofArguments, Complaint.ofArguments, h]

/-- Of the verbosity options only the first three count. -/
theorem run_eq_of_more {request : Request} (ha : Request.ofArguments a = request.more)
    (hb : Request.ofArguments b = request)
    (hthree : ∀ settings, request = .calculate settings → 3 ≤ settings.verbosity)
    (hmarks : (Mark.ofArguments a).eraseDups = (Mark.ofArguments b).eraseDups) :
    run a read outlet = run b read outlet := by
  rw [run, run, ha, hb]
  cases request with
  | usageError error => simp only [Request.more, Complaint.ofArguments, hmarks]
  | help | version => rfl
  | calculate settings =>
    have hverbosity : 3 ≤ settings.verbosity := hthree settings rfl
    have hmore : ∀ succeeded events, Transcript.ofEvents (settings.verbosity + 1) succeeded events =
        Transcript.ofEvents settings.verbosity succeeded events := by
      intro succeeded events
      rw [← Transcript.ofEvents_min hverbosity (settings.verbosity + 1),
        Nat.min_eq_right (Nat.le_succ _)]
    simp only [Request.more, hmore]
    rfl

/-! ### Respellings -/

theorem ordinary_verbose : Ordinary "-v" := by decide +kernel

theorem Mark.ofArgument_verbose : Mark.ofArgument "-v" = [.flag .verbose] := by decide +kernel

theorem Mark.count_verbose_le (arguments : List String) :
    arguments.count "-v" ≤ (arguments.flatMap Mark.ofArgument).count (.flag .verbose) := by
  induction arguments with
  | nil => exact Nat.le_refl 0
  | cons argument arguments ih =>
    rw [List.flatMap_cons, List.count_append]
    by_cases h : argument = "-v"
    · subst h
      rw [List.count_cons_self, Mark.ofArgument_verbose, List.count_singleton_self]
      omega
    · rw [List.count_cons_of_ne h]
      omega

theorem Respelling.forall_ordinary (h : Respelling a b) :
    (∀ argument ∈ a, Ordinary argument) ↔ ∀ argument ∈ b, Ordinary argument := by
  cases h with
  | split before after _ _ hsettings =>
    obtain ⟨hleft, hright⟩ := List.forall_mem_append.1 hsettings
    simp only [List.forall_mem_append, List.forall_mem_cons, ordinary_joined hsettings,
      ordinary_joined hleft, ordinary_joined hright, true_and]
  | name before after h =>
    simp only [List.forall_mem_append, List.forall_mem_cons, ordinary_long h,
      ordinary_joined (List.forall_mem_singleton.2 h), true_and]
  | surplus after h =>
    simp only [List.forall_mem_append, List.forall_mem_cons, ordinary_verbose, true_and]

/-- A respelling leaves the marks as they are, but for a verbosity option after the third. -/
theorem Respelling.marks (h : Respelling a b) (ha : ∀ argument ∈ a, Ordinary argument) :
    Mark.ofArguments a = Mark.ofArguments b ∨
      ∃ before after, 3 ≤ before.count (.flag .verbose) ∧
        Mark.ofArguments a = before ++ .flag .verbose :: after ∧
        Mark.ofArguments b = before ++ after := by
  rw [Mark.ofArguments_eq_flatMap ha, Mark.ofArguments_eq_flatMap (h.forall_ordinary.1 ha)]
  cases h with
  | split before after h h' _ =>
    left
    simp only [List.flatMap_append, List.flatMap_cons, Mark.ofArgument_joined h,
      Mark.ofArgument_joined h', Mark.ofArgument_joined (List.append_ne_nil_of_left_ne_nil h _),
      List.map_append, List.append_assoc]
  | name before after h =>
    left
    simp only [List.flatMap_append, List.flatMap_cons, Mark.ofArgument_long,
      Mark.ofArgument_joined (List.cons_ne_nil _ _), List.map_singleton]
  | @surplus before after h =>
    right
    refine ⟨before.flatMap Mark.ofArgument, after.flatMap Mark.ofArgument,
      h.trans (Mark.count_verbose_le before), ?_, List.flatMap_append⟩
    rw [List.flatMap_append, List.flatMap_cons, Mark.ofArgument_verbose]
    rfl

theorem Respelling.run_eq (h : Respelling a b) (ha : ∀ argument ∈ a, Ordinary argument) :
    run a read outlet = run b read outlet := by
  rcases h.marks ha with hmarks | ⟨before, after, hthree, hmarks, hmarks'⟩
  · exact run_eq_of_marks_eq read outlet hmarks
  · have hpatient : Mark.Patient (before ++ after) :=
      hmarks' ▸ Mark.patient_ofArguments (h.forall_ordinary.1 ha)
    refine run_eq_of_more read outlet (by rw [Request.ofArguments, hmarks,
      Request.ofMarks_append_verbose hpatient]) (by rw [Request.ofArguments, hmarks']) ?_ ?_
    · intro settings hsettings
      rw [Request.verbosity_of_ofMarks hpatient hsettings, List.count_append]
      omega
    · rw [hmarks, hmarks', eraseDups_append_cons (List.count_pos_iff.1 (by omega))]

theorem Respelling.faulty_iff (h : Respelling a b) (ha : ∀ argument ∈ a, Ordinary argument) :
    Mark.Faulty (Mark.ofArguments a) ↔ Mark.Faulty (Mark.ofArguments b) := by
  rcases h.marks ha with hmarks | ⟨before, after, -, hmarks, hmarks'⟩
  · rw [hmarks]
  · rw [hmarks, hmarks', Mark.faulty_append_verbose]

end

end CommandLine

end IntegerCalc
