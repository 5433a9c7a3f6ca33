import IntegerCalc.Proofs.ScriptLines
import Mathlib.Data.List.Forall2

/-! Scripts that differ where it does not matter. Of a piece between line feeds only its significant
characters count, and whether it is blank. Main statement: scripts whose pieces agree in both do the
same. So white space other than line feeds may come and go anywhere in a script, and a line may end
at a line feed alone or together with a carriage return. -/

namespace IntegerCalc

open Spelling

/-! ### Pieces -/

/-- Two pieces with the same significant characters, which are blank both or neither. -/
def Alike (a b : List Char) : Prop :=
  a.filter isSignificant = b.filter isSignificant ∧ a.all Text.isBlank = b.all Text.isBlank

instance (a b : List Char) : Decidable (Alike a b) := inferInstanceAs (Decidable (_ ∧ _))

namespace Script

/-- The entry without the spans of its line, which are shown in no output but the records. -/
def Entry.spanless (entry : Entry) : Entry :=
  { entry with calculation := { entry.calculation with
      reading := { entry.calculation.reading with discarded := [] } } }

theorem Entry.spanless_ofLine? {a b : List Char} (h : Alike a b) (number : Nat) :
    (ofLine? a number).map spanless = (ofLine? b number).map spanless := by
  have htokens : (read (String.ofList a)).tokens = (read (String.ofList b)).tokens := by
    rw [read_tokens, read_tokens, significant, significant, String.toList_ofList,
      String.toList_ofList, h.1]
  unfold ofLine?
  rw [h.2]
  split
  · rfl
  · simp only [Option.map_some, spanless, calculate, htokens]

theorem spanless_entriesFrom {a b : List (List Char)} (h : List.Forall₂ Alike a b)
    (number : Nat) :
    (entriesFrom number a).map Entry.spanless = (entriesFrom number b).map Entry.spanless := by
  induction h generalizing number with
  | nil => rfl
  | cons hpiece _ ih =>
    rw [entriesFrom_cons, entriesFrom_cons, List.map_append, List.map_append, ih,
      ← Option.toList_map, ← Option.toList_map, Entry.spanless_ofLine? hpiece]

theorem runScript_of_spanless {a b : String}
    (h : (entries a).map Entry.spanless = (entries b).map Entry.spanless) (showTokens : Bool) :
    runScript a showTokens = runScript b showTokens := by
  have hspanless : ∀ script : String, runScript script showTokens =
      let es := (entries script).map Entry.spanless
      ⟨es.all fun entry => entry.calculation.report.result.isOk,
        Text.unlines (es.flatMap (Entry.printed showTokens)),
        Text.unlines ((es.filterMap Entry.errorLine?).map ErrorLine.text)⟩ := by
    intro script
    simp only [List.all_map, List.flatMap_map, List.filterMap_map]
    exact runScript_eq script showTokens
  rw [hspanless, hspanless, h]

end Script

/-! ### White space -/

theorem Spelling.not_isBlank_of_isSignificant {c : Char} (h : isSignificant c = true) :
    Text.isBlank c = false := by
  rcases Bool.or_eq_true_iff.1 h with hdigit | hsymbol
  · have hbounds : 48 ≤ c.toNat ∧ c.toNat ≤ 57 := by
      simpa [Char.isDigit, UInt32.le_iff_toNat_le] using hdigit
    simp only [Text.isBlank, Text.blankRanges, List.any_cons, List.any_nil, Bool.or_false,
      Bool.or_eq_false_iff, Bool.and_eq_false_iff, decide_eq_false_iff_not]
    omega
  · have hall : "+-*/()".toList.all (!Text.isBlank ·) = true := by decide
    simpa using List.all_eq_true.1 hall c (List.contains_iff_mem.1 hsymbol)

/-- The line feeds of a text and its characters that are no white space. -/
def withoutBlanks (text : String) : List Char :=
  text.toList.filter fun c => c = '\n' || !Text.isBlank c

theorem splitOn_withoutBlanks (text : String) :
    (withoutBlanks text).splitOn '\n' =
      (text.toList.splitOn '\n').map fun piece => piece.filter (!Text.isBlank ·) := by
  unfold withoutBlanks
  induction text.toList with
  | nil => rfl
  | cons c cs ih =>
    by_cases hfeed : c = '\n'
    · subst hfeed
      rw [List.filter_cons_of_pos (by decide), List.splitOn_cons_eq_if_modifyHead, ih,
        List.splitOn_cons_eq_if_modifyHead]
      rfl
    · have hmodify : ∀ cs : List Char,
          (c :: cs).splitOn '\n' = (cs.splitOn '\n').modifyHead (c :: ·) := fun cs => by
        rw [List.splitOn_cons_eq_if_modifyHead, if_neg (by simpa using hfeed)]
      rw [hmodify]
      cases hblank : Text.isBlank c with
      | true =>
        rw [List.filter_cons_of_neg (by simp [hfeed, hblank]), ih]
        cases cs.splitOn '\n' <;> simp [hblank]
      | false =>
        rw [List.filter_cons_of_pos (by simp [hblank]), hmodify, ih]
        cases cs.splitOn '\n' <;> simp [hblank]

theorem alike_of_filter_eq {a b : List Char}
    (h : a.filter (!Text.isBlank ·) = b.filter (!Text.isBlank ·)) : Alike a b := by
  have hsignificant : ∀ piece : List Char, piece.filter isSignificant =
      (piece.filter (!Text.isBlank ·)).filter isSignificant := by
    intro piece
    rw [List.filter_filter]
    refine List.filter_congr fun c _ => ?_
    cases hc : isSignificant c with
    | true => rw [not_isBlank_of_isSignificant hc]; rfl
    | false => rfl
  have hblank : ∀ piece : List Char,
      piece.all Text.isBlank = (piece.filter (!Text.isBlank ·)).isEmpty := by
    intro piece
    induction piece with
    | nil => rfl
    | cons c piece ih => cases hc : Text.isBlank c <;> simp [hc, ih]
  exact ⟨by rw [hsignificant a, hsignificant b, h], by rw [hblank, hblank, h]⟩

theorem alike_splitOn_of_withoutBlanks {a b : String} (h : withoutBlanks a = withoutBlanks b) :
    List.Forall₂ Alike (a.toList.splitOn '\n') (b.toList.splitOn '\n') := by
  have hpieces : (a.toList.splitOn '\n').map (fun piece => piece.filter (!Text.isBlank ·)) =
      (b.toList.splitOn '\n').map fun piece => piece.filter (!Text.isBlank ·) := by
    rw [← splitOn_withoutBlanks, ← splitOn_withoutBlanks, h]
  rw [← List.forall₂_eq_eq_eq, List.forall₂_map_left_iff, List.forall₂_map_right_iff] at hpieces
  exact hpieces.imp fun _ _ => alike_of_filter_eq

theorem withoutBlanks_append (a b : String) :
    withoutBlanks (a ++ b) = withoutBlanks a ++ withoutBlanks b := by
  rw [withoutBlanks, String.toList_append, List.filter_append]
  rfl

theorem withoutBlanks_intercalate (lines : List String) :
    withoutBlanks ("\r\n".intercalate lines) = withoutBlanks ("\n".intercalate lines) := by
  induction lines with
  | nil => simp
  | cons line lines ih =>
    by_cases hlast : lines = []
    · simp [hlast]
    · have hends : withoutBlanks "\r\n" = withoutBlanks "\n" := by decide
      simp only [String.intercalate_cons_of_ne_nil hlast, withoutBlanks_append, hends, ih]

/-- Two scripts do the same if their pieces between line feeds have the same significant characters
and are blank at the same places. So no white space matters but line feeds, and a carriage return
before a line feed does not either. -/
theorem runScript_eq_of_alike (showTokens : Bool) :
    (∀ a b : String, List.Forall₂ Alike (a.toList.splitOn '\n') (b.toList.splitOn '\n') →
      runScript a showTokens = runScript b showTokens) ∧
    (∀ a b : String, withoutBlanks a = withoutBlanks b →
      runScript a showTokens = runScript b showTokens) ∧
    ∀ lines : List String, runScript ("\r\n".intercalate lines) showTokens =
      runScript ("\n".intercalate lines) showTokens := by
  have halike : ∀ a b : String,
      List.Forall₂ Alike (a.toList.splitOn '\n') (b.toList.splitOn '\n') →
        runScript a showTokens = runScript b showTokens := by
    intro a b h
    refine Script.runScript_of_spanless ?_ showTokens
    rw [Script.entries_eq_pieces, Script.entries_eq_pieces]
    exact Script.spanless_entriesFrom h 1
  have hblanks : ∀ a b : String, withoutBlanks a = withoutBlanks b →
      runScript a showTokens = runScript b showTokens :=
    fun a b h => halike a b (alike_splitOn_of_withoutBlanks h)
  exact ⟨halike, hblanks, fun lines => hblanks _ _ (withoutBlanks_intercalate lines)⟩

/-- Letters and wide white space in the lines, a final piece that is blank but not empty, and line
ends of both kinds. -/
theorem runScript_eq_of_alike_blank :
    (let a := "1+1\n\n(2\né3 /0\n"
      let b := "1 + 1 \r\n \u2028\nx(2\n3é\r /\u00850\n\t"
      List.Forall₂ Alike (a.toList.splitOn '\n') (b.toList.splitOn '\n') ∧
        runScript a true = runScript b true) ∧
    (let a := "x 1\r2\n\n7/0"
      let b := "x12\r\n\u3000\r\n7 / 0\r"
      withoutBlanks a = withoutBlanks b ∧ runScript a false = runScript b false) ∧
    runScript ("\r\n".intercalate ["1", "", "(2"]) false =
      runScript ("\n".intercalate ["1", "", "(2"]) false := by
  obtain ⟨-, -, hends⟩ := runScript_eq_of_alike false
  refine ⟨?_, ?_, hends _⟩
  · intro a b
    have halike : List.Forall₂ Alike (a.toList.splitOn '\n') (b.toList.splitOn '\n') := by
      decide +kernel
    exact ⟨halike, (runScript_eq_of_alike true).1 a b halike⟩
  · intro a b
    have hblanks : withoutBlanks a = withoutBlanks b := by decide +kernel
    exact ⟨hblanks, (runScript_eq_of_alike false).2.1 a b hblanks⟩

end IntegerCalc
