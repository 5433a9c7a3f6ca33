import IntegerCalc.Proofs.Reading
import IntegerCalc.Record

/-! What a reading passes over, as bytes. A character that is not recognized has the span of its
own bytes, whatever its width and the widths of the characters before it, also of white space that
is passed over without a record. Main statement: without the bytes of all spans the text is that of
its recognized characters, which has the same tokens and the same records but for the spans. -/

namespace IntegerCalc

open Spelling

/-! ### Spans of characters -/

/-- A digit, a symbol or white space. -/
def isRecognized (c : Char) : Bool := isSignificant c || Text.isBlank c

/-- The spans of the other characters, if the first of all stands at `offset`. -/
def straySpans (offset : Nat) : List Char → List Span
  | [] => []
  | c :: cs =>
    (if isRecognized c then [] else [⟨offset, offset + c.utf8Size⟩]) ++
      straySpans (offset + c.utf8Size) cs

namespace Scan

theorem step_discarded (s : Scan) (c : Char) :
    (s.step c).discarded =
      (if isRecognized c then [] else [⟨s.offset, s.offset + c.utf8Size⟩]) ++ s.discarded := by
  unfold isRecognized
  cases hc : isSignificant c with
  | true =>
    rcases isSignificant_iff.1 hc with hdigit | ⟨t, ht⟩
    · simp [step, Glyph.ofChar, hdigit]
    · simp [step, Glyph.ofChar, Token.not_isDigit_of_ofSymbol? ht, ht]
  | false =>
    rw [step, Glyph.ofChar_of_insignificant hc]
    cases Text.isBlank c <;> rfl

theorem run_discarded (s : Scan) (cs : List Char) :
    (s.run cs).discarded.reverse = s.discarded.reverse ++ straySpans s.offset cs := by
  induction cs generalizing s with
  | nil => simp [straySpans]
  | cons c cs ih =>
    rw [run_cons, ih, step_discarded, step_offset, straySpans, List.reverse_append]
    split <;> simp

end Scan

theorem read_discarded (text : String) : (read text).discarded = straySpans 0 text.toList :=
  Scan.run_discarded {} text.toList

section

variable {offset : Nat} {cs : List Char} {span : Span}

theorem straySpans_eq_nil (h : ∀ c ∈ cs, isRecognized c = true) : straySpans offset cs = [] := by
  induction cs generalizing offset with
  | nil => rfl
  | cons c cs ih =>
    obtain ⟨hc, hcs⟩ := List.forall_mem_cons.1 h
    rw [straySpans, if_pos hc, ih hcs]
    rfl

/-- Each span is that of one character, after the bytes of all characters before it. -/
theorem exists_of_mem_straySpans (h : span ∈ straySpans offset cs) :
    ∃ (before : String) (c : Char) (after : List Char), cs = before.toList ++ c :: after ∧
      isRecognized c = false ∧
      span = ⟨offset + before.utf8ByteSize, offset + (before.push c).utf8ByteSize⟩ := by
  induction cs generalizing offset with
  | nil => simp [straySpans] at h
  | cons c cs ih =>
    rw [straySpans, List.mem_append] at h
    rcases h with h | h
    · split at h
      · simp at h
      · rename_i hc
        refine ⟨"", c, cs, rfl, Bool.eq_false_iff.2 hc, ?_⟩
        simpa [String.utf8ByteSize_push] using h
    · obtain ⟨before, d, after, rfl, hd, rfl⟩ := ih h
      refine ⟨String.singleton c ++ before, d, after, by simp, hd, ?_⟩
      simp only [String.utf8ByteSize_push, String.utf8ByteSize_append,
        String.utf8ByteSize_singleton, Nat.add_assoc]

theorem le_start_of_mem_straySpans (h : span ∈ straySpans offset cs) : offset ≤ span.start := by
  obtain ⟨before, c, after, -, -, rfl⟩ := exists_of_mem_straySpans h
  exact Nat.le_add_right _ _

theorem pairwise_straySpans (offset : Nat) (cs : List Char) :
    (straySpans offset cs).Pairwise fun a b => a.stop ≤ b.start := by
  induction cs generalizing offset with
  | nil => exact .nil
  | cons c cs ih =>
    refine List.pairwise_append.2 ⟨?_, ih _, fun a ha b hb => ?_⟩
    · split <;> simp
    · have hb := le_start_of_mem_straySpans hb
      split at ha
      · simp at ha
      · rw [List.mem_singleton.1 ha]
        exact hb

end

/-! ### Bytes outside of spans -/

def Span.holds (span : Span) (i : Nat) : Bool := span.start ≤ i && i < span.stop

/-- The bytes in no span, if the first of all stands at `offset`. -/
def outside (spans : List Span) (offset : Nat) (bytes : List UInt8) : List UInt8 :=
  ((bytes.zipIdx offset).filter fun b => !spans.any (·.holds b.2)).map Prod.fst

section

variable {spans : List Span} {offset : Nat} {bytes : List UInt8}

theorem outside_append (spans : List Span) (offset : Nat) (a b : List UInt8) :
    outside spans offset (a ++ b) =
      outside spans offset a ++ outside spans (offset + a.length) b := by
  simp only [outside, List.zipIdx_append, List.filter_append, List.map_append]

/-- A span that ends before all of the bytes does not matter. -/
theorem outside_append_spans {earlier : List Span} (h : ∀ span ∈ earlier, span.stop ≤ offset) :
    outside (earlier ++ spans) offset bytes = outside spans offset bytes := by
  have hkeep : ∀ b ∈ bytes.zipIdx offset,
      (!(earlier ++ spans).any (·.holds b.2)) = !spans.any (·.holds b.2) := by
    intro b hb
    have hle := List.le_snd_of_mem_zipIdx hb
    have hnone : earlier.any (·.holds b.2) = false := by
      refine List.any_eq_false.2 fun span hspan => ?_
      have hstop := h span hspan
      simp only [Span.holds, Bool.and_eq_true, decide_eq_true_eq]
      omega
    rw [List.any_append, hnone, Bool.false_or]
  rw [outside, List.filter_congr hkeep]
  rfl

theorem outside_eq_self (h : ∀ span ∈ spans, offset + bytes.length ≤ span.start) :
    outside spans offset bytes = bytes := by
  have hkeep : (bytes.zipIdx offset).filter (fun b => !spans.any (·.holds b.2)) =
      bytes.zipIdx offset := by
    refine List.filter_eq_self.2 fun b hb => ?_
    have hlt := List.snd_lt_add_of_mem_zipIdx hb
    simp only [Bool.not_eq_true', List.any_eq_false, Span.holds, Bool.and_eq_true,
      decide_eq_true_eq]
    intro span hspan
    have hstart := h span hspan
    omega
  rw [outside, hkeep, List.zipIdx_map_fst]

theorem outside_eq_nil (h : ⟨offset, offset + bytes.length⟩ ∈ spans) :
    outside spans offset bytes = [] := by
  have hnone : (bytes.zipIdx offset).filter (fun b => !spans.any (·.holds b.2)) = [] := by
    refine List.filter_eq_nil_iff.2 fun b hb => ?_
    have hheld : spans.any (·.holds b.2) = true := by
      refine List.any_eq_true.2 ⟨_, h, ?_⟩
      simpa [Span.holds] using
        ⟨List.le_snd_of_mem_zipIdx hb, List.snd_lt_add_of_mem_zipIdx hb⟩
    simp [hheld]
  rw [outside, hnone, List.map_nil]

end

/-- Without the bytes of the spans those of the recognized characters are left. -/
theorem outside_straySpans (offset : Nat) (cs : List Char) :
    outside (straySpans offset cs) offset (cs.flatMap String.utf8EncodeChar) =
      (cs.filter isRecognized).flatMap String.utf8EncodeChar := by
  induction cs generalizing offset with
  | nil => rfl
  | cons c cs ih =>
    have hlength := String.length_utf8EncodeChar c
    have hrest : outside (straySpans offset (c :: cs)) (offset + c.utf8Size)
        (cs.flatMap String.utf8EncodeChar) =
          (cs.filter isRecognized).flatMap String.utf8EncodeChar := by
      rw [← ih, straySpans]
      refine outside_append_spans fun span hspan => ?_
      split at hspan
      · simp at hspan
      · rw [List.mem_singleton.1 hspan]
    rw [List.flatMap_cons, outside_append, hlength, hrest]
    cases hc : isRecognized c with
    | true =>
      have hself : outside (straySpans offset (c :: cs)) offset (String.utf8EncodeChar c) =
          String.utf8EncodeChar c := by
        refine outside_eq_self fun span hspan => ?_
        rw [straySpans, if_pos hc, List.nil_append] at hspan
        rw [hlength]
        exact le_start_of_mem_straySpans hspan
      rw [hself, List.filter_cons_of_pos hc, List.flatMap_cons]
    | false =>
      have hnil : outside (straySpans offset (c :: cs)) offset (String.utf8EncodeChar c) = [] := by
        refine outside_eq_nil ?_
        rw [hlength, straySpans, if_neg (by simp [hc])]
        exact List.mem_cons_self
      rw [hnil, List.filter_cons_of_neg (by simp [hc]), List.nil_append]

/-! ### Records -/

namespace Record

def span? : Record → Option Span
  | discarded span => some span
  | _ => none

end Record

namespace Calculation

theorem span?_eq_none (count : Nat) (report : Report) :
    ∀ r ∈ report.records count, r.span? = none := by
  intro r hr
  rcases List.mem_append.1 hr with hr | hr
  · obtain ⟨step, -, rfl⟩ := List.mem_map.1 hr
    rfl
  · split at hr
    · rw [List.mem_singleton.1 hr]
      rfl
    · simp at hr

theorem filterMap_span?_records (c : Calculation) :
    c.records.filterMap Record.span? = c.reading.discarded := by
  rw [records, List.filterMap_append, List.filterMap_eq_nil_iff.2 (span?_eq_none _ _),
    List.append_nil, Reading.records, List.filterMap_map]
  exact List.filterMap_some

theorem filter_span?_records (c : Calculation) :
    c.records.filter (·.span?.isNone) = c.report.records c.reading.tokens.length := by
  have hspans : c.reading.records.filter (·.span?.isNone) = [] := by
    refine List.filter_eq_nil_iff.2 fun r hr => ?_
    obtain ⟨span, -, rfl⟩ := List.mem_map.1 hr
    exact Bool.false_ne_true
  have hreport : (c.report.records c.reading.tokens.length).filter (·.span?.isNone) =
      c.report.records c.reading.tokens.length :=
    List.filter_eq_self.2 fun r hr => by rw [span?_eq_none _ _ r hr]; rfl
  rw [records, List.filter_append, hspans, hreport, List.nil_append]

end Calculation

/-! ### The text without its spans -/

/-- The recognized characters of a text. -/
def recognized (text : String) : String := String.ofList (text.toList.filter isRecognized)

theorem significant_recognized (text : String) :
    significant (recognized text) = significant text := by
  rw [significant, recognized, String.toList_ofList, List.filter_filter]
  refine List.filter_congr fun c _ => ?_
  cases hc : isSignificant c <;> simp [isRecognized, hc]

theorem tokenize_recognized (text : String) : tokenize (recognized text) = tokenize text := by
  rw [tokenize, tokenize, read_tokens, read_tokens, significant_recognized]

theorem discarded_recognized (text : String) : (read (recognized text)).discarded = [] := by
  rw [read_discarded, recognized, String.toList_ofList]
  exact straySpans_eq_nil fun c hc => (List.mem_filter.1 hc).2

theorem records_recognized (text : String) :
    (calculate (recognized text)).records =
      (calculate text).records.filter (·.span?.isNone) := by
  have hreading : (read (recognized text)).records = [] :=
    List.map_eq_nil_iff.2 (discarded_recognized text)
  rw [Calculation.filter_span?_records, records_calculate, hreading, tokenize_recognized,
    List.nil_append]
  rfl

theorem toByteArray_outside (text : String) :
    (outside (read text).discarded 0 text.toUTF8.data.toList).toByteArray =
      (recognized text).toUTF8 := by
  have hbytes : text.toUTF8.data.toList = text.toList.flatMap String.utf8EncodeChar := by
    rw [String.toUTF8_eq_toByteArray, ← String.utf8Encode_toList]
    exact List.toList_data_toByteArray
  rw [hbytes, read_discarded, outside_straySpans]
  exact String.toByteArray_ofList.symm

/-- The spans among the records of a text are those of single characters, from left to right and
side by side at most. Without their bytes the text is that of its digits, symbols and white space,
with the same tokens, the same result and all other records. -/
theorem discarded_spans (text : String) :
    let spans := (calculate text).records.filterMap Record.span?
    let rest := String.ofList (text.toList.filter fun c => isSignificant c || Text.isBlank c)
    (spans.Pairwise fun a b => a.stop ≤ b.start) ∧
      (∀ span ∈ spans, span.start < span.stop ∧ ∃ (before after : String) (c : Char),
        text = before.push c ++ after ∧
          span = ⟨before.utf8ByteSize, (before.push c).utf8ByteSize⟩) ∧
      (outside spans 0 text.toUTF8.data.toList).toByteArray = rest.toUTF8 ∧
      tokenize rest = tokenize text ∧
      (calculate rest).records.filterMap Record.span? = [] ∧
      (calculate rest).records = (calculate text).records.filter (·.span?.isNone) ∧
      process rest = process text := by
  intro spans rest
  have hspans : spans = (read text).discarded := (calculate text).filterMap_span?_records
  have hrest : rest = recognized text := rfl
  rw [hspans, hrest]
  refine ⟨?_, fun span hspan => ?_, toByteArray_outside text, tokenize_recognized text, ?_,
    records_recognized text, ?_⟩
  · rw [read_discarded]
    exact pairwise_straySpans 0 text.toList
  · rw [read_discarded] at hspan
    obtain ⟨before, c, after, htext, -, rfl⟩ := exists_of_mem_straySpans hspan
    simp only [Nat.zero_add]
    refine ⟨?_, before, String.ofList after, c, ?_, rfl⟩
    · rw [String.utf8ByteSize_push]
      exact Nat.lt_add_of_pos_right c.utf8Size_pos
    · rw [← String.toList_inj, htext]
      simp
  · rw [Calculation.filterMap_span?_records]
    exact discarded_recognized text
  · rw [process, process, report_calculate, report_calculate, tokenize_recognized]

/-- Wide white space moves the spans after it and has none of its own. -/
example : (read "1\u2003é٣ +x").discarded = [⟨4, 6⟩, ⟨6, 8⟩, ⟨10, 11⟩] := by decide +kernel

end IntegerCalc
