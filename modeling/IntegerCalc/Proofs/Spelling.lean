import IntegerCalc.Proofs.Reading

/-! What texts can spell. A reading never finds a negative number, nor two numbers side by
side, as a literal goes on until a symbol ends it. Main statement: all other lists of tokens
are spelled by some text, and however they are written out, with zeros before the numbers or
without, they are read back. -/

namespace IntegerCalc

def Token.isNumber : Token → Bool
  | number _ => true
  | _ => false

theorem Token.isNumber_of_ofSymbol? {c : Char} {t : Token} (h : ofSymbol? c = some t) :
    t.isNumber = false := by
  unfold ofSymbol? at h
  split at h <;> cases h <;> rfl

/-- No number is negative, and no two stand side by side. -/
structure Spellable (ts : List Token) : Prop where
  nonneg : ∀ value, .number value ∈ ts → 0 ≤ value
  separate : ts.IsChain fun a b => (a.isNumber && b.isNumber) = false

namespace Spellable

variable {t : Token} {ts : List Token}

theorem nil : Spellable [] := ⟨by simp, List.isChain_nil⟩

theorem tail (h : Spellable (t :: ts)) : Spellable ts :=
  ⟨fun value hv => h.nonneg value (List.mem_cons_of_mem t hv), (List.isChain_cons.1 h.separate).2⟩

theorem symbol (h : Spellable ts) (ht : t.isNumber = false) : Spellable (t :: ts) where
  nonneg value hv := by
    rcases List.mem_cons.1 hv with rfl | hv
    · contradiction
    · exact h.nonneg value hv
  separate := h.separate.cons fun a _ => by simp [ht]

theorem number (h : Spellable ts) (hts : ∀ t ∈ ts.head?, t.isNumber = false) (value : Nat) :
    Spellable (.number value :: ts) where
  nonneg v hv := by
    rcases List.mem_cons.1 hv with hv | hv
    · rw [Token.number.inj hv]
      exact Int.natCast_nonneg value
    · exact h.nonneg v hv
  separate := h.separate.cons fun a ha => by simp [hts a ha]

theorem reverse (h : Spellable ts) : Spellable ts.reverse where
  nonneg value hv := h.nonneg value (List.mem_reverse.1 hv)
  separate := by
    rw [List.isChain_reverse]
    exact h.separate.imp fun a b hab => by rw [Bool.and_comm]; exact hab

end Spellable

/-! ### Reading -/

namespace Scan

/-- What has been closed can be spelled and ends in a symbol. -/
def Separated (s : Scan) : Prop :=
  Spellable s.tokens ∧ ∀ t ∈ s.tokens.head?, t.isNumber = false

theorem Separated.closed {s : Scan} (h : s.Separated) : Spellable s.closed := by
  unfold Scan.closed
  cases s.literal with
  | none => exact h.1
  | some value => exact h.1.number h.2 value

theorem Separated.step {s : Scan} (h : s.Separated) (c : Char) : (s.step c).Separated := by
  by_cases hc : Spelling.isSignificant c = true
  · rcases Spelling.isSignificant_iff.1 hc with hdigit | ⟨t, ht⟩
    · unfold Separated
      rw [(s.step_digit hdigit).2]
      exact h
    · have hsymbol : t.isNumber = false := Token.isNumber_of_ofSymbol? ht
      unfold Separated
      rw [(s.step_symbol ht).2]
      exact ⟨h.closed.symbol hsymbol, by simpa using hsymbol⟩
  · unfold Separated
    rw [(s.step_insignificant (Bool.eq_false_iff.2 hc)).2]
    exact h

theorem Separated.run {s : Scan} (h : s.Separated) (cs : List Char) : (s.run cs).Separated := by
  induction cs generalizing s with
  | nil => exact h
  | cons c cs ih => exact ih (h.step c)

end Scan

theorem spellable_tokenize (text : String) : Spellable (tokenize text) := by
  have hstart : Scan.Separated {} := ⟨.nil, by simp⟩
  exact (hstart.run text.toList).closed.reverse

/-! ### Writing -/

namespace Spelling

theorem placeValue_zeros (zeros : Nat) (digits : List Char) :
    placeValue (List.replicate zeros '0' ++ digits) = placeValue digits := by
  induction zeros with
  | zero => rfl
  | succ zeros ih =>
    rw [List.replicate_succ, List.cons_append, placeValue, ih]
    simp

theorem placeValue_eq_ofDigitChars (digits : List Char) :
    placeValue digits = Nat.ofDigitChars 10 digits 0 := by
  induction digits using List.reverseRecOn with
  | nil => rfl
  | append_singleton digits c ih =>
    rw [placeValue_append_digit, ih, Nat.ofDigitChars_append, Nat.ofDigitChars_cons]
    rfl

theorem write_number (zeros value : Nat) :
    write zeros (.number value) = List.replicate zeros '0' ++ Nat.toDigits 10 value := by
  have hdecimal : toString (value : Int) = String.ofList (Nat.toDigits 10 value) :=
    Nat.toString_eq_ofList_toDigits
  rw [write, hdecimal, String.toList_ofList]

theorem isDigit_of_mem_write {zeros value : Nat} :
    ∀ c ∈ write zeros (.number value), c.isDigit = true := by
  intro c hc
  rw [write_number] at hc
  rcases List.mem_append.1 hc with hc | hc
  · rw [(List.mem_replicate.1 hc).2]
    rfl
  · exact Nat.isDigit_of_mem_toDigits (by omega) (by omega) hc

/-- A token that can be spelled is written with digits alone or as one symbol. -/
theorem number_or_symbol {t : Token} {ts : List Token} (h : Spellable ts) (ht : t ∈ ts) :
    (∃ n : Nat, t = .number n) ∨
      ∃ c, Token.ofSymbol? c = some t ∧ ∀ zeros, write zeros t = [c] := by
  cases t with
  | number value =>
    obtain ⟨n, rfl⟩ := Int.eq_ofNat_of_zero_le (h.nonneg value ht)
    exact .inl ⟨n, rfl⟩
  | operator op => exact .inr ⟨op.symbol, Token.ofSymbol?_symbol op, fun _ => rfl⟩
  | leftParen => exact .inr ⟨'(', rfl, fun _ => rfl⟩
  | rightParen => exact .inr ⟨')', rfl, fun _ => rfl⟩

theorem tokensOf_write_number (zeros value : Nat) :
    tokensOf (write zeros (.number value)) = [.number value] := by
  have hne : write zeros (.number value) ≠ [] := by
    rw [write_number]
    simp [Nat.toDigits_ne_nil]
  have hvalue : placeValue (write zeros (.number value)) = value := by
    rw [write_number, placeValue_zeros, placeValue_eq_ofDigitChars, Nat.ofDigitChars_ten_toDigits]
  rw [tokensOf_digits isDigit_of_mem_write, literal?, if_neg hne, hvalue]
  rfl

variable {entries : List (Nat × Token)}

theorem significant_render (h : Spellable (entries.map Prod.snd)) :
    significant (render entries) = entries.flatMap fun entry => write entry.1 entry.2 := by
  rw [significant, render, String.toList_ofList, List.filter_eq_self]
  intro c hc
  obtain ⟨⟨zeros, t⟩, hentry, hc⟩ := List.mem_flatMap.1 hc
  have ht : t ∈ entries.map Prod.snd := List.mem_map.2 ⟨_, hentry, rfl⟩
  rw [isSignificant_iff]
  rcases number_or_symbol h ht with ⟨n, rfl⟩ | ⟨d, hd, hwrite⟩
  · exact .inl (isDigit_of_mem_write c hc)
  · rw [hwrite] at hc
    exact .inr ⟨t, List.mem_singleton.1 hc ▸ hd⟩

/-- After a number comes a symbol or nothing. -/
theorem not_isDigit_head_write (h : Spellable (entries.map Prod.snd))
    (hentries : ∀ t ∈ (entries.map Prod.snd).head?, t.isNumber = false) :
    ∀ c ∈ (entries.flatMap fun entry => write entry.1 entry.2).head?, c.isDigit = false := by
  match entries with
  | [] => simp
  | (zeros, t) :: entries =>
    intro c hc
    have ht : t.isNumber = false := hentries t rfl
    rcases number_or_symbol h List.mem_cons_self with ⟨n, rfl⟩ | ⟨d, hd, hwrite⟩
    · contradiction
    · rw [List.flatMap_cons, hwrite] at hc
      obtain rfl := Option.some.inj hc
      exact Token.not_isDigit_of_ofSymbol? hd

theorem tokensOf_flatMap_write (h : Spellable (entries.map Prod.snd)) :
    tokensOf (entries.flatMap fun entry => write entry.1 entry.2) = entries.map Prod.snd := by
  induction entries with
  | nil => rfl
  | cons entry entries ih =>
    obtain ⟨zeros, t⟩ := entry
    have hrest := ih h.tail
    rw [List.flatMap_cons, List.map_cons]
    rcases number_or_symbol h List.mem_cons_self with ⟨n, rfl⟩ | ⟨c, hc, hwrite⟩
    · -- The literal ends where the next token begins, which is no number.
      have hhead : ∀ t ∈ (entries.map Prod.snd).head?, t.isNumber = false := by
        intro t ht
        simpa [Token.isNumber] using (List.isChain_cons.1 h.separate).1 t ht
      have hboundary := not_isDigit_head_write h.tail hhead
      rw [tokensOf_append fun x _ y hy => by rw [hboundary y hy, Bool.and_false],
        tokensOf_write_number, hrest]
      rfl
    · rw [hwrite, ← hrest]
      exact tokensOf_append_symbol hc [] _

theorem tokenize_render (h : Spellable (entries.map Prod.snd)) :
    tokenize (render entries) = entries.map Prod.snd := by
  rw [tokenize, read_tokens, significant_render h, tokensOf_flatMap_write h]

theorem tokenize_canonical {ts : List Token} (h : Spellable ts) : tokenize (canonical ts) = ts := by
  have hts : (ts.map ((0, ·) : Token → Nat × Token)).map Prod.snd = ts := by
    rw [List.map_map]
    exact List.map_id ts
  rw [canonical, tokenize_render (hts.symm ▸ h), hts]

/-- The lists of tokens that texts spell are those without a negative number and without two
numbers side by side. Each of them is read back from all its written forms. -/
theorem tokenize_eq_iff_spellable :
    (∀ ts, (∃ text, tokenize text = ts) ↔ Spellable ts) ∧
      (∀ entries : List (Nat × Token), Spellable (entries.map Prod.snd) →
        tokenize (render entries) = entries.map Prod.snd) ∧
      ∀ text (entries : List (Nat × Token)), entries.map Prod.snd = tokenize text →
        tokenize (render entries) = tokenize text := by
  refine ⟨fun ts => ⟨?_, fun h => ⟨canonical ts, tokenize_canonical h⟩⟩,
    fun _ => tokenize_render, fun text entries h => ?_⟩
  · rintro ⟨text, rfl⟩
    exact spellable_tokenize text
  · rw [tokenize_render (h ▸ spellable_tokenize text), h]

/-- `00120/(0)` with two needless zeros before the first number, against `1 20 / ( 0 )`. -/
theorem tokenize_render_zeros :
    let entries : List (Nat × Token) := [(2, .number 120), (0, .operator .div), (0, .leftParen),
      (0, .number 0), (0, .rightParen)]
    Spellable (entries.map Prod.snd) ∧ render entries = "00120/(0)" ∧
      tokenize (render entries) = entries.map Prod.snd ∧
      entries.map Prod.snd = tokenize "1 20 / ( 0 )" ∧
      tokenize (render entries) = tokenize "1 20 / ( 0 )" := by
  intro entries
  have h : Spellable (entries.map Prod.snd) := by
    refine ⟨fun value hv => ?_, by decide⟩
    simp only [entries, List.map_cons, List.map_nil, List.mem_cons, Token.number.injEq,
      reduceCtorEq, false_or, or_false, List.not_mem_nil] at hv
    omega
  have htext : entries.map Prod.snd = tokenize "1 20 / ( 0 )" := by decide +kernel
  exact ⟨h, by decide +kernel, tokenize_eq_iff_spellable.2.1 entries h, htext,
    tokenize_eq_iff_spellable.2.2 _ entries htext⟩

end Spelling

end IntegerCalc
