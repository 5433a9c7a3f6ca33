import IntegerCalc.Proofs.Groups
import Mathlib.Data.Int.ModEq
import Mathlib.Data.List.Forall2

/-! Evaluation modulo `m`. Two lists of tokens that differ only in numbers have the same
translation up to these numbers, as the waiting entries never depend on a value. Without divisions
no instruction looks at a value either, so that two runs fail together or go on with stacks that
are congruent entry by entry. Main statement: so are the values of the two lists, if they have
any. -/

namespace IntegerCalc

open ReversePolish Pending

/-! ### Tokens and their translation -/

/-- The same token, up to a number that is congruent modulo `m`. -/
inductive Token.Congruent (m : Int) : Token → Token → Prop where
  | number {a b : Int} (h : a ≡ b [ZMOD m]) : Congruent m (.number a) (.number b)
  | operator (op : Operator) : Congruent m (.operator op) (.operator op)
  | leftParen : Congruent m .leftParen .leftParen
  | rightParen : Congruent m .rightParen .rightParen

/-- The same instruction, up to a number that is congruent modulo `m`. -/
inductive ReversePolish.Instruction.Congruent (m : Int) : Instruction → Instruction → Prop where
  | push {a b : Int} (h : a ≡ b [ZMOD m]) : Congruent m (.push a) (.push b)
  | apply (op : Operator) : Congruent m (.apply op) (.apply op)

namespace ReversePolish

variable {m : Int} {s t : Token} {ts us : List Token} {pending next : List Pending}
variable {op : Operator}

theorem advance_congruent (h : Token.Congruent m s t) (pending : List Pending) :
    advance pending s = advance pending t := by
  cases h <;> rfl

theorem advanceAll_congruent (h : List.Forall₂ (Token.Congruent m) ts us)
    (pending : List Pending) : advanceAll pending ts = advanceAll pending us := by
  induction h generalizing pending with
  | nil => rfl
  | cons ht _ ih =>
    rw [advanceAll_cons, advanceAll_cons, advance_congruent ht]
    simp only [ih]

theorem balanced_congruent (h : List.Forall₂ (Token.Congruent m) ts us) :
    Balanced ts ↔ Balanced us := by
  rw [balanced_iff, balanced_iff, advanceAll_congruent h]

theorem forall₂_congruent_apply (ops : List Operator) :
    List.Forall₂ (Instruction.Congruent m) (ops.map .apply) (ops.map .apply) := by
  refine List.forall₂_same.2 fun i hi => ?_
  obtain ⟨op, -, rfl⟩ := List.mem_map.1 hi
  exact .apply op

theorem emit_congruent (h : Token.Congruent m s t) (pending : List Pending) :
    List.Forall₂ (Instruction.Congruent m) (emit pending s) (emit pending t) := by
  cases h with
  | number h => exact .cons (.push h) .nil
  | operator _ | rightParen => exact forall₂_congruent_apply _
  | leftParen => exact .nil

theorem emitAll_congruent (h : List.Forall₂ (Token.Congruent m) ts us) (pending : List Pending) :
    List.Forall₂ (Instruction.Congruent m) (emitAll pending ts) (emitAll pending us) := by
  induction h generalizing pending with
  | nil => exact .nil
  | @cons s t ts us ht _ ih =>
    have hfirst := emit_congruent ht pending
    have hadvance := advance_congruent ht pending
    cases ha : advance pending s with
    | none =>
      rw [emitAll_of_advance_eq_none ha, emitAll_of_advance_eq_none (hadvance ▸ ha)]
      exact hfirst
    | some next =>
      rw [emitAll_cons ha, emitAll_cons (hadvance ▸ ha)]
      exact List.rel_append hfirst (ih next)

theorem whole_congruent (h : List.Forall₂ (Token.Congruent m) ts us) :
    List.Forall₂ (Instruction.Congruent m) (whole ts) (whole us) :=
  emitAll_congruent (List.rel_append h (.cons .rightParen .nil)) []

/-! ### Operators that are applied -/

theorem mem_of_apply_mem_emit (h : .apply op ∈ emit pending t) : .operator op ∈ pending := by
  cases t with
  | number value => simp [emit] at h
  | leftParen => simp [emit] at h
  | operator _ | rightParen =>
    obtain ⟨_, hreleased, hop⟩ := List.mem_map.1 h
    obtain rfl := Instruction.apply.inj hop
    exact mem_of_mem_released hreleased

theorem mem_of_mem_advance (ha : advance pending t = some next) (h : .operator op ∈ next) :
    .operator op ∈ pending ∨ t = .operator op := by
  cases t with
  | number value => exact .inl (Option.some_inj.1 ha ▸ h)
  | leftParen =>
    obtain rfl := Option.some_inj.1 ha
    exact .inl (by simpa using h)
  | operator latest =>
    obtain rfl := Option.some_inj.1 ha
    rcases List.mem_cons.1 h with h | h
    · exact .inr (by rw [Pending.operator.inj h])
    · exact .inl ((kept_suffix _ _).mem h)
  | rightParen =>
    have hkept := kept_suffix (fun _ => true) pending
    simp only [advance] at ha
    split at ha
    · rename_i rest hrest
      obtain rfl := Option.some_inj.1 ha
      rw [hrest] at hkept
      exact .inl (hkept.mem (List.mem_cons_of_mem _ h))
    · contradiction

/-- An operator that is applied waited before or is among the tokens. -/
theorem mem_of_apply_mem_emitAll (h : .apply op ∈ emitAll pending ts) :
    .operator op ∈ pending ∨ .operator op ∈ ts := by
  induction ts generalizing pending with
  | nil => simp at h
  | cons t ts ih =>
    cases ha : advance pending t with
    | none =>
      rw [emitAll_of_advance_eq_none ha] at h
      exact .inl (mem_of_apply_mem_emit h)
    | some next =>
      rw [emitAll_cons ha, List.mem_append] at h
      rcases h with h | h
      · exact .inl (mem_of_apply_mem_emit h)
      · rcases ih h with h | h
        · exact (mem_of_mem_advance ha h).imp_right fun ht => by simp [ht]
        · exact .inr (List.mem_cons_of_mem t h)

theorem mem_of_apply_mem_whole (h : .apply op ∈ whole ts) : .operator op ∈ ts := by
  simpa using mem_of_apply_mem_emitAll h

end ReversePolish

/-! ### Two runs -/

/-- Both are malformed, or both are not and stand in the relation. -/
inductive Agree {α : Type} (r : α → α → Prop) : Except Fault α → Except Fault α → Prop where
  | ok {a b : α} (h : r a b) : Agree r (.ok a) (.ok b)
  | malformed : Agree r (.error .malformedExpression) (.error .malformedExpression)

theorem Agree.ok_or_malformed {α : Type} {r : α → α → Prop} {x y : Except Fault α}
    (h : Agree r x y) :
    (∃ a b, x = .ok a ∧ y = .ok b ∧ r a b) ∨
      x = .error .malformedExpression ∧ y = .error .malformedExpression := by
  cases h with
  | ok h => exact .inl ⟨_, _, rfl, rfl, h⟩
  | malformed => exact .inr ⟨rfl, rfl⟩

theorem Agree.bind {α β : Type} {r : α → α → Prop} {s : β → β → Prop} {x y : Except Fault α}
    {f g : α → Except Fault β} (h : Agree r x y) (hfg : ∀ a b, r a b → Agree s (f a) (g b)) :
    Agree s (x >>= f) (y >>= g) := by
  cases h with
  | ok h => exact hfg _ _ h
  | malformed => exact .malformed

theorem Operator.compute_modEq {m a b c d : Int} {op : Operator} (hop : op ≠ .div)
    (h : a ≡ b [ZMOD m]) (h' : c ≡ d [ZMOD m]) : op.compute a c ≡ op.compute b d [ZMOD m] := by
  cases op with
  | add => exact h.add h'
  | sub => exact h.sub h'
  | mul => exact h.mul h'
  | div => exact absurd rfl hop

namespace ReversePolish

variable {m : Int} {stack stack' : List Int} {i j : Instruction} {code code' : List Instruction}

theorem step_agree (hi : i.Congruent m j) (hdiv : i ≠ .apply .div)
    (hs : List.Forall₂ (Int.ModEq m) stack stack') :
    Agree (List.Forall₂ (Int.ModEq m)) (step stack i) (step stack' j) := by
  cases hi with
  | push h => exact .ok (.cons h hs)
  | apply op =>
    have hop : op ≠ .div := fun h => hdiv (h ▸ rfl)
    have happly : ∀ lhs rhs, op.apply lhs rhs = .ok (op.compute lhs rhs) := fun lhs rhs =>
      Operator.apply_eq_ok.2 ⟨fun h => hop h.1, rfl⟩
    cases hs with
    | nil => exact .malformed
    | cons hrhs hs =>
      cases hs with
      | nil => exact .malformed
      | cons hlhs hs =>
        simp only [step, happly]
        exact .ok (.cons (Operator.compute_modEq hop hlhs hrhs) hs)

theorem foldlM_step_agree (hcode : List.Forall₂ (Instruction.Congruent m) code code')
    (hdiv : .apply .div ∉ code) (hs : List.Forall₂ (Int.ModEq m) stack stack') :
    Agree (List.Forall₂ (Int.ModEq m)) (code.foldlM step stack) (code'.foldlM step stack') := by
  induction hcode generalizing stack stack' with
  | nil => exact .ok hs
  | cons hi _ ih =>
    obtain ⟨hfirst, hrest⟩ := not_or.1 (mt List.mem_cons.2 hdiv)
    rw [List.foldlM_cons, List.foldlM_cons]
    exact (step_agree hi (Ne.symm hfirst) hs).bind fun _ _ hnext => ih hrest hnext

theorem run_agree (hcode : List.Forall₂ (Instruction.Congruent m) code code')
    (hdiv : .apply .div ∉ code) : Agree (Int.ModEq m) (run code) (run code') := by
  refine (foldlM_step_agree hcode hdiv .nil).bind fun stack stack' hs => ?_
  match hs with
  | .nil => exact .malformed
  | .cons hvalue .nil => exact .ok hvalue
  | .cons _ (.cons _ _) => exact .malformed

end ReversePolish

/-! ### Values -/

variable {m : Int} {ts us : List Token}

theorem evaluate_agree (h : List.Forall₂ (Token.Congruent m) ts us) (hdiv : .operator .div ∉ ts) :
    Agree (Int.ModEq m) (evaluate ts) (evaluate us) := by
  rw [evaluate_eq_whole, evaluate_eq_whole]
  refine (run_agree (whole_congruent h) (mt mem_of_apply_mem_whole hdiv)).bind fun v w hv => ?_
  simp only [← balanced_congruent h]
  split
  · exact .ok hv
  · exact .malformed

/-- The token without its value. -/
def Token.shape : Token → Token
  | number _ => number 0
  | t => t

/-- Modulo one all values are the same. -/
theorem Token.congruent_one {s t : Token} (h : s.shape = t.shape) : s.Congruent 1 t := by
  cases s <;> cases t <;> simp only [shape, reduceCtorEq, operator.injEq] at h
  · exact .number Int.modEq_one
  · exact h ▸ .operator _
  · exact .leftParen
  · exact .rightParen

theorem forall₂_shape_of_map_eq (h : ts.map Token.shape = us.map Token.shape) :
    List.Forall₂ (fun s t => s.shape = t.shape) ts us := by
  rw [← List.forall₂_eq_eq_eq, List.forall₂_map_left_iff, List.forall₂_map_right_iff] at h
  exact h

/-- Without divisions, numbers that are congruent modulo `m` lead to values that are, and whether
there is a value at all depends on no number. -/
theorem evaluate_modEq (ts us : List Token) (hdiv : .operator .div ∉ ts) :
    (∀ m : Int, List.Forall₂ (Token.Congruent m) ts us →
      (∃ v w, evaluate ts = .ok v ∧ evaluate us = .ok w ∧ v ≡ w [ZMOD m]) ∨
        evaluate ts = .error .malformedExpression ∧ evaluate us = .error .malformedExpression) ∧
    (ts.map Token.shape = us.map Token.shape →
      ((∃ v, evaluate ts = .ok v) ↔ ∃ w, evaluate us = .ok w)) := by
  refine ⟨fun m h => (evaluate_agree h hdiv).ok_or_malformed, fun hshape => ?_⟩
  have hone : List.Forall₂ (Token.Congruent 1) ts us :=
    (forall₂_shape_of_map_eq hshape).imp fun _ _ => Token.congruent_one
  rcases (evaluate_agree hone hdiv).ok_or_malformed with ⟨v, w, hv, hw, -⟩ | ⟨hv, hw⟩
  · simp [hv, hw]
  · simp [hv, hw]

/-- `7 (3) - 2 *`, which is no infix expression, and `127 (-7) - -8 *`, whose numbers are congruent
to these modulo ten. -/
theorem evaluate_modEq_ten :
    let ts : List Token := [.number 7, .leftParen, .number 3, .rightParen, .operator .sub,
      .number 2, .operator .mul]
    let us : List Token := [.number 127, .leftParen, .number (-7), .rightParen, .operator .sub,
      .number (-8), .operator .mul]
    .operator .div ∉ ts ∧ List.Forall₂ (Token.Congruent 10) ts us ∧
      (∃ v w, evaluate ts = .ok v ∧ evaluate us = .ok w ∧ v ≡ w [ZMOD 10]) ∧
      ts.map Token.shape = us.map Token.shape ∧
      ((∃ v, evaluate ts = .ok v) ↔ ∃ w, evaluate us = .ok w) := by
  intro ts us
  have hdiv : .operator .div ∉ ts := by decide
  have hmod : List.Forall₂ (Token.Congruent 10) ts us :=
    .cons (.number (by decide)) (.cons .leftParen (.cons (.number (by decide)) (.cons .rightParen
      (.cons (.operator .sub) (.cons (.number (by decide)) (.cons (.operator .mul) .nil))))))
  have hvalue : evaluate ts = .ok 1 := rfl
  obtain ⟨hcongruent, hshape⟩ := evaluate_modEq ts us hdiv
  refine ⟨hdiv, hmod, (hcongruent 10 hmod).resolve_right fun h => ?_, rfl, hshape rfl⟩
  rw [hvalue] at h
  exact nomatch h.1

end IntegerCalc
